import DuckDB.Storage.Equiv.DataTable
import DuckDB.Transaction.Equiv.Refinement

/-!
# Whole operations refine the abstract store

The loops of `Append`, `Delete` and `Update`, the walks over the undo buffer at commit and rollback
and the cleaning up in `RemoveTransaction`, put together from the single steps of `Refinement`.
-/

namespace DuckDB

open Theory List TransactionManager Transaction Database Refines VersionInformation RowSlot

variable {V C : Type*}

theorem TransactionManager.setTransaction_setTransaction {a b : Transaction C}
    {manager : TransactionManager C} (h : a.transactionId = b.transactionId) :
    (manager.setTransaction b).setTransaction a = manager.setTransaction a := by
  simp only [setTransaction, map_map, mk.injEq, true_and, and_true]
  refine map_congr_left fun u _ => ?_
  by_cases hu : u.transactionId = b.transactionId <;> simp [hu, h]

theorem Database.Invariant.setTransaction_self {db : Database V C} {id : ℕ} {t : Transaction C}
    (h : db.Invariant) (ht : db.transactionManager.active? id = some t) :
    db.transactionManager.setTransaction t = db.transactionManager := by
  have hself : db.transactionManager.activeTransactions.map
      (fun u => if u.transactionId = t.transactionId then t else u) =
      db.transactionManager.activeTransactions := by
    refine (map_congr_left fun u hu => ?_).trans (map_id _)
    obtain ⟨htm, -⟩ := h.active?_eq_some_iff.1 ht
    by_cases hu' : u.transactionId = t.transactionId
    · rw [if_pos hu']
      exact (h.active_ext hu htm hu').symm
    · exact if_neg hu'
  rw [setTransaction, hself]

theorem Database.Invariant.active?_setTransaction {db db' : Database V C} {id : ℕ}
    {t t' : Transaction C} (h : db.Invariant) (h' : db'.Invariant)
    (ht : db.transactionManager.active? id = some t) (hid : t'.transactionId = id)
    (hmanager : db'.transactionManager = db.transactionManager.setTransaction t') :
    db'.transactionManager.active? id = some t' := by
  obtain ⟨htm, htid⟩ := h.active?_eq_some_iff.1 ht
  refine h'.active?_eq_some_iff.2 ⟨?_, hid⟩
  rw [hmanager]
  exact mem_map.2 ⟨t, htm, if_pos (htid.trans hid.symm)⟩

/-! ### `Delete` and `Update` -/

namespace DataTable

/-- The row has been saved by the transaction with the given id. -/
def Saved (owner : ℕ) (t : DataTable V) (row : ℕ) : Prop :=
  ∃ slot, t.row? row = some slot ∧ slot.savedBy owner

end DataTable

/-- What the loop body does to a row after `PushTuple`. -/
structure PushEffect (after : RowSlot V → RowSlot V) (w : RowWrite V) : Prop where
  not_insert : w.isInsert = false
  chain : ∀ slot, (after slot).versionPointers = slot.versionPointers
  versioned : ∀ (owner index : ℕ) (slot : RowSlot V),
    (after (slot.pushTuple ⟨owner, index⟩ owner)).versioned = slot.versioned.write owner w

theorem pushEffect_update : PushEffect (id : RowSlot V → RowSlot V) .touch where
  not_insert := rfl
  chain _ := rfl
  versioned owner index slot := by
    rw [id_eq, versioned_pushTuple]
    exact congrArg (VersionedRow.mk · (slot.versioned.save owner).records)
      (VersionedRow.state_save owner slot.versioned)

theorem pushEffect_delete : PushEffect (setDeleted : RowSlot V → RowSlot V) .delete where
  not_insert := rfl
  chain _ := rfl
  versioned owner index slot := by
    rw [versioned_setDeleted, versioned_pushTuple]
    rfl

namespace Database.Invariant

open DataTable

/-- **The loop of `Delete` and `Update`**: the rows before the first one that cannot be changed are
saved and changed, and the loop throws unless these are all. -/
theorem refines_pushRows {after : RowSlot V → RowSlot V} {w : RowWrite V}
    (heffect : PushEffect after w) (flag : TupleFlag) (conflict : String)
    (chunk : StorageChunk V) (table id : ℕ) (ids : List ℕ) {db : Database V C} {t : Transaction C}
    (h : db.Invariant) (ht : db.transactionManager.active? id = some t) :
    let result := pushRows flag conflict after chunk table ids t (db.tables table)
    let pushed := ids.takeWhile (pushable t (db.tables table) chunk)
    Refines db
        { transactionManager := db.transactionManager.setTransaction result.1
          tables := Function.update db.tables table result.2.1 }
        (pushed.map fun row => .write id ⟨table, row, w⟩) ∧
      (result.2.2 = none ↔ pushed = ids) ∧
      ∀ row, Saved id (db.tables table) row ∨ row ∈ pushed → Saved id result.2.1 row := by
  induction ids generalizing db t with
  | nil =>
    refine ⟨?_, by simp [pushRows], fun row hrow => by simpa [pushRows] using hrow⟩
    simp only [pushRows, h.setTransaction_self ht, Function.update_eq_self]
    exact refl h
  | cons row ids ih =>
    obtain ⟨htm, htid⟩ := h.active?_eq_some_iff.1 ht
    by_cases hpush : pushable t (db.tables table) chunk row
    · obtain ⟨hholds, slot, hslot, hconf⟩ := pushable_iff.1 hpush
      -- one turn of the loop
      let f : RowSlot V → RowSlot V := fun r =>
        after (r.pushTuple ⟨t.transactionId, t.nextIndex⟩ t.transactionId)
      have hf : ∀ r : RowSlot V, (f r).versionPointers =
          ⟨⟨id, t.nextIndex⟩, id, some r.columns⟩ :: r.versionPointers := fun r => by
        simp only [f, heffect.chain, pushTuple, htid]
      have hstep : Refines db
          { transactionManager :=
              db.transactionManager.setTransaction (t.createEntry (.tuple flag table row))
            tables := db.tables.modifyRow table row f } [.write id ⟨table, row, w⟩] := by
        refine h.refines_push ht hslot hconf flag heffect.not_insert ?_ ?_
        · rw [hf, map_cons]
          rfl
        · simp only [f, htid]
          exact heffect.versioned id t.nextIndex slot
      have htables : (db.tables.modifyRow table row f) table = (db.tables table).modifyRow row f :=
        Function.update_self ..
      have hid : (t.createEntry (.tuple flag table row)).transactionId = id := htid
      have ht' := h.active?_setTransaction hstep.invariant ht hid rfl
      obtain ⟨hrest, hnone, hsaved⟩ := ih hstep.invariant ht'
      simp only [htables] at hrest hnone hsaved
      have hsavedf : ∀ r : RowSlot V, (f r).savedBy id := fun r =>
        ⟨_, _, hf r, rfl, Option.some_ne_none _⟩
      have hstable := pushable_pushTuple heffect.chain hpush (.tuple flag table row)
      have hresult := pushRows_of_pushable hpush flag conflict after table ids
      rw [hstable] at hrest hnone hsaved
      simp only [hresult, takeWhile_cons_of_pos hpush, map_cons]
      refine ⟨?_, ?_, fun row' hrow' => ?_⟩
      · have hid' := transactionId_pushRows flag conflict after chunk table ids
          (t.createEntry (.tuple flag table row)) ((db.tables table).modifyRow row f)
        have := hstep.trans hrest
        rwa [setTransaction_setTransaction hid', Tables.modifyRow,
          Tables.modifyTable, Function.update_idem] at this
      · rw [hnone]
        simp
      · refine hsaved row' ?_
        rcases hrow' with ⟨slot', hslot', hsv⟩ | hmem
        · -- a saved row stays saved
          refine .inl ?_
          by_cases hrr : row = row'
          · subst hrr
            exact ⟨f slot', by simp [row?_modifyRow, hslot'], hsavedf slot'⟩
          · exact ⟨slot', by simp [row?_modifyRow, hrr, hslot'], hsv⟩
        · rcases mem_cons.1 hmem with rfl | hmem
          · exact .inl ⟨f slot, by simp [row?_modifyRow, hslot], hsavedf slot⟩
          · exact .inr hmem
    · have hstop := pushRows_of_not_pushable hpush flag conflict after table ids
      simp only [hstop, takeWhile_cons_of_neg hpush, map_nil]
      refine ⟨?_, by simp, fun row' hrow' => hrow'.resolve_right (by simp)⟩
      simp only [h.setTransaction_self ht, Function.update_eq_self]
      exact refl h

end Database.Invariant

/-- A write event of each cell. -/
def cellEvent (id table : ℕ) (cell : ℕ × ℕ × V) : Event V :=
  .write id ⟨table, cell.1, .set cell.2.1 cell.2.2⟩

namespace Database.Invariant

open DataTable

variable {t : Transaction C} {db : Database V C}

/-- **The second half of `Update`.** -/
theorem refines_writeCells (table id : ℕ) (cells : List (ℕ × ℕ × V)) (h : db.Invariant)
    (ht : db.transactionManager.active? id = some t)
    (hsaved : ∀ cell ∈ cells, Saved id (db.tables table) cell.1) :
    Refines db
      { db with tables := Function.update db.tables table (writeCells cells (db.tables table)) }
      (cells.map (cellEvent id table)) := by
  induction cells generalizing db with
  | nil =>
    simp only [writeCells, foldl_nil, Function.update_eq_self]
    exact refl h
  | cons cell cells ih =>
    obtain ⟨slot, hslot, hslotSaved⟩ := hsaved cell mem_cons_self
    have hstep := h.refines_set ht hslot hslotSaved cell.2.1 cell.2.2
    have htables : (db.tables.modifyRow table cell.1 (setColumn cell.2.1 cell.2.2)) table =
        (db.tables table).modifyRow cell.1 (setColumn cell.2.1 cell.2.2) :=
      Function.update_self ..
    have hrest := ih hstep.invariant ht fun cell' hcell' => by
      obtain ⟨slot', hslot', hsaved'⟩ := hsaved cell' (mem_cons_of_mem _ hcell')
      simp only [htables]
      by_cases hrow : cell.1 = cell'.1
      · exact ⟨_, by rw [row?_modifyRow, if_pos hrow, hslot']; rfl,
          hsaved'.setColumn cell.2.1 cell.2.2⟩
      · exact ⟨slot', by rw [row?_modifyRow, if_neg hrow, hslot'], hsaved'⟩
    have := hstep.trans hrest
    simp only [htables] at this
    rw [Tables.modifyRow, Tables.modifyTable, Function.update_idem] at this
    exact this

theorem refines_pushDeletedEntries (table id : ℕ) (tuples : List (List V)) {db db' : Database V C}
    (h : db.Invariant) (ht : db.transactionManager.active? id = some t)
    (hmanager : db'.transactionManager = db.transactionManager.setTransaction
      (pushDeletedEntries table (db.tables table).rows.length tuples t).1)
    (hrows : (db'.tables table).rows = (db.tables table).rows ++
      (pushDeletedEntries table (db.tables table).rows.length tuples t).2)
    (hothers : ∀ table', table' ≠ table → (db'.tables table').rows = (db.tables table').rows) :
    Refines db db' ((tuples.zipIdx (db.tables table).rows.length).map fun e =>
      .write id ⟨table, e.2, .insert e.1⟩) := by
  induction tuples generalizing db t with
  | nil =>
    have hself := h.setTransaction_self ht
    simp only [pushDeletedEntries] at hmanager hrows
    rw [hself] at hmanager
    refine of_eq h (by rw [hmanager]) (by rw [hmanager]) (by rw [hmanager])
      (by rw [hmanager]) fun table' => ?_
    by_cases htable : table' = table
    · rw [htable, hrows, append_nil]
    · exact hothers table' htable
  | cons tuple tuples ih =>
    have htid := (h.active?_eq_some_iff.1 ht).2
    let n := (db.tables table).rows.length
    let slot := inserted ⟨t.transactionId, t.nextIndex⟩ t.transactionId tuple
    let db₁ : Database V C :=
      { transactionManager :=
          db.transactionManager.setTransaction (t.createEntry (.tuple .insertTuple table n))
        tables := Function.update db.tables table ((db.tables table).extendTail [slot]) }
    have hrows₁ : (db₁.tables table).rows = (db.tables table).rows ++ [slot] := by
      simp only [db₁, Function.update_self, rows_extendTail]
    have hothers₁ : ∀ table', table' ≠ table → (db₁.tables table').rows = (db.tables table').rows :=
      fun table' htable => by simp only [db₁, Function.update_of_ne htable]
    have hstep := h.refines_insert ht table tuple rfl (htid ▸ hrows₁) hothers₁
    have hid : (t.createEntry (.tuple .insertTuple table n)).transactionId = id := htid
    have ht₁ := h.active?_setTransaction hstep.invariant ht hid rfl
    have hlen : (db₁.tables table).rows.length = n + 1 := by rw [hrows₁, length_append]; rfl
    have hrest := ih hstep.invariant ht₁ (by
        rw [hmanager, hlen]
        refine (setTransaction_setTransaction ?_).symm
        exact transactionId_pushDeletedEntries table (n + 1) tuples _)
      (by
        rw [hlen, hrows₁, hrows, append_assoc]
        rfl)
      (fun table' htable => (hothers table' htable).trans (hothers₁ table' htable).symm)
    rw [hlen] at hrest
    exact hstep.trans hrest

theorem refines_append (checks : TableChecks V C) (table id : ℕ) (chunk : DataChunk V)
    (h : db.Invariant) (ht : db.transactionManager.active? id = some t) :
    Refines db (db.onTable table t (append checks table chunk)).1
      ((appendChanges checks table chunk t (db.tables table)).map (.write id)) := by
  obtain ⟨htransaction, hrows⟩ := append_spec checks table chunk t (db.tables table)
  rw [appendChanges, map_map]
  refine h.refines_pushDeletedEntries table id (appendedRows checks chunk t (db.tables table)) ht
    ?_ ?_ fun table' htable => ?_
  · simp only [onTable, htransaction]
  · simp only [onTable, Function.update_self, hrows]
  · simp only [onTable, Function.update_of_ne htable]

theorem refines_unchanged {id : ℕ} (table : ℕ) (h : db.Invariant)
    (ht : db.transactionManager.active? id = some t) :
    Refines db
      { transactionManager := db.transactionManager.setTransaction t
        tables := Function.update db.tables table (db.tables table) } [] := by
  rw [h.setTransaction_self ht, Function.update_eq_self]
  exact refl h

theorem refines_delete (table id : ℕ) (ids : List ℕ) (h : db.Invariant)
    (ht : db.transactionManager.active? id = some t) :
    Refines db (db.onTable table t (delete table ids)).1
      ((deleteChanges table ids t (db.tables table)).map (.write id)) := by
  cases ids with
  | nil => exact h.refines_unchanged table ht
  | cons first rest =>
    cases hchunk : (db.tables table).getChunk first with
    | none =>
      simp only [onTable, delete, deleteChanges, pushedRows, hchunk]
      exact h.refines_unchanged table ht
    | some chunk =>
      simp only [onTable, delete, deleteChanges, pushedRows, hchunk, map_map]
      exact (h.refines_pushRows pushEffect_delete .deleteTuple "Conflict on tuple deletion!" chunk
        table id (first :: rest) ht).1

theorem refines_update (checks : TableChecks V C) (table owner : ℕ) (updates : UpdateChunk V)
    (h : db.Invariant) (ht : db.transactionManager.active? owner = some t) :
    Refines db (db.onTable table t (update checks table updates)).1
      ((updateChanges checks table updates t (db.tables table)).map (.write owner)) := by
  cases hids : updates.rowIdentifiers with
  | nil =>
    have hcells : updates.cells = [] := by simp [UpdateChunk.cells, hids]
    have hnone : updateChanges checks table updates t (db.tables table) = [] := by
      simp [updateChanges, pushedRows, hids, hcells]
    simp only [onTable, update, hids, hnone, map_nil]
    exact h.refines_unchanged table ht
  | cons first rest =>
    cases hverify : checks.verifyUpdate (db.tables table) updates with
    | some e =>
      simp only [onTable, update, hids, hverify, updateChanges, Option.isSome_some, Bool.true_or,
        if_true, map_nil]
      exact h.refines_unchanged table ht
    | none =>
      cases hchunk : (db.tables table).getChunk first with
      | none =>
        have hnone : updateChanges checks table updates t (db.tables table) = [] := by
          simp [updateChanges, pushedRows, hids, hchunk]
        simp only [onTable, update, hids, hverify, hchunk, hnone, map_nil]
        exact h.refines_unchanged table ht
      | some chunk =>
        cases hunique : checks.uniqueUpdate t (db.tables table) updates with
        | some e =>
          simp only [onTable, update, hids, hverify, hchunk, hunique, updateChanges,
            Option.isSome_some, Bool.or_true, if_true, map_nil]
          exact h.refines_unchanged table ht
        | none =>
          obtain ⟨hpush, hexc, hsaved⟩ := h.refines_pushRows pushEffect_update .updateTuple
            "Conflict on tuple update!" chunk table owner (first :: rest) ht
          simp only [onTable, update, hids, hverify, hchunk, hunique, updateChanges, pushedRows,
            Option.isSome_none, Bool.or_self, Bool.false_eq_true, if_false, map_append, map_map]
          have hid := transactionId_pushRows .updateTuple "Conflict on tuple update!" id chunk table
            (first :: rest) t (db.tables table)
          rw [(h.active?_eq_some_iff.1 ht).2] at hid
          generalize pushRows .updateTuple "Conflict on tuple update!" id chunk table (first :: rest)
            t (db.tables table) = result at hpush hexc hsaved hid
          obtain ⟨t', table', exception⟩ := result
          cases exception with
          | some e =>
            have hne : (first :: rest).takeWhile (pushable t (db.tables table) chunk) ≠
                first :: rest := fun heq => by simpa using hexc.2 heq
            rw [if_neg hne, map_nil, append_nil]
            exact hpush
          | none =>
            have hall := hexc.1 rfl
            rw [if_pos hall, map_map]
            have ht' := h.active?_setTransaction hpush.invariant ht hid rfl
            have hcells := hpush.invariant.refines_writeCells table owner updates.cells ht'
              fun cell hcell => by
                simp only [Function.update_self]
                refine hsaved cell.1 (.inr ?_)
                rw [hall, ← hids]
                exact updates.row_mem_of_mem_cells hcell
            have := hpush.trans hcells
            simp only [Function.update_self, Function.update_idem] at this
            exact this

end Database.Invariant

/-! ### Commit, rollback and cleaning up -/

theorem store_rows_map {tables tables' : Tables V} {g : ℕ → ℕ → RowSlot V → RowSlot V}
    {f : VersionedRow V → VersionedRow V}
    (hrow : ∀ table row, tables'.row? table row = (tables.row? table row).map (g table row))
    (hf : ∀ table row slot, tables.row? table row = some slot →
      (g table row slot).versioned = f slot.versioned) (table : ℕ) :
    (tables' table).rows.map RowSlot.versioned =
      ((tables table).rows.map RowSlot.versioned).map f := by
  refine ext_getElem? fun row => ?_
  have h := hrow table row
  rw [Tables.row?_eq, Tables.row?_eq] at h
  rw [getElem?_map, getElem?_map, getElem?_map, h, Option.map_map, Option.map_map]
  cases hslot : (tables table).rows[row]? with
  | none => rfl
  | some slot => exact congrArg some (hf table row slot (by rw [Tables.row?_eq, hslot]))

theorem pointer_of_key {versions : List (VersionInformation V)} {transaction : Transaction C}
    {table row number : ℕ} (h : versions.map key = transaction.block table row number) :
    versions.map (·.pointer) = (transaction.pointersOn table row).reverse ∧
      ∀ v ∈ versions, v.pointer.owner = transaction.transactionId := by
  constructor
  · have := congrArg (List.map Prod.fst) h
    simpa [block, key, Function.comp_def] using this
  · intro v hv
    have : v.key ∈ transaction.block table row number := h ▸ mem_map_of_mem hv
    exact owner_of_mem_block this

namespace Database

/-- `Cleanup` of the oldest recently committed transaction. -/
def cleanOldest (transaction : Transaction C) (rest : List (Transaction C)) (db : Database V C) :
    Database V C where
  transactionManager := { db.transactionManager with recentlyCommittedTransactions := rest }
  tables := cleanupUndo db.tables transaction

/-- A recently committed transaction that all active ones see. -/
def isCleanable (active : List (Transaction C)) (t : Transaction C) : Bool :=
  decide (t.commitId < lowestStartTime active)

/-- The `Cleanup` calls of `RemoveTransaction`. -/
def clean (db : Database V C) : Database V C where
  transactionManager :=
    { db.transactionManager with
      recentlyCommittedTransactions :=
        db.transactionManager.recentlyCommittedTransactions.dropWhile
          (isCleanable db.transactionManager.activeTransactions) }
  tables :=
    (db.transactionManager.recentlyCommittedTransactions.takeWhile
      (isCleanable db.transactionManager.activeTransactions)).foldl cleanupUndo db.tables

/-- A rollback, before anything is cleaned up. -/
def rollbackRows (t : Transaction C) (db : Database V C) : Database V C where
  transactionManager :=
    { db.transactionManager with
      activeTransactions := db.transactionManager.others t.transactionId }
  tables := t.rollbackUndo db.tables

/-- A commit, before anything is cleaned up. -/
def commitRows (t : Transaction C) (db : Database V C) : Database V C where
  transactionManager :=
    { db.transactionManager with
      currentStartTimestamp := db.transactionManager.currentStartTimestamp + 1
      activeTransactions := db.transactionManager.others t.transactionId
      recentlyCommittedTransactions :=
        db.transactionManager.recentlyCommittedTransactions ++
          [{ t with commitId := db.transactionManager.currentStartTimestamp }] }
  tables := t.commitUndo db.transactionManager.currentStartTimestamp db.tables

namespace Invariant

variable {db : Database V C} {t : Transaction C} {rest : List (Transaction C)}
  {f : Transaction C → Database V C × Option Exception} {id row table : ℕ}

/-- The oldest versions of a row are those of the oldest recently committed transaction. -/
theorem versions_of_oldest (h : db.Invariant)
    (hrecent : db.transactionManager.recentlyCommittedTransactions = t :: rest) {slot : RowSlot V}
    (hslot : db.row? table row = some slot) :
    ∃ newer oldest, slot.versionPointers = newer ++ oldest ∧
      newer.map key =
        (db.cleanOldest t rest).transactionManager.chain table row ∧
      oldest.map key = t.block table row t.commitId ∧
      ∀ v ∈ newer, v.pointer.owner ≠ t.transactionId := by
  have hkeys := h.chains table row
  rw [keys_eq hslot, chain, hrecent, reverse_cons, flatMap_append, ← append_assoc] at hkeys
  obtain ⟨newer, oldest, hvp, hnewer, holdest⟩ := map_eq_append_iff.1 hkeys
  refine ⟨newer, oldest, hvp, hnewer, by simpa using holdest, fun v hv hown => ?_⟩
  have htm : t ∈ db.transactionManager.recentlyCommittedTransactions := by simp [hrecent]
  have hmem : v.key ∈ newer.map key := mem_map_of_mem hv
  rw [hnewer, mem_append, mem_flatMap, mem_flatMap] at hmem
  rcases hmem with ⟨u, hu, huk⟩ | ⟨u, hu, huk⟩
  · exact h.active_ne_recent hu htm ((owner_of_mem_block huk).symm.trans hown)
  · have hur : u ∈ rest := mem_reverse.1 hu
    have hum : u ∈ db.transactionManager.recentlyCommittedTransactions := by simp [hrecent, hur]
    obtain rfl := h.recent_ext hum htm ((owner_of_mem_block huk).symm.trans hown)
    have hnd := (nodup_append.1 h.ids_nodup).2.1
    rw [hrecent, map_cons, nodup_cons] at hnd
    exact hnd.1 (mem_map_of_mem hur)

/-- **`Cleanup`** drops the records of the oldest recently committed transaction. -/
theorem cleanOldest (h : db.Invariant)
    (hrecent : db.transactionManager.recentlyCommittedTransactions = t :: rest) :
    (db.cleanOldest t rest).Invariant ∧ (db.cleanOldest t rest).store = db.store.cleanOldest := by
  have hrec : db.store.recent = t.finished :: rest.map finished := by
    simp [Database.store, hrecent]
  have hstore : (db.cleanOldest t rest).store = db.store.cleanOldest := by
    rw [Store.cleanOldest_of_recent hrec]
    simp only [Database.store, Database.cleanOldest, Store.mapRows, Store.mk.injEq, true_and]
    funext table
    refine store_rows_map (fun table row => t.row?_cleanupUndo db.tables table row)
      (fun table row slot hslot => ?_) table
    obtain ⟨newer, oldest, hvp, -, holdest, hne⟩ := h.versions_of_oldest hrecent hslot
    obtain ⟨hptr, hown⟩ := pointer_of_key holdest
    exact versioned_cleanups hvp hptr (t.nodup_pointersOn table row) hown hne
  refine ⟨⟨hstore ▸ h.store.cleanOldest hrec, fun table row => ?_, h.uncommitted⟩, hstore⟩
  have hrow : (db.cleanOldest t rest).row? table row = _ := t.row?_cleanupUndo db.tables table row
  cases hslot : db.row? table row with
  | none =>
    have hnil := h.chains table row
    rw [keys, hslot, chain, hrecent, reverse_cons, flatMap_append, ← append_assoc] at hnil
    have hnil' := (append_eq_nil_iff.1 hnil.symm).1
    rw [keys, hrow, show db.tables.row? table row = none from hslot]
    exact hnil'.symm
  | some slot =>
    obtain ⟨newer, oldest, hvp, hnewer, holdest, hne⟩ := h.versions_of_oldest hrecent hslot
    obtain ⟨hptr, hown⟩ := pointer_of_key holdest
    have hnot : ∀ v ∈ newer, v.pointer ∉ t.pointersOn table row := fun v hv hmem =>
      hne v hv (owner_of_mem_pointersOn hmem)
    rw [keys, hrow, show db.tables.row? table row = some slot from hslot,
      Option.map_some, foldl_cleanup hvp hptr (t.nodup_pointersOn table row) hnot]
    exact hnewer

theorem clean (h : db.Invariant) : db.clean.Invariant ∧ db.clean.store = db.store.clean := by
  have hlowest : Store.lowestStartTime db.store.active =
      lowestStartTime db.transactionManager.activeTransactions := by
    simp only [Store.lowestStartTime, Database.store, foldl_map]
    rfl
  have hclean : db.store.clean = (db.transactionManager.recentlyCommittedTransactions.takeWhile
        (isCleanable db.transactionManager.activeTransactions)).foldl
          (fun s _ => s.cleanOldest) db.store := by
    rw [Store.clean, hlowest]
    simp only [Database.store, takeWhile_map, foldl_map]
    rfl
  rw [hclean, Database.clean]
  -- induction on the recently committed transactions, with the bound kept fixed
  generalize hrecent : db.transactionManager.recentlyCommittedTransactions = recent
  generalize isCleanable db.transactionManager.activeTransactions = cleanable
  clear hlowest hclean
  induction recent generalizing db with
  | nil =>
    rw [takeWhile_nil, dropWhile_nil, foldl_nil, foldl_nil, ← hrecent]
    exact ⟨h, rfl⟩
  | cons t rest ih =>
    by_cases ht : cleanable t
    · obtain ⟨hinv, hstore⟩ := h.cleanOldest hrecent
      rw [takeWhile_cons_of_pos ht, dropWhile_cons_of_pos ht, foldl_cons, foldl_cons, ← hstore]
      exact ih hinv rfl
    · rw [takeWhile_cons_of_neg ht, dropWhile_cons_of_neg ht, foldl_nil, foldl_nil, ← hrecent]
      exact ⟨h, rfl⟩

theorem chain_eq_append (h : db.Invariant)
    (ht : t ∈ db.transactionManager.activeTransactions) (table row : ℕ) :
    db.transactionManager.chain table row =
        t.block table row t.transactionId ++ ((db.transactionManager.others t.transactionId).flatMap
              (fun u => u.block table row u.transactionId) ++
            db.transactionManager.recentlyCommittedTransactions.reverse.flatMap
              (fun u => u.block table row u.commitId)) ∧
      (t.pointersOn table row = [] ∨ (db.transactionManager.others t.transactionId).flatMap
          (fun u => u.block table row u.transactionId) = []) := by
  have hcases : t.pointersOn table row = [] ∨
      ∀ u ∈ db.transactionManager.activeTransactions, u ≠ t → u.pointersOn table row = [] := by
    by_cases hptr : t.pointersOn table row = []
    · exact .inl hptr
    · refine .inr fun u hu hne => ?_
      by_contra hup
      exact hne (h.exclusive hu ht hup hptr)
  constructor
  · rw [chain, ← append_assoc]
    congr 1
    refine flatMap_filter_append ht (fun u hu => ?_) h.active_nodup
      (hcases.imp block_eq_nil fun hall u hu hne =>
        block_eq_nil (hall u hu hne))
    simp only [ne_eq, decide_not, Bool.not_eq_false', decide_eq_true_eq]
    exact ⟨fun hid => h.active_ext hu ht hid, fun heq => heq ▸ rfl⟩
  · refine hcases.imp_right fun hall => flatMap_eq_nil_iff.2 fun u hu => ?_
    obtain ⟨hum, hne⟩ := mem_filter.1 hu
    exact block_eq_nil (hall u hum fun heq => by simp [heq] at hne)

/-- The other versions of a row belong to other transactions. -/
theorem owner_ne_of_mem_rest (h : db.Invariant) (ht : t ∈ db.transactionManager.activeTransactions)
    {k : VersionPointer × ℕ} (hk : k ∈ (db.transactionManager.others t.transactionId).flatMap
        (fun u => u.block table row u.transactionId) ++
      db.transactionManager.recentlyCommittedTransactions.reverse.flatMap
        (fun u => u.block table row u.commitId)) : k.1.owner ≠ t.transactionId := by
  rcases mem_append.1 hk with hk | hk
  · obtain ⟨u, hu, huk⟩ := mem_flatMap.1 hk
    rw [owner_of_mem_block huk]
    simpa using (mem_filter.1 hu).2
  · obtain ⟨u, hu, huk⟩ := mem_flatMap.1 hk
    rw [owner_of_mem_block huk]
    exact (h.active_ne_recent ht (mem_reverse.1 hu)).symm

theorem map_filter_running (id : ℕ) (ts : List (Transaction C)) :
    (ts.filter (·.transactionId ≠ id)).map running =
      (ts.map running).filter (·.transactionId ≠ id) := by
  rw [filter_map]
  rfl

section

variable (h : db.Invariant)

include h

section

variable (ht : t ∈ db.transactionManager.activeTransactions)

include ht

/-- **Rollback**, before anything is cleaned up. -/
theorem rollbackRows : (db.rollbackRows t).Invariant ∧
      (db.rollbackRows t).store = db.store.rollbackRows t.transactionId := by
  -- the versions of a row, split at the end of those of `t`
  have hsplit : ∀ table row slot, db.row? table row = some slot →
      ∃ newest older, slot.versionPointers = newest ++ older ∧
        newest.map key = t.block table row t.transactionId ∧
        older.map key = (db.rollbackRows t).transactionManager.chain table row ∧
        ∀ v ∈ older, v.pointer.owner ≠ t.transactionId := by
    intro table row slot hslot
    have hkeys := h.chains table row
    rw [keys_eq hslot, (h.chain_eq_append ht table row).1] at hkeys
    obtain ⟨newest, older, hvp, hnewest, holder⟩ := map_eq_append_iff.1 hkeys
    refine ⟨newest, older, hvp, hnewest, holder, fun v hv => ?_⟩
    exact h.owner_ne_of_mem_rest ht (holder ▸ mem_map_of_mem hv)
  have hstore : (db.rollbackRows t).store = db.store.rollbackRows t.transactionId := by
    simp only [Database.rollbackRows, Database.store, Store.rollbackRows, Store.mapRows, Store.retire,
      others, map_filter_running, Store.mk.injEq, true_and]
    funext table
    refine store_rows_map (fun table row => t.row?_rollbackUndo db.tables table row)
      (fun table row slot hslot => ?_) table
    obtain ⟨newest, older, hvp, hnewest, -, hne⟩ := hsplit table row slot hslot
    obtain ⟨hptr, hown⟩ := pointer_of_key hnewest
    exact versioned_rollbacks hvp hptr hown hne (h.sameNumbers hslot)
  refine ⟨⟨hstore ▸ h.store.rollbackRows, fun table row => ?_, fun u hu => ?_⟩, hstore⟩
  · have hrow : (db.rollbackRows t).row? table row = _ := t.row?_rollbackUndo db.tables table row
    cases hslot : db.row? table row with
    | none =>
      have hnil := h.chains table row
      rw [keys, hslot, (h.chain_eq_append ht table row).1] at hnil
      rw [keys, hrow, show db.tables.row? table row = none from hslot]
      exact (append_eq_nil_iff.1 hnil.symm).2.symm
    | some slot =>
      obtain ⟨newest, older, hvp, hnewest, holder, -⟩ := hsplit table row slot hslot
      rw [keys, hrow, show db.tables.row? table row = some slot from hslot,
        Option.map_some, foldl_rollback hvp (pointer_of_key hnewest).1]
      exact holder
  · exact h.uncommitted u (mem_filter.1 hu).1

/-- **Commit**, before anything is cleaned up. -/
theorem commitRows :
    (db.commitRows t).Invariant ∧ (db.commitRows t).store = db.store.commitRows t.transactionId
        db.transactionManager.currentStartTimestamp := by
  -- the versions of `t` are told from the others by their owner
  have howner : ∀ table row slot, db.row? table row = some slot → ∀ v ∈ slot.versionPointers,
      (v.pointer ∈ t.pointersOn table row ↔ v.pointer.owner = t.transactionId) := by
    intro table row slot hslot v hv
    refine ⟨owner_of_mem_pointersOn, fun hown => ?_⟩
    exact (mem_block.1 ((h.mem_block_of_owner (h.key_mem_chain hslot hv)).1 t ht hown)).1
  have hstore : (db.commitRows t).store = db.store.commitRows t.transactionId
      db.transactionManager.currentStartTimestamp := by
    simp only [Database.commitRows, Database.store, Store.commitRows, Store.mapRows, Store.retire,
      others, map_filter_running, Store.mk.injEq, true_and, map_append]
    refine ⟨rfl, funext fun table => ?_⟩
    exact store_rows_map (fun table row => t.row?_commitUndo _ db.tables table row)
      (fun table row slot hslot =>
        versioned_setVersionNumbers _ (howner table row slot hslot)) table
  refine ⟨⟨hstore ▸ h.store.commitRows ⟨_, mem_running ht, rfl⟩, fun table row => ?_,
    fun u hu => h.uncommitted u (mem_filter.1 hu).1⟩, hstore⟩
  have hrow : (db.commitRows t).row? table row = _ := t.row?_commitUndo _ db.tables table row
  obtain ⟨hchain, hcases⟩ := h.chain_eq_append ht table row
  -- the new chain: the versions of `t`, under the commit id, before those committed earlier
  have hnew : (db.commitRows t).transactionManager.chain table row =
      t.block table row db.transactionManager.currentStartTimestamp ++
        ((db.transactionManager.others t.transactionId).flatMap
            (fun u => u.block table row u.transactionId) ++
          db.transactionManager.recentlyCommittedTransactions.reverse.flatMap
            (fun u => u.block table row u.commitId)) := by
    have hblock : ∀ c n : ℕ, ({ t with commitId := c } : Transaction C).block table row n =
        t.block table row n := fun _ _ => rfl
    simp only [Database.commitRows, chain, reverse_append, reverse_singleton,
      singleton_append, flatMap_cons, hblock]
    rcases hcases with hnil | hnil
    · simp [block_eq_nil hnil]
    · simp [hnil]
  -- renumbering the old chain gives the new one
  have hmap : (db.transactionManager.chain table row).map (fun k =>
      if k.1 ∈ t.pointersOn table row then (k.1, db.transactionManager.currentStartTimestamp)
      else k) =
      (db.commitRows t).transactionManager.chain table row := by
    rw [hchain, hnew, map_append]
    congr 1
    · rw [block, block, map_map]
      refine map_congr_left fun p hp => ?_
      exact if_pos (mem_reverse.1 hp)
    · refine (map_congr_left fun k hk => ?_).trans (map_id _)
      exact if_neg fun hmem => h.owner_ne_of_mem_rest ht hk (owner_of_mem_pointersOn hmem)
  rw [← hmap, ← h.chains]
  cases hslot : db.row? table row with
  | none =>
    rw [keys, hrow, show db.tables.row? table row = none from hslot, keys, hslot]
    rfl
  | some slot =>
    rw [keys, hrow, show db.tables.row? table row = some slot from hslot,
      Option.map_some, foldl_setVersionNumber, keys_eq hslot]
    simp only [Option.elim_some, map_map]
    refine map_congr_left fun v _ => ?_
    by_cases hv : v.pointer ∈ t.pointersOn table row <;> simp [key, hv]

theorem clock_pos : db.transactionManager.currentStartTimestamp ≠ 0 :=
  Nat.ne_of_gt (Nat.lt_of_le_of_lt (Nat.zero_le _) (h.store.active_start _ (mem_running ht)).1)

theorem refines_commit :
    Refines db (db.commitTransaction t)
      [.commit t.transactionId t.startTime db.transactionManager.currentStartTimestamp] := by
  obtain ⟨hinv, hstore⟩ := h.commitRows ht
  obtain ⟨hinv', hstore'⟩ := hinv.clean
  have hpos := h.clock_pos ht
  -- the old transactions are not part of the store
  have hsame : Refines (db.commitRows t).clean (db.commitTransaction t) [] := by
    refine of_eq hinv' rfl rfl rfl ?_ fun table => ?_
    · simp only [commitTransaction, removeTransaction, TransactionManager.removeTransaction,
        recentlyCommitted, ne_eq, hpos, not_false_eq_true, if_true]
      rfl
    · simp only [commitTransaction, removeTransaction, TransactionManager.cleanable,
        recentlyCommitted, ne_eq, hpos, not_false_eq_true, if_true]
      rfl
  have hall : (db.commitTransaction t).store = db.store.apply
      (.commit t.transactionId t.startTime db.transactionManager.currentStartTimestamp) := by
    rw [hsame.store, foldl_nil, hstore', hstore]
    rfl
  exact ⟨hsame.invariant, hall, ⟨⟨mem_running ht, rfl⟩, trivial⟩⟩

theorem refines_rollback : Refines db (db.rollbackTransaction t) [.rollback t.transactionId] := by
  obtain ⟨hinv, hstore⟩ := h.rollbackRows ht
  obtain ⟨hinv', hstore'⟩ := hinv.clean
  have hzero : t.clearUndo.commitId = 0 := h.uncommitted t ht
  have hsame : Refines (db.rollbackRows t).clean (db.rollbackTransaction t) [] := by
    refine of_eq hinv' rfl rfl rfl ?_ fun table => ?_
    · simp only [rollbackTransaction, removeTransaction, TransactionManager.removeTransaction,
        recentlyCommitted, ne_eq, hzero, not_true_eq_false, if_false]
      rfl
    · simp only [rollbackTransaction, removeTransaction, TransactionManager.cleanable,
        recentlyCommitted, ne_eq, hzero, not_true_eq_false, if_false]
      rfl
  have hall : (db.rollbackTransaction t).store = db.store.apply (.rollback t.transactionId) := by
    rw [hsame.store, foldl_nil, hstore', hstore]
    rfl
  exact ⟨hsame.invariant, hall, ⟨⟨_, mem_running ht, rfl⟩, trivial⟩⟩

end

theorem refines_start (hlt : ¬transactionIdStart ≤ db.transactionManager.currentStartTimestamp) :
    Refines db { db with transactionManager := db.transactionManager.startTransaction.1 }
      [.start] := by
  refine of_event h (not_le.1 hlt) ?_ (fun table row => ?_) fun u hu => ?_
  · simp [Database.store, startTransaction, hlt, Store.apply, Store.start, running]
  · refine (h.chains table row).trans ?_
    simp [chain, startTransaction, hlt, block, pointersOn, indicesOn]
  · simp only [startTransaction, if_neg hlt, mem_append, mem_singleton] at hu
    rcases hu with hu | rfl
    · exact h.uncommitted u hu
    · rfl

end

/-- A rule for operations of an active transaction: nothing happens if there is none. -/
theorem withActive_events_rule (P : Database V C → List (Event V) → Prop)
    {g : Transaction C → List (Event V)} (hnone : P db [])
    (hsome : ∀ t, db.transactionManager.active? id = some t → P (f t).1 (g t)) :
    P (db.withActive id f).1 ((db.transactionManager.active? id).elim [] g) := by
  unfold withActive
  cases hactive : db.transactionManager.active? id with
  | none => exact hnone
  | some t => exact hsome t hactive

theorem withActive_rule (P : Database V C → Prop) (hnone : P db)
    (hsome : ∀ t, db.transactionManager.active? id = some t → P (f t).1) :
    P (db.withActive id f).1 :=
  withActive_events_rule (fun db _ => P db) (g := fun _ => ([] : List (Event V))) hnone hsome

/-- **Refinement**: an operation keeps the invariant and does to the store what its events do. -/
theorem step (checks : ℕ → TableChecks V C) (h : db.Invariant) (op : Op V C) :
    Refines db (db.step checks op).1 (db.events checks op) := by
  cases op with
  | startTransaction =>
    simp only [Database.step, events]
    split_ifs with hlt
    · have hsame : db.transactionManager.startTransaction.1 = db.transactionManager := by
        simp [startTransaction, hlt]
      rw [hsame]
      exact refl h
    · exact h.refines_start hlt
  | beginQuery id =>
    refine withActive_rule (Refines db · []) (refl h) fun t hactive => ?_
    have hidle := h.refines_idle hactive
      { t with activeQuery := db.transactionManager.currentQueryNumber }
      (h.active?_eq_some_iff.1 hactive).2 rfl rfl fun _ _ => rfl
    exact hidle.trans (of_eq hidle.invariant rfl rfl rfl rfl fun _ => rfl)
  | endQuery id =>
    exact withActive_rule (Refines db · []) (refl h) fun t hactive =>
      h.refines_idle hactive { t with activeQuery := maximumQueryId }
        (h.active?_eq_some_iff.1 hactive).2 rfl rfl fun _ _ => rfl
  | pushQuery id query | pushCatalogEntry id entry =>
    exact withActive_rule (Refines db · []) (refl h) fun t hactive =>
      h.refines_idle hactive _ (h.active?_eq_some_iff.1 hactive).2 rfl rfl
        (t.pointersOn_createEntry_other fun _ _ => rfl)
  | append id table chunk =>
    exact withActive_events_rule (Refines db) (refl h) fun t =>
      h.refines_append (checks table) table id chunk
  | update id table updates =>
    exact withActive_events_rule (Refines db) (refl h) fun t =>
      h.refines_update (checks table) table id updates
  | delete id table rowIdentifiers =>
    exact withActive_events_rule (Refines db) (refl h) fun t =>
      h.refines_delete table id rowIdentifiers
  | commit id =>
    refine withActive_events_rule (Refines db) (refl h) fun t hactive => ?_
    obtain ⟨ht, rfl⟩ := h.active?_eq_some_iff.1 hactive
    exact h.refines_commit ht
  | rollback id =>
    refine withActive_events_rule (Refines db) (refl h) fun t hactive => ?_
    obtain ⟨ht, rfl⟩ := h.active?_eq_some_iff.1 hactive
    exact h.refines_rollback ht

theorem invariant_initial (columnCount : ℕ → ℕ) :
    (initial columnCount : Database V C).Invariant where
  store := Store.invariant_initial
  chains _ _ := rfl
  uncommitted := by simp [initial]

/-- **Every reachable database satisfies the invariant.** -/
theorem run (checks : ℕ → TableChecks V C) (h : db.Invariant) (ops : List (Op V C)) :
    Refines db (db.run checks ops) (db.trace checks ops) := by
  induction ops generalizing db with
  | nil => exact refl h
  | cons op ops ih =>
    have hstep := h.step checks op
    exact hstep.trans (ih hstep.invariant)

end Invariant

end Database

end DuckDB
