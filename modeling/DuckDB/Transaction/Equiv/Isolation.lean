import DuckDB.Storage.Equiv.Scan
import DuckDB.Transaction.Equiv.History
import DuckDB.Transaction.Equiv.Step

/-!
# Isolation

What the transactions of a run see of each other, for runs of whole operations from an empty
database.

* `scan_fetch_eq_snapshot`: if transactions change only rows that they see and whose newest version
  was not committed after they started, and commit ids stay below the transaction ids, then `Scan`
  and `Fetch` return the snapshot of the transaction that calls them.
* `commit_id_reaches_transaction_id`: a commit id can reach the id of a running transaction, which
  then sees what it should not see.
-/

namespace DuckDB

open Theory List TransactionManager History DataTable

variable {V C σ : Type*}

/-- The operation is a commit. -/
def Op.isCommit : Op V C → Bool
  | .commit _ => true
  | _ => false

/-- The operation changes existing rows. -/
def Op.changesRows : Op V C → Bool
  | .update .. => true
  | .delete .. => true
  | _ => false

/-! ### Disciplines of writers -/

namespace Database

variable {h : History V} {c : Change V}

/-- The newest version of the row belongs to a transaction that committed after `transaction`
started. -/
def newestCommittedAfter (db : Database V C) (transaction : Transaction C) (slot : RowSlot V) :
    Bool :=
  slot.head?.any fun version =>
    (db.transactionManager.active? version.pointer.owner).isNone &&
      decide (transaction.startTime ≤ version.versionNumber)

/-- The rows that an `Update` or `Delete` changes, as they are before the operation, with the
transaction that changes them. -/
def changedRows (checks : ℕ → TableChecks V C) (db : Database V C) (op : Op V C) :
    List (Transaction C × RowSlot V) :=
  (db.events checks op).filterMap fun
    | .write id change =>
      if change.write.isInsert then none
      else (db.transactionManager.active? id).bind fun transaction =>
        (db.row? change.table change.row).map fun slot => (transaction, slot)
    | _ => none

/-- A transaction changes only rows that it sees, and no row whose newest version was committed
after it started. -/
def ChangesVisible (checks : ℕ → TableChecks V C) (db : Database V C) (op : Op V C) : Prop :=
  ∀ e ∈ db.changedRows checks op, (readRow e.1 e.2).isSome ∧ db.newestCommittedAfter e.1 e.2 = false

/-- A transaction changes no row whose newest version was committed after it started. -/
def ChangesNewest (checks : ℕ → TableChecks V C) (db : Database V C) (op : Op V C) : Prop :=
  ∀ e ∈ db.changedRows checks op, db.newestCommittedAfter e.1 e.2 = false

/-- A commit takes its id while there are ids below those of the transactions. -/
def CommitsBelow (db : Database V C) (op : Op V C) : Prop :=
  op.isCommit → db.transactionManager.currentStartTimestamp < transactionIdStart

instance (checks : ℕ → TableChecks V C) (db : Database V C) (op : Op V C) :
    Decidable (ChangesVisible checks db op) :=
  inferInstanceAs (Decidable (∀ e ∈ _, _ ∧ _))

instance (checks : ℕ → TableChecks V C) (db : Database V C) (op : Op V C) :
    Decidable (ChangesNewest checks db op) :=
  inferInstanceAs (Decidable (∀ e ∈ _, _))

instance (db : Database V C) (op : Op V C) : Decidable (CommitsBelow db op) :=
  inferInstanceAs (Decidable (_ → _))

/-! ### The changes of an operation -/

variable {t : DataTable V} {ops : List (Op V C)} {view : RowView V σ}

theorem mem_pushedRows {transaction : Transaction C} {rowIdentifiers : List ℕ} {row : ℕ}
    (h : row ∈ pushedRows transaction t rowIdentifiers) :
    ∃ slot, t.row? row = some slot ∧ conflicts transaction slot = false := by
  unfold pushedRows at h
  split at h
  · simp at h
  · split at h
    · simp at h
    · exact (pushable_iff.1 (mem_takeWhile_imp h)).2

theorem mem_updateChanges {checks : TableChecks V C} {table : ℕ} {updates : UpdateChunk V}
    {transaction : Transaction C} (h : c ∈ updateChanges checks table updates transaction t) :
    c.table = table ∧ c.row ∈ pushedRows transaction t updates.rowIdentifiers := by
  unfold updateChanges at h
  split_ifs at h with hchecks hall
  · simp at h
  · rcases mem_append.1 h with h | h
    · obtain ⟨row, hrow, rfl⟩ := mem_map.1 h
      exact ⟨rfl, hrow⟩
    · obtain ⟨cell, hcell, rfl⟩ := mem_map.1 h
      exact ⟨rfl, hall.symm ▸ updates.row_mem_of_mem_cells hcell⟩
  · rw [append_nil] at h
    obtain ⟨row, hrow, rfl⟩ := mem_map.1 h
    exact ⟨rfl, hrow⟩

/-- An operation changes rows on behalf of one transaction, or it is a start, a commit or a
rollback. -/
theorem events_cases (checks : ℕ → TableChecks V C) (db : Database V C) (op : Op V C) :
    (∃ e, db.events checks op = [e] ∧ ∀ owner c, e ≠ .write owner c) ∨
      ∃ id, ∃ changes : List (Change V), db.events checks op = changes.map (.write id) := by
  have hwrites : ∀ (id : ℕ) (f : Transaction C → List (Change V)),
      ∃ id', ∃ changes : List (Change V), ((db.transactionManager.active? id).elim [] fun t =>
        (f t).map (Event.write id)) = changes.map (.write id') := by
    intro id f
    cases db.transactionManager.active? id with
    | none => exact ⟨id, [], rfl⟩
    | some t => exact ⟨id, f t, rfl⟩
  have hends : ∀ (id : ℕ) (f : Transaction C → Event V), (∀ t owner c, f t ≠ .write owner c) →
      (∃ e, ((db.transactionManager.active? id).elim [] fun t => [f t]) = [e] ∧
        ∀ owner c, e ≠ .write owner c) ∨
      ∃ id', ∃ changes : List (Change V), ((db.transactionManager.active? id).elim [] fun t =>
        [f t]) = changes.map (.write id') := by
    intro id f hf
    cases db.transactionManager.active? id with
    | none => exact .inr ⟨id, [], rfl⟩
    | some t => exact .inl ⟨f t, rfl, hf t⟩
  cases op with
  | startTransaction =>
    simp only [events]
    split_ifs
    · exact .inr ⟨0, [], rfl⟩
    · exact .inl ⟨_, rfl, by simp⟩
  | append id table chunk | update id table updates | delete id table rowIdentifiers =>
    exact .inr (hwrites id _)
  | commit id => exact hends id _ (by simp)
  | rollback id => exact hends id (fun _ => .rollback id) (by simp)
  | _ => exact .inr ⟨0, [], rfl⟩

theorem mem_elim_map {o : Option (Transaction C)} {f : Transaction C → List (Change V)}
    {id id' : ℕ} (h : Event.write id c ∈ o.elim [] fun t => (f t).map (.write id')) :
    id = id' ∧ ∃ t, o = some t ∧ c ∈ f t := by
  cases o with
  | none => simp at h
  | some t =>
    obtain ⟨c', hc', heq⟩ := mem_map.1 h
    obtain ⟨rfl, rfl⟩ := Event.write.inj heq
    exact ⟨rfl, t, rfl, hc'⟩

/-- The rows that an operation changes exist and have no conflict. -/
theorem slot_of_mem_events {checks : ℕ → TableChecks V C} {db : Database V C} {op : Op V C}
    {id : ℕ} (h : Event.write id c ∈ db.events checks op) (hw : c.write.isInsert = false) :
    ∃ transaction slot, db.transactionManager.active? id = some transaction ∧
      db.row? c.table c.row = some slot ∧ conflicts transaction slot = false := by
  cases op with
  | append id' table chunk =>
    obtain ⟨-, t, -, hc⟩ := mem_elim_map h
    obtain ⟨e, -, rfl⟩ := mem_map.1 hc
    simp [RowWrite.isInsert] at hw
  | update id' table updates =>
    obtain ⟨rfl, t, ht, hc⟩ := mem_elim_map h
    obtain ⟨rfl, hrow⟩ := mem_updateChanges hc
    obtain ⟨slot, hslot, hconf⟩ := mem_pushedRows hrow
    exact ⟨t, slot, ht, hslot, hconf⟩
  | delete id' table rowIdentifiers =>
    obtain ⟨rfl, t, ht, hc⟩ := mem_elim_map h
    obtain ⟨row, hrow, rfl⟩ := mem_map.1 hc
    obtain ⟨slot, hslot, hconf⟩ := mem_pushedRows hrow
    exact ⟨t, slot, ht, hslot, hconf⟩
  | startTransaction =>
    simp only [events] at h
    split_ifs at h <;> simp at h
  | commit id' | rollback id' =>
    simp only [events] at h
    cases hactive : db.transactionManager.active? id' <;> simp [hactive] at h
  | _ => simp [events] at h

/-! ### From operations to events -/

variable {db : Database V C} {checks : ℕ → TableChecks V C} {op : Op V C} {id table row : ℕ}
  {transaction : Transaction C} {slot : RowSlot V}

theorem meets_firstWrite {P : Transaction C → RowSlot V → Prop}
    {Q : Store V → ℕ → VersionedRow V → Prop}
    (hop : ∀ e ∈ db.changedRows checks op, P e.1 e.2)
    (hQ : ∀ s owner versioned c, Q s owner versioned → Q (s.writeRow owner c) owner versioned)
    (hPQ : ∀ id table row transaction slot, db.transactionManager.active? id = some transaction →
      db.row? table row = some slot → conflicts transaction slot = false →
        slot.versioned.ownedBy id = false → P transaction slot → Q db.store id slot.versioned) :
    Meets Store.apply (FirstWrite Q) db.store (db.events checks op) := by
  rcases events_cases checks db op with ⟨e, he, hne⟩ | ⟨id, changes, hchanges⟩
  · rw [he]
    refine ⟨?_, trivial⟩
    cases e with
    | write owner c => exact absurd rfl (hne owner c)
    | _ => trivial
  · rw [hchanges]
    refine FirstWrite.meets (fun s => hQ s id) fun c hc hw versioned hrow => ?_
    have hmem : Event.write id c ∈ db.events checks op := hchanges ▸ mem_map_of_mem hc
    obtain ⟨transaction, slot, ht, hslot, hconf⟩ := slot_of_mem_events hmem hw
    obtain rfl : slot.versioned = versioned := by
      rw [Invariant.row?_eq] at hslot
      simpa [Database.store, hslot] using hrow
    cases howned : slot.versioned.ownedBy id with
    | true => exact .inl rfl
    | false =>
      refine .inr (hPQ id _ _ transaction slot ht hslot hconf howned (hop (transaction, slot) ?_))
      exact mem_filterMap.2 ⟨_, hmem, by simp [hw, ht, hslot]⟩

namespace Invariant

/-- The newest change of a row was committed before the transaction that may change it started. -/
theorem number_lt (h : db.Invariant) (ht : db.transactionManager.active? id = some transaction)
    (hslot : db.row? table row = some slot) (hconf : conflicts transaction slot = false)
    (howned : slot.versioned.ownedBy id = false)
    (hnewest : db.newestCommittedAfter transaction slot = false) :
    ∀ r ∈ slot.versioned.records.head?, r.number < transaction.startTime := by
  intro r hr
  obtain ⟨htm, rfl⟩ := h.active?_eq_some_iff.1 ht
  rw [conflicts_eq transaction (h.sameNumbers hslot)] at hconf
  have hcommitted := (h.rowInvariant hslot).committed_of_not_conflicts h.store.active_ge hconf
    howned r (mem_of_head? hr)
  have hr' : (records slot.columns slot.versionPointers).head? = some r := hr
  have hsame := h.sameNumbers hslot
  obtain ⟨v, hv, hnumber⟩ : ∃ v ∈ slot.head?, r.owner = v.pointer.owner ∧
      r.number = v.versionNumber := by
    rw [RowSlot.head?]
    cases hvp : slot.versionPointers with
    | nil => simp [hvp, records] at hr'
    | cons v older =>
      rw [hvp] at hsame hr'
      obtain ⟨r', rest, hrec, hv⟩ := exists_records_cons slot.columns hsame
      obtain rfl : r' = r := by simpa [hrec] using hr'
      exact ⟨v, rfl, hv⟩
  have hinactive : db.transactionManager.active? v.pointer.owner = none := by
    cases hactive : db.transactionManager.active? v.pointer.owner with
    | none => rfl
    | some u =>
      obtain ⟨hu, huid⟩ := h.active?_eq_some_iff.1 hactive
      exact absurd (hnumber.1.trans huid.symm)
        (h.store.recent_ne ⟨_, mem_running hu, rfl⟩ _ hcommitted)
  rw [newestCommittedAfter, Option.mem_def.1 hv] at hnewest
  simpa [hinactive, ← hnumber.2] using hnewest

theorem meets_seesNewest (h : db.Invariant) (hop : ChangesNewest checks db op) :
    Meets Store.apply SeesNewest db.store (db.events checks op) := by
  refine meets_firstWrite (P := fun t slot => db.newestCommittedAfter t slot = false) hop
    (fun s owner versioned c hQ => hQ) ?_
  intro id table row transaction slot ht hslot hconf howned hnewest r hr a ha hid
  obtain ⟨u, hu, rfl⟩ := mem_map.1 ha
  obtain ⟨htm, htid⟩ := h.active?_eq_some_iff.1 ht
  obtain rfl := h.active_ext hu htm (hid.trans htid.symm)
  exact h.number_lt ht hslot hconf howned hnewest r hr

theorem meets_savedRight_blind (checks : ℕ → TableChecks V C) (db : Database V C) (op : Op V C) :
    Meets Store.apply (SavedRight RowView.blind) db.store (db.events checks op) :=
  meets_firstWrite (P := fun _ _ => True) (fun _ _ => trivial) (fun _ _ _ _ hQ => hQ)
    fun _ _ _ _ _ _ _ _ _ _ => rfl

theorem readRow_eq (h : db.Invariant) (hslot : db.row? table row = some slot)
    (transaction : Transaction C) :
    readRow transaction slot = slot.versioned.read transaction.running.sees := by
  unfold readRow
  rw [chooseVersion_eq transaction (h.sameNumbers hslot)]
  exact slot.versioned.read_of_choose transaction.sees

/-- A row that a transaction sees and may change is not deleted. -/
theorem not_deleted (h : db.Invariant) (ht : db.transactionManager.active? id = some transaction)
    (hslot : db.row? table row = some slot) (hconf : conflicts transaction slot = false)
    (howned : slot.versioned.ownedBy id = false)
    (hnewest : db.newestCommittedAfter transaction slot = false)
    (hvisible : (readRow transaction slot).isSome) : slot.deleted = false := by
  have hlt := h.number_lt ht hslot hconf howned hnewest
  have hread : slot.versioned.read transaction.running.sees = slot.versioned.current := by
    unfold VersionedRow.read
    cases hrec : slot.versioned.records with
    | nil => rfl
    | cons r older =>
      rw [map_cons]
      refine if_pos ?_
      simp [Running.sees, Transaction.running, hlt r (by simp [hrec])]
  rw [h.readRow_eq hslot, hread] at hvisible
  cases hdel : slot.deleted with
  | false => rfl
  | true => simp [VersionedRow.current, RowState.tuple?, RowSlot.versioned, hdel] at hvisible

theorem meets_savedRight_full (h : db.Invariant) (hop : ChangesVisible checks db op) :
    Meets Store.apply (SavedRight RowView.full) db.store (db.events checks op) := by
  refine meets_firstWrite (P := fun t slot => (readRow t slot).isSome ∧
    db.newestCommittedAfter t slot = false) hop (fun s owner versioned c hQ => hQ) ?_
  rintro id table row transaction slot ht hslot hconf howned ⟨hvisible, hnewest⟩
  have hdel := h.not_deleted ht hslot hconf howned hnewest hvisible
  simp [RowView.full, VersionedRow.current, RowState.tuple?, RowSlot.versioned, hdel]

end Invariant

/-! ### Runs -/

/-- Every operation of a run meets a condition in the state before it. -/
def EachStep (checks : ℕ → TableChecks V C) (ok : Database V C → Op V C → Prop)
    (db : Database V C) (ops : List (Op V C)) : Prop :=
  Meets (fun db op => (db.step checks op).1) ok db ops

instance (checks : ℕ → TableChecks V C) (ok : Database V C → Op V C → Prop)
    [∀ db op, Decidable (ok db op)] (db : Database V C) (ops : List (Op V C)) :
    Decidable (EachStep checks ok db ops) :=
  inferInstanceAs (Decidable (Meets _ _ _ _))

theorem run_append (checks : ℕ → TableChecks V C) (db : Database V C) (ops ops' : List (Op V C)) :
    db.run checks (ops ++ ops') = (db.run checks ops).run checks ops' :=
  foldl_append

theorem trace_append (checks : ℕ → TableChecks V C) (db : Database V C) (ops ops' : List (Op V C)) :
    db.trace checks (ops ++ ops') = db.trace checks ops ++ (db.run checks ops).trace checks ops' :=
  Theory.trace_append _ _ db ops ops'

/-- A database and the history that led to it. -/
structure Follows (view : RowView V σ) (db : Database V C) (h : History V) : Prop where
  invariant : db.Invariant
  history : h.Invariant view db.store
  isolated : h.Isolated db.store

theorem Follows.step (hdb : Follows view db h)
    (hsaved : Meets Store.apply (SavedRight view) db.store (db.events checks op))
    (hnewest : ChangesNewest checks db op) :
    Follows view (db.step checks op).1 ((db.events checks op).foldl record h) := by
  obtain ⟨hinv, hstore, hok⟩ := hdb.invariant.step checks op
  refine ⟨hinv, ?_, ?_⟩
  · rw [hstore]
    exact hdb.history.foldl hok hsaved
  · rw [hstore]
    exact hdb.isolated.foldl hdb.history hok hsaved (hdb.invariant.meets_seesNewest hnewest)

theorem follows_initial (view : RowView V σ) (columnCount : ℕ → ℕ) :
    Follows view (initial columnCount : Database V C) {} :=
  ⟨Invariant.invariant_initial columnCount, invariant_initial view, isolated_initial⟩

theorem Follows.run {ok : Database V C → Op V C → Prop} (hok : ∀ db op, db.Invariant → ok db op →
      Meets Store.apply (SavedRight view) db.store (db.events checks op) ∧
        ChangesNewest checks db op) (hdb : Follows view db h) (hops : EachStep checks ok db ops) :
    Follows view (db.run checks ops) ((db.trace checks ops).foldl record h) := by
  induction ops generalizing db h with
  | nil => exact hdb
  | cons op ops ih =>
    obtain ⟨hsaved, hnewest⟩ := hok db op hdb.invariant hops.1
    have hrun := ih (hdb.step hsaved hnewest) hops.2
    rw [trace, Theory.trace, foldl_append]
    exact hrun

theorem mem_committed_foldl {events : List (Event V)} {t : CommittedTransaction V}
    (ht : t ∈ (events.foldl record h).committed) :
    t ∈ h.committed ∨ .commit t.transactionId t.startTime t.commitId ∈ events := by
  induction events generalizing h with
  | nil => exact .inl ht
  | cons e events ih =>
    rcases ih ht with ht | ht
    · cases e with
      | commit owner startTime commitId =>
        rcases mem_append.1 ht with ht | ht
        · exact .inl ht
        · obtain rfl := mem_singleton.1 ht
          exact .inr mem_cons_self
      | _ => exact .inl ht
    · exact .inr (mem_cons_of_mem _ ht)

theorem commit_mem_events {owner startTime commitId : ℕ}
    (h : .commit owner startTime commitId ∈ db.events checks op) :
    op.isCommit ∧ commitId = db.transactionManager.currentStartTimestamp := by
  cases op with
  | commit id =>
    simp only [events] at h
    cases hactive : db.transactionManager.active? id with
    | none => simp [hactive] at h
    | some t =>
      simp only [hactive, Option.elim_some, mem_singleton, Event.commit.injEq] at h
      exact ⟨rfl, h.2.2⟩
  | startTransaction =>
    simp only [events] at h
    split_ifs at h <;> simp at h
  | append id table chunk | update id table updates | delete id table rowIdentifiers
  | rollback id =>
    simp only [events] at h
    cases hactive : db.transactionManager.active? id <;> simp [hactive] at h
  | _ => simp [events] at h

/-- Commit ids stay below the transaction ids. -/
theorem commitId_lt_of_commitsBelow (hh : ∀ t ∈ h.committed, t.commitId < transactionIdStart)
    (hops : EachStep checks CommitsBelow db ops) :
    ∀ t ∈ ((db.trace checks ops).foldl record h).committed, t.commitId < transactionIdStart := by
  induction ops generalizing db h with
  | nil => exact hh
  | cons op ops ih =>
    rw [trace, Theory.trace, foldl_append]
    refine ih (fun t ht => ?_) hops.2
    rcases mem_committed_foldl ht with ht | ht
    · exact hh t ht
    · obtain ⟨hop, hid⟩ := commit_mem_events ht
      exact hid ▸ hops.1 hop

/-- **Every transaction reads its snapshot**, row by row. -/
theorem Follows.readRow_eq (hdb : Follows RowView.full db h)
    (hcommit : ∀ t ∈ h.committed, t.commitId < transactionIdStart)
    (ht : transaction ∈ db.transactionManager.activeTransactions)
    (hslot : db.row? table row = some slot) : readRow transaction slot =
      h.snapshot transaction.transactionId transaction.startTime table row := by
  rw [hdb.invariant.readRow_eq hslot]
  refine hdb.history.read_eq hdb.isolated hcommit (Invariant.mem_running ht) ?_
  rw [Invariant.row?_eq] at hslot
  simp [Database.store, hslot]

end Database

/-! ### Scans between other operations -/

/-- All tables grow. -/
def Tables.Grows (tables tables' : Tables V) : Prop :=
  ∀ table, DataTable.Grows (tables table) (tables' table)

/-- A preorder on tables that contains all changes that operations make. -/
structure TablePreorder (C : Type*) (R : DataTable V → DataTable V → Prop) : Prop extends
    DataTable.RowPreorder R where
  countCommit : ∀ flag t, R t (t.countCommit flag)
  append : ∀ (checks : TableChecks V C) table chunk transaction t,
    R t (t.append checks table chunk transaction).2.1

theorem tablePreorder_grows : TablePreorder C (DataTable.Grows (V := V)) where
  toRowPreorder := rowPreorder_grows
  countCommit flag t := by cases flag <;> exact ⟨rfl, (DataTable.Grows.refl _).chunks⟩
  append := grows_append

namespace TablePreorder

variable {R : DataTable V → DataTable V → Prop}

section

variable (hR : TablePreorder C R)

include hR

theorem function_update {tables : Tables V} {table : ℕ} {t : DataTable V} (h : R (tables table) t)
    (table' : ℕ) : R (tables table') (Function.update tables table t table') := by
  by_cases heq : table' = table
  · subst heq
    rwa [Function.update_self]
  · rw [Function.update_of_ne heq]
    exact hR.refl _

theorem foldl {α : Type*} {f : Tables V → α → Tables V}
    (hf : ∀ tables a table, R (tables table) (f tables a table)) (as : List α) (tables : Tables V)
    (table : ℕ) : R (tables table) (as.foldl f tables table) := by
  induction as generalizing tables with
  | nil => exact hR.refl _
  | cons a as ih => exact hR.trans (hf tables a table) (ih _)

theorem commitUndo (commitId : ℕ) (transaction : Transaction C) (tables : Tables V) (table : ℕ) :
    R (tables table) (transaction.commitUndo commitId tables table) := by
  refine hR.foldl ?_ _ _ _
  rintro tables ⟨entry, index⟩ table
  cases entry with
  | tuple flag table' row =>
    exact hR.trans (hR.function_update (hR.modifyRow _ _ _) _)
      (hR.function_update (hR.countCommit _ _) _)
  | _ => exact hR.refl _

theorem rollbackUndo (transaction : Transaction C) (tables : Tables V) (table : ℕ) :
    R (tables table) (transaction.rollbackUndo tables table) := by
  refine hR.foldl ?_ _ _ _
  rintro tables ⟨entry, index⟩ table
  cases entry with
  | tuple flag table' row =>
    exact hR.function_update (hR.modifyRow _ _ _) _
  | _ => exact hR.refl _

theorem cleanupUndo (tables : Tables V) (transaction : Transaction C) (table : ℕ) :
    R (tables table) (transaction.cleanupUndo tables table) := by
  refine hR.foldl ?_ _ _ _
  rintro tables ⟨entry, index⟩ table
  cases entry with
  | tuple flag table' row =>
    exact hR.function_update (hR.modifyRow _ _ _) _
  | _ => exact hR.refl _

/-- **A step** relates every table to what becomes of it. -/
theorem step (checks : ℕ → TableChecks V C) (db : Database V C) (op : Op V C) (table : ℕ) :
    R (db.tables table) ((db.step checks op).1.tables table) := by
  have hactive : ∀ (id : ℕ) (f : Transaction C → Database V C × Option Exception),
      (∀ t, R (db.tables table) ((f t).1.tables table)) →
        R (db.tables table) ((db.withActive id f).1.tables table) := by
    intro id f hf
    unfold Database.withActive
    split
    · exact hR.refl _
    · exact hf _
  have hremove : ∀ (t : Transaction C) (db' : Database V C),
      R (db.tables table) (db'.tables table) →
        R (db.tables table) ((db'.removeTransaction t).tables table) := fun t db' h =>
    hR.trans h (hR.foldl hR.cleanupUndo _ _ _)
  cases op with
  | startTransaction => exact hR.refl _
  | append id table' chunk =>
    exact hactive id _ fun t => hR.function_update (hR.append _ _ _ _ _) _
  | update id table' updates =>
    exact hactive id _ fun t => hR.function_update (hR.update _ _ _ _ _) _
  | delete id table' rowIdentifiers =>
    exact hactive id _ fun t => hR.function_update (hR.delete _ _ _ _) _
  | commit id => exact hactive id _ fun t => hremove _ _ (hR.commitUndo _ _ _ _)
  | rollback id => exact hactive id _ fun t => hremove _ _ (hR.rollbackUndo _ _ _)
  | _ => exact hactive _ _ fun t => hR.refl _

/-- **A run** relates every table to what becomes of it. -/
theorem run (checks : ℕ → TableChecks V C) (db : Database V C) (ops : List (Op V C)) (table : ℕ) :
    R (db.tables table) ((db.run checks ops).tables table) := by
  induction ops generalizing db with
  | nil => exact hR.refl _
  | cons op ops ih => exact hR.trans (hR.step checks db op table) (ih _)

end

end TablePreorder

namespace Database

variable (checks : ℕ → TableChecks V C) (db : Database V C)

theorem grows_step (op : Op V C) : Tables.Grows db.tables (db.step checks op).1.tables :=
  tablePreorder_grows.step checks db op

theorem grows_run (ops : List (Op V C)) : Tables.Grows db.tables (db.run checks ops).tables :=
  tablePreorder_grows.run checks db ops

/-- **`Fetch`**, after any run, returns the rows of the abstract store that the same events lead
to. -/
theorem fetch_eq_store (columnCount : ℕ → ℕ) (ops : List (Op V C)) (transaction : Transaction C)
    (columnIds : List ColumnId) (table : ℕ) (rowIds : List ℕ) :
    let rows := (((initial columnCount).trace checks ops).foldl Store.apply {}).rows table
    fetch transaction columnIds (((initial columnCount).run checks ops).tables table) rowIds =
      if ∀ rowId ∈ rowIds, rowId < rows.length then
        .ok ((rowIds.mergeSort (· ≤ ·)).filterMap fun rowId =>
          (rows[rowId]?.bind (·.read transaction.running.sees)).map (resultCells columnIds rowId))
      else .error outOfBounds := by
  intro rows
  obtain ⟨hinv, hstore, -⟩ := (Invariant.invariant_initial columnCount).run checks ops
  have hrows : rows = _ := congrArg (·.rows table) hstore.symm
  rw [fetch_eq, hrows, store, length_map]
  congr 3
  funext rowId
  rw [getElem?_map]
  cases hslot : (((initial columnCount).run checks ops).tables table).rows[rowId]? with
  | none => rfl
  | some slot =>
    exact congrArg _ (hinv.readRow_eq ((Invariant.row?_eq _ table rowId).trans hslot) transaction)

/-- **Version chains**, after any run, are the undo entries for their row; at most one running
transaction has any. -/
theorem keys_eq_chain (columnCount : ℕ → ℕ) (ops : List (Op V C)) (table row : ℕ) :
    let db := (initial columnCount).run checks ops
    db.keys table row = db.transactionManager.chain table row ∧
      {t | t ∈ db.transactionManager.activeTransactions ∧
        t.pointersOn table row ≠ []}.Subsingleton := by
  obtain ⟨hinv, -, -⟩ := (Invariant.invariant_initial columnCount).run checks ops
  exact ⟨hinv.chains table row, fun t ht u hu => hinv.exclusive ht.1 hu.1 ht.2 hu.2⟩

/-! ### Snapshot reads -/

/-- `Scan` returns the rows of a snapshot from where it goes on to where it stops, and stops at the
end of the table if it returns nothing. -/
structure ScanShows (columnIds : List DataTable.ColumnId) (t : DataTable V)
    (snapshot : ℕ → Option (List V)) (structure_ : DataTable.ScanStructure)
    (result : List (List (DataTable.Cell V)) × DataTable.ScanStructure) : Prop where
  advances : t.scanPosition structure_ ≤ t.scanPosition result.2
  rows : (result.1.map dataCells).Perm ((List.range' (t.scanPosition structure_)
      (t.scanPosition result.2 - t.scanPosition structure_)).filterMap fun row =>
        (snapshot row).map (projection columnIds))
  finished : result.1 = [] → t.scanPosition result.2 = t.rows.length

theorem filterMap_take_drop {α β : Type*} {f : α → Option β} {g : ℕ → Option β} {l : List α}
    (h : ∀ (i : ℕ) a, l[i]? = some a → f a = g i) (n p : ℕ) (hle : p + n ≤ l.length) :
    ((l.drop p).take n).filterMap f = (List.range' p n).filterMap g := by
  induction n generalizing p with
  | zero => simp
  | succ n ih =>
    have hp : p < l.length := by omega
    rw [drop_eq_getElem_cons hp, take_succ_cons, range'_succ, filterMap_cons,
      filterMap_cons, h p _ (getElem?_eq_getElem hp), ih (p + 1) (by omega)]

theorem scanShows {t : DataTable V} {snapshot : ℕ → Option (List V)}
    (h : ∀ (row : ℕ) slot, t.rows[row]? = some slot → readRow transaction slot = snapshot row)
    (columnIds : List DataTable.ColumnId) {structure_ : DataTable.ScanStructure}
    (hvalid : t.ValidScan structure_) :
    ScanShows columnIds t snapshot structure_ (scan transaction columnIds t structure_) := by
  obtain ⟨⟨scanned, hsplit, hperm⟩, hfinished, -⟩ :=
    scan_spec transaction columnIds t hvalid
  generalize scan transaction columnIds t structure_ = result at *
  have hlen := congrArg List.length hsplit
  rw [length_append] at hlen
  have hle : ∀ s, (t.remaining s).length ≤ t.rows.length := fun s => by
    rw [remaining_eq_drop]
    simp
  have hle₁ := hle structure_
  have hle₂ := hle result.2
  have hpos : ∀ s, t.scanPosition s = t.rows.length - (t.remaining s).length := fun _ => rfl
  have hcount : t.scanPosition result.2 - t.scanPosition structure_ = scanned.length := by
    rw [hpos, hpos]
    omega
  have hscanned : scanned = (t.rows.drop (t.scanPosition structure_)).take scanned.length := by
    rw [← remaining_eq_drop, hsplit, take_left]
  refine ⟨by rw [hpos, hpos]; omega, ?_, fun hnil => ?_⟩
  · rw [hcount]
    refine hperm.trans (.of_eq ?_)
    have hmap : ∀ (row : ℕ) slot, t.rows[row]? = some slot →
        (readRow transaction slot).map (projection columnIds) =
          (snapshot row).map (projection columnIds) := fun row slot hslot => by
      rw [h row slot hslot]
    refine (congrArg (List.filterMap _) hscanned).trans (filterMap_take_drop hmap _ _ ?_)
    rw [hpos]
    omega
  · rw [hpos, hfinished hnil]
    simp

/-- **Snapshot reads.**  In a run in which transactions change only rows that they see and whose
newest version was not committed after they started, and in which commit ids stay below the
transaction ids, `Scan` and `Fetch` return to a running transaction the rows of its snapshot: what
the transactions with a smaller commit id than its start time did, in commit order, and then what it
did itself. A scan can go on whatever happens between two calls. -/
theorem scan_fetch_eq_snapshot (checks : ℕ → TableChecks V C) (columnCount : ℕ → ℕ)
    (ops : List (Op V C))
    (hvisible : EachStep checks (ChangesVisible checks) (initial columnCount) ops)
    (hbelow : EachStep checks CommitsBelow (initial columnCount) ops) :
    let db := (initial columnCount).run checks ops
    let snapshot := (ofTrace ((initial columnCount).trace checks ops)).snapshot
    ∀ transaction ∈ db.transactionManager.activeTransactions,
      ∀ (table : ℕ) (columnIds : List DataTable.ColumnId),
        let rows := snapshot transaction.transactionId transaction.startTime table
        (∀ structure_, (db.tables table).ValidScan structure_ →
          let result := DataTable.scan transaction columnIds (db.tables table) structure_
          ScanShows columnIds (db.tables table) rows structure_ result ∧
            ∀ later, ((db.run checks later).tables table).ValidScan result.2) ∧
        (∀ rowIdentifiers, DataTable.fetch transaction columnIds (db.tables table) rowIdentifiers =
          if ∀ rowId ∈ rowIdentifiers, rowId < (db.tables table).rows.length then
            .ok ((rowIdentifiers.mergeSort (· ≤ ·)).filterMap fun rowId =>
              (rows rowId).map (DataTable.resultCells columnIds rowId))
          else .error DataTable.outOfBounds) ∧
        ∀ row, (db.tables table).rows.length ≤ row → rows row = none := by
  intro db snapshot transaction ht table columnIds rows
  have hdb : Follows RowView.full db (ofTrace ((initial columnCount).trace checks ops)) := by
    refine (follows_initial RowView.full columnCount).run (fun db op hinv hop => ?_) hvisible
    exact ⟨hinv.meets_savedRight_full hop, fun e he => (hop e he).2⟩
  have hcommit : ∀ t ∈ (ofTrace ((initial columnCount).trace checks ops)).committed,
      t.commitId < transactionIdStart := commitId_lt_of_commitsBelow (by simp) hbelow
  have hread : ∀ (row : ℕ) slot, (db.tables table).rows[row]? = some slot →
      readRow transaction slot = rows row := fun row slot hslot =>
    hdb.readRow_eq hcommit ht ((Invariant.row?_eq db table row).trans hslot)
  have hnone : ∀ row, (db.tables table).rows.length ≤ row → rows row = none := fun row hle =>
    hdb.history.snapshot_eq_none (by simpa [Database.store] using hle)
  refine ⟨fun structure_ hvalid => ⟨scanShows hread columnIds hvalid, fun later => ?_⟩,
    fun rowIdentifiers => ?_, hnone⟩
  · exact (scan_spec transaction columnIds _ hvalid).valid.grows (grows_run checks db later table)
  · rw [fetch_eq]
    congr 3
    funext rowId
    cases hslot : (db.tables table).rows[rowId]? with
    | none => rw [hnone rowId (List.getElem?_eq_none_iff.1 hslot)]; rfl
    | some slot => rw [Option.bind_some, hread rowId slot hslot]

/-- A row is inserted and committed; then one transaction changes it while another one is
running. -/
def overlappingUpdate : List (Op ℕ Unit) :=
  [.startTransaction, .append transactionIdStart 0 (.single [1]), .commit transactionIdStart,
    .startTransaction, .startTransaction, .update (transactionIdStart + 1) 0 (.single 0 0 5)]

/-- The other transaction still reads the old value. -/
theorem fetch_overlappingUpdate :
    DataTable.fetch ({ startTime := 3, transactionId := transactionIdStart + 2 } : Transaction Unit)
      [.column 0]
      (((initial fun _ => 1).run (fun _ => .unconstrained) overlappingUpdate).tables 0) [0] =
        .ok [[.value (some 1)]] := by
  have h := scan_fetch_eq_snapshot (fun _ => .unconstrained) (fun _ => 1) overlappingUpdate
    (by decide) (by decide) { startTime := 3, transactionId := transactionIdStart + 2 }
    (by decide) 0 [.column 0]
  refine (h.2.1 [0]).trans ?_
  rw [mergeSort_singleton]
  decide

/-! ### Running out of commit ids -/

/-- Transactions that start and roll back at once, while the first one is running. -/
def idle (n : ℕ) : List (Op V C) :=
  (List.range n).flatMap fun i => [.startTransaction, .rollback (transactionIdStart + 1 + i)]

/-- The transaction manager after the first transaction and `n` idle ones have started. -/
def afterIdle (n : ℕ) : TransactionManager C where
  currentStartTimestamp := n + 1
  currentTransactionId := transactionIdStart + 1 + n
  activeTransactions := [{ startTime := 0, transactionId := transactionIdStart }]

theorem idle_succ (n : ℕ) : (idle (n + 1) : List (Op V C)) =
    idle n ++ [.startTransaction, .rollback (transactionIdStart + 1 + n)] := by
  simp [idle, range_succ]

/-- Idle transactions leave the tables as they are and the history empty. -/
theorem run_trace_idle (tables : Tables V) (n : ℕ) (hn : n < transactionIdStart) :
    run checks ⟨afterIdle 0, tables⟩ (idle n) = ⟨afterIdle n, tables⟩ ∧
      (trace checks ⟨afterIdle 0, tables⟩ (idle n)).foldl record {} = {} := by
  induction n with
  | zero => exact ⟨rfl, rfl⟩
  | succ n ih =>
    have hlt : ¬transactionIdStart ≤ n + 1 := by omega
    have hne : transactionIdStart + 1 + n ≠ transactionIdStart := by omega
    obtain ⟨hrun, htrace⟩ := ih (by omega)
    rw [idle_succ, run_append, trace_append, foldl_append, hrun, htrace]
    constructor
    · simp [run, step, afterIdle, TransactionManager.startTransaction, hlt, withActive,
        active?, hne.symm, rollbackTransaction, removeTransaction,
        TransactionManager.removeTransaction, cleanable, recentlyCommitted, awaitingGC,
        others, Transaction.clearUndo, Transaction.rollbackUndo, lowestActiveQuery, maximumQueryId]
      rfl
    · simp [trace, Theory.trace, events, step, afterIdle, TransactionManager.startTransaction, hlt,
        active?, hne.symm, record]

theorem run_start_idle (columnCount : ℕ → ℕ) {n : ℕ} (hn : n < transactionIdStart)
    (ops : List (Op V C)) :
    run checks (initial columnCount) (.startTransaction :: (idle n ++ ops)) =
        run checks ⟨afterIdle n, fun table => .empty (columnCount table)⟩ ops ∧
      ofTrace (trace checks (initial columnCount) (.startTransaction :: (idle n ++ ops))) =
        ofTrace (trace checks ⟨afterIdle n, fun table => .empty (columnCount table)⟩ ops) := by
  obtain ⟨hidle, htrace⟩ := run_trace_idle checks (fun table => .empty (columnCount table)) n hn
  have hstart : (initial columnCount).run checks [.startTransaction] =
      ⟨afterIdle 0, fun table => .empty (columnCount table)⟩ := rfl
  have hops : (.startTransaction :: (idle n ++ ops) : List (Op V C)) =
      [.startTransaction] ++ (idle n ++ ops) := rfl
  rw [hops]
  constructor
  · rw [run_append, run_append, hstart, hidle]
  · have hfirst : ((initial columnCount).trace checks [.startTransaction]).foldl record {} =
        ({} : History V) := rfl
    rw [trace_append, trace_append, hstart, hidle, ofTrace, foldl_append, hfirst,
      foldl_append, htrace, ofTrace]

theorem changesVisible_of_not_changesRows {op : Op V C} (hop : op.changesRows = false) :
    ChangesVisible checks db op := by
  intro e he
  obtain ⟨event, hevent, hsome⟩ := mem_filterMap.1 he
  cases event with
  | write owner c =>
    cases op with
    | append id table chunk =>
      obtain ⟨-, t, -, hc⟩ := mem_elim_map hevent
      obtain ⟨entry, -, rfl⟩ := mem_map.1 hc
      simp [RowWrite.isInsert] at hsome
    | startTransaction =>
      simp only [events] at hevent
      split_ifs at hevent <;> simp at hevent
    | commit id | rollback id =>
      simp only [events] at hevent
      cases hactive : db.transactionManager.active? id <;> simp [hactive] at hevent
    | update id table updates | delete id table rowIdentifiers => simp [Op.changesRows] at hop
    | _ => simp [events] at hevent
  | _ => simp at hsome

/-- The first transaction of all sees nothing but its own changes. -/
theorem snapshot_first {h : History V} {transactionId : ℕ} (hpending : h.pending transactionId = [])
    (table row : ℕ) : h.snapshot transactionId 0 table row = none := by
  simp [History.snapshot, hpending, applyTo, onRow]

/-- The run that uses up all ids below those of the transactions: all but one are taken by idle
transactions, and the last one by the start of the transaction that commits. -/
def exhausted : List (Op ℕ Unit) :=
  .startTransaction :: (idle 4294967294 ++
    [.startTransaction, .append (transactionIdStart + 4294967295) 0 (.single [7]),
      .commit (transactionIdStart + 4294967295)])

/-- **A commit id can reach the id of a running transaction.**  The transaction then sees a row that
was inserted and committed long after it started. -/
theorem commit_id_reaches_transaction_id :
    let checks : ℕ → TableChecks ℕ Unit := fun _ => .unconstrained
    let db := (initial fun _ => 1).run checks exhausted
    let h := ofTrace ((initial fun _ => 1).trace checks exhausted)
    EachStep checks (ChangesVisible checks) (initial fun _ => 1) exhausted ∧
      ∃ transaction ∈ db.transactionManager.activeTransactions,
        (DataTable.scan transaction [.column 0] (db.tables 0) DataTable.initializeScan).1 =
            [[.value (some 7)]] ∧
          ∀ row, h.snapshot transaction.transactionId transaction.startTime 0 row = none := by
  intro checks db h
  obtain ⟨hdb, hh⟩ := run_start_idle checks (fun _ => 1) (n := 4294967294) (by decide)
    [.startTransaction, .append (transactionIdStart + 4294967295) 0 (.single [7]),
      .commit (transactionIdStart + 4294967295)]
  rw [← exhausted] at hdb hh
  refine ⟨meets_of_forall fun op hop db => ?_,
    { startTime := 0, transactionId := transactionIdStart }, ?_, ?_, snapshot_first ?_ 0⟩
  · refine changesVisible_of_not_changesRows checks db ?_
    simp only [exhausted, idle, mem_cons, mem_append, mem_flatMap] at hop
    rcases hop with rfl | ⟨i, -, rfl | rfl | hnil⟩ | rfl | rfl | rfl | hnil
    all_goals first | rfl | simp at hnil
  · rw [show db = _ from hdb]
    decide
  · rw [show db = _ from hdb]
    decide
  · rw [show h = _ from hh]
    decide

end Database

end DuckDB
