import DuckDB.Transaction.Equiv.Isolation
import DuckDB.Transaction.Equiv.RollbackSimulation

/-!
# What a rollback leaves behind

A run that ends with the rollback of a transaction `τ` is compared with the same run without the
inserts, updates and deletes of `τ` (`Op.withoutAll`). Rows that `τ` inserted keep their row
numbers after the rollback, so the row identifiers of the other transactions are renumbered; since a
renumbered vector can lie in two storage chunks, their updates and deletes are issued row by row.

* `rollback_exact`: if `τ` never changes a deleted row that it did not change before, then both runs
  leave the same rows to every reader.
* `rollback_undeletes`: without that condition the rollback brings back a row that another
  transaction has deleted.
-/

namespace DuckDB

open Theory List DataTable

variable {V C : Type*}

/-- The arguments of an `Update` that saves a row and changes no column. -/
def UpdateChunk.touch (row : ℕ) : UpdateChunk V where
  rowIdentifiers := [row]
  columnIds := []
  data := []
  data_length := rfl
  vector_length _ h := absurd h not_mem_nil

/-- The changes of an `Update` that raises no error. -/
def UpdateChunk.changes (table : ℕ) (updates : UpdateChunk V) : List (Change V) :=
  (updates.rowIdentifiers.map fun row => ⟨table, row, .touch⟩) ++
    updates.cells.map fun cell => ⟨table, cell.1, .set cell.2.1 cell.2.2⟩

/-! ### The run without the changes of one transaction -/

namespace Op

/-- The operation in the run without the changes of `τ`. -/
def without (τ : ℕ) (kept : ℕ → List Bool) : Op V C → List (Op V C)
  | .append id table chunk => if id = τ then [] else [.append id table chunk]
  | .update id table updates =>
    if id = τ then []
    else
      (updates.rowIdentifiers.map fun row =>
        .update id table (.touch (rank (kept table) row))) ++
      updates.cells.map fun cell =>
        .update id table (.single (rank (kept table) cell.1) cell.2.1 cell.2.2)
  | .delete id table rowIdentifiers =>
    if id = τ then []
    else rowIdentifiers.map fun row => .delete id table [rank (kept table) row]
  | op => [op]

/-- Which rows are there in the run without the changes of `τ`, after the operation. -/
def keep (τ : ℕ) (kept : ℕ → List Bool) : Op V C → ℕ → List Bool
  | .append id table chunk =>
    Function.update kept table (kept table ++ List.replicate chunk.rows.length (decide (id ≠ τ)))
  | _ => kept

/-- A run without the changes of `τ`. -/
def withoutAll (τ : ℕ) : (ℕ → List Bool) → List (Op V C) → List (Op V C)
  | _, [] => []
  | kept, op :: ops => op.without τ kept ++ withoutAll τ (op.keep τ kept) ops

/-- Which rows are there at the end of the run without the changes of `τ`. -/
def keepAll (τ : ℕ) (kept : ℕ → List Bool) (ops : List (Op V C)) : ℕ → List Bool :=
  ops.foldl (fun kept op => op.keep τ kept) kept

end Op

/-- The operation that makes one change. -/
def Change.op (owner : ℕ) : Change V → Op V C
  | ⟨table, _, .insert tuple⟩ => .append owner table (.single tuple)
  | ⟨table, row, .touch⟩ => .update owner table (.touch row)
  | ⟨table, row, .set column value⟩ => .update owner table (.single row column value)
  | ⟨table, row, .delete⟩ => .delete owner table [row]

namespace DataTable

variable {t : DataTable V} {checks : TableChecks V C} {transaction : Transaction C} {table : ℕ}

theorem append_eq_unconstrained {chunk : DataChunk V}
    (h : (append checks table chunk transaction t).2.2 = none) :
    append checks table chunk transaction t =
      append TableChecks.unconstrained table chunk transaction t := by
  unfold append at h ⊢
  split_ifs at h ⊢
  · rfl
  · cases hverify : checks.verifyAppend t chunk with
    | some e => simp [hverify] at h
    | none =>
      cases hunique : checks.uniqueAppend transaction t chunk with
      | some e => simp [hverify, hunique] at h
      | none => rfl

theorem update_eq_unconstrained {updates : UpdateChunk V}
    (h : (update checks table updates transaction t).2.2 = none) :
    update checks table updates transaction t =
      update TableChecks.unconstrained table updates transaction t := by
  rcases (update_eq_none_iff checks table updates transaction t).1 h with
    hnil | ⟨hverify, hunique, -⟩
  · simp only [update, hnil]
  · unfold update
    rw [hverify, hunique]
    rfl

end DataTable

namespace Database

/-- The operation raises no error. -/
def Admitted (checks : ℕ → TableChecks V C) (db : Database V C) (op : Op V C) : Prop :=
  (db.step checks op).2 = none

/-- `τ` updates or deletes a deleted row only if the newest version of the row is its own. -/
def ChangesLive (checks : ℕ → TableChecks V C) (τ : ℕ) (db : Database V C) (op : Op V C) : Prop :=
  ∀ e ∈ db.changedRows checks op, e.1.transactionId = τ → e.2.deleted = true →
    e.2.head?.any (·.pointer.owner == τ) = true

instance (checks : ℕ → TableChecks V C) (db : Database V C) (op : Op V C) :
    Decidable (Admitted checks db op) :=
  inferInstanceAs (Decidable (_ = none))

instance (checks : ℕ → TableChecks V C) (τ : ℕ) (db : Database V C) (op : Op V C) :
    Decidable (ChangesLive checks τ db op) :=
  inferInstanceAs (Decidable (∀ e ∈ _, _))

/-- No constraints and no indexes. -/
def unconstrained : ℕ → TableChecks V C :=
  fun _ => TableChecks.unconstrained

/-! ### One change is one operation -/

section Changes

variable {db db' : Database V C} {owner id : ℕ} {t : Transaction C} {c : Change V}

theorem Invariant.active?_of_store (h : db.Invariant) (h' : db'.Invariant)
    (hactive : db'.store.active = db.store.active)
    (ht : db.transactionManager.active? id = some t) :
    ∃ t', db'.transactionManager.active? id = some t' ∧ t'.startTime = t.startTime := by
  obtain ⟨hmem, rfl⟩ := h.active?_eq_some_iff.1 ht
  have hmem' : t.running ∈ db'.store.active := hactive ▸ mem_running hmem
  obtain ⟨t', ht', heq⟩ := mem_map.1 hmem'
  obtain ⟨hid, hstart⟩ := Running.mk.inj heq
  exact ⟨t', h'.active?_eq_some_iff.2 ⟨ht', hid⟩, hstart⟩

/-- A row that may be changed can be saved. -/
theorem Invariant.pushedRows_single (h : db.Invariant) {table row : ℕ} {versioned : VersionedRow V}
    (ht : db.transactionManager.active? owner = some t)
    (hrow : (db.store.rows table)[row]? = some versioned)
    (hconf : versioned.conflicts owner = false) : pushedRows t (db.tables table) [row] = [row] := by
  obtain ⟨slot, hslot, rfl⟩ : ∃ slot, (db.tables table).rows[row]? = some slot ∧
      slot.versioned = versioned := by simpa [Database.store] using hrow
  have hslot' : db.row? table row = some slot := (row?_eq db table row).trans hslot
  have hlt : row < (db.tables table).rows.length := (List.getElem?_eq_some_iff.1 hslot).1
  obtain ⟨chunk, hchunk⟩ := exists_getChunk hlt
  obtain ⟨-, rfl⟩ := h.active?_eq_some_iff.1 ht
  rw [← conflicts_eq t (h.sameNumbers hslot')] at hconf
  have hpush : pushable t (db.tables table) chunk row :=
    pushable_iff.2 ⟨holds_of_getChunk hchunk, slot, hslot', hconf⟩
  simp [pushedRows, hchunk, hpush]

theorem update_of_pushedRows (table : ℕ) (updates : UpdateChunk V)
    (ht : db.transactionManager.active? owner = some t)
    (hpush : pushedRows t (db.tables table) updates.rowIdentifiers = updates.rowIdentifiers) :
    Admitted unconstrained db (.update owner table updates) ∧
      db.events unconstrained (.update owner table updates) =
        (updates.changes table).map (.write owner) := by
  refine ⟨?_, ?_⟩
  · simp only [Admitted, step, withActive, ht, onTable]
    exact (DataTable.update_eq_none_iff _ _ _ _ _).2 (.inr ⟨rfl, rfl, hpush⟩)
  · simp only [events, ht, Option.elim_some, updateChanges, hpush, if_true]
    rfl

theorem delete_of_pushedRows {table : ℕ} {rowIdentifiers : List ℕ}
    (ht : db.transactionManager.active? owner = some t)
    (hpush : pushedRows t (db.tables table) rowIdentifiers = rowIdentifiers) :
    Admitted unconstrained db (.delete owner table rowIdentifiers) ∧
      db.events unconstrained (.delete owner table rowIdentifiers) =
        (rowIdentifiers.map fun row => ⟨table, row, .delete⟩).map (.write owner) := by
  refine ⟨?_, ?_⟩
  · simp only [Admitted, step, withActive, ht, onTable]
    exact (delete_eq_none_iff _ _ _ _).2 hpush
  · simp only [events, ht, Option.elim_some, deleteChanges, hpush]

/-- **One change**: the operation for it raises no error and does nothing else. -/
theorem Invariant.step_op (h : db.Invariant) (hw : c.write.isInsert = false)
    (hok : db.store.Allowed (.write owner c)) : Admitted unconstrained db (c.op owner) ∧
      db.events unconstrained (c.op owner) = c.saved.map (.write owner) := by
  obtain ⟨t, ht⟩ := h.runs_iff.1 hok.1
  obtain ⟨versioned, hrow, hconf⟩ := (Store.writable_iff_of_not_insert hw).1 hok.2
  have hpush := h.pushedRows_single ht hrow hconf
  obtain ⟨table, row, w⟩ := c
  cases w with
  | insert tuple => simp [RowWrite.isInsert] at hw
  | touch => exact update_of_pushedRows table (.touch row) ht hpush
  | set column value => exact update_of_pushedRows table (.single row column value) ht hpush
  | delete => exact delete_of_pushedRows ht hpush

theorem Change.allowed_of_saved {s : Store V}
    (h : Meets Store.apply Store.Allowed s (c.saved.map (.write owner))) :
    s.Allowed (.write owner c) := by
  obtain ⟨table, row, w⟩ := c
  cases w with
  | set column value => exact h.1
  | _ => exact h.1

/-- Changes that are allowed one after the other can be made one operation at a time. -/
theorem Invariant.run_ops (h : db.Invariant) {changes : List (Change V)}
    (hw : ∀ c ∈ changes, c.write.isInsert = false) (hok : Meets Store.apply Store.Allowed db.store
      ((changes.flatMap Change.saved).map (.write owner))) :
    EachStep unconstrained (Admitted unconstrained) db (changes.map (Change.op owner)) ∧
      db.trace unconstrained (changes.map (Change.op owner)) =
        (changes.flatMap Change.saved).map (.write owner) := by
  induction changes generalizing db with
  | nil => exact ⟨trivial, rfl⟩
  | cons c changes ih =>
    rw [flatMap_cons, map_append] at hok
    obtain ⟨hfirst, hrest⟩ := meets_append.1 hok
    obtain ⟨hadmitted, hevents⟩ := h.step_op (hw c mem_cons_self) (Change.allowed_of_saved hfirst)
    have hstep := h.step unconstrained (c.op owner)
    rw [hevents] at hstep
    obtain ⟨hadmitted', htrace⟩ := ih hstep.invariant
      (fun c' hc' => hw c' (mem_cons_of_mem _ hc')) (hstep.store ▸ hrest)
    refine ⟨⟨hadmitted, hadmitted'⟩, ?_⟩
    rw [map_cons, flatMap_cons, map_append, ← hevents, ← htrace]
    rfl

end Changes

/-! ### The events of an operation that raises no error -/

section Admitted

variable {db : Database V C} {checks : ℕ → TableChecks V C} {id table : ℕ} {updates : UpdateChunk V}

theorem active?_of_withActive {f : Transaction C → Database V C × Option Exception}
    (h : (db.withActive id f).2 = none) :
    ∃ t, db.transactionManager.active? id = some t ∧ (f t).2 = none := by
  unfold withActive at h
  cases ht : db.transactionManager.active? id with
  | none => simp [ht] at h
  | some t => exact ⟨t, rfl, by simpa [ht] using h⟩

theorem events_append {chunk : DataChunk V} (h : Admitted checks db (.append id table chunk)) :
    db.events checks (.append id table chunk) =
      (chunk.rows.zipIdx (db.tables table).rows.length).map fun e =>
        .write id ⟨table, e.2, .insert e.1⟩ := by
  obtain ⟨t, ht, hnone⟩ := active?_of_withActive h
  have hrows := (append_eq_none_iff (checks table) table chunk t (db.tables table)).1 hnone
  simp only [events, ht, Option.elim_some, appendChanges, hrows, map_map]
  rfl

theorem events_update (h : Admitted checks db (.update id table updates)) :
    db.events checks (.update id table updates) = (updates.changes table).map (.write id) := by
  obtain ⟨t, ht, hnone⟩ := active?_of_withActive h
  simp only [events, ht, Option.elim_some]
  congr 1
  rcases (DataTable.update_eq_none_iff (checks table) table updates t (db.tables table)).1 hnone with
    hnil | ⟨hverify, hunique, hpush⟩
  · have hcells : updates.cells = [] := by simp [UpdateChunk.cells, hnil]
    simp [updateChanges, pushedRows, UpdateChunk.changes, hnil, hcells]
  · simp only [updateChanges, hverify, hunique, hpush, if_true]
    rfl

theorem events_delete {rowIdentifiers : List ℕ}
    (h : Admitted checks db (.delete id table rowIdentifiers)) :
    db.events checks (.delete id table rowIdentifiers) =
      (rowIdentifiers.map fun row => ⟨table, row, .delete⟩).map (.write id) := by
  obtain ⟨t, ht, hnone⟩ := active?_of_withActive h
  have hpush := (delete_eq_none_iff table rowIdentifiers t (db.tables table)).1 hnone
  simp only [events, ht, Option.elim_some, deleteChanges, hpush]

theorem not_isInsert_of_mem_changes : ∀ c ∈ updates.changes table, c.write.isInsert = false := by
  intro c hc
  rcases mem_append.1 hc with hc | hc <;> obtain ⟨_, -, rfl⟩ := mem_map.1 hc <;> rfl

end Admitted

/-! ### Both runs -/

/-- A database and what the run without the changes of `τ` leads to. -/
structure Shadowed (τ : ℕ) (kept : ℕ → List Bool) (db db' : Database V C) : Prop where
  invariant : db.Invariant
  invariant_without : db'.Invariant
  columnCount : ∀ table, (db'.tables table).columnCount = (db.tables table).columnCount
  shadows : Shadows τ kept db.store db'.store
  notCommitted : NotCommitted τ db.store

namespace Shadowed

variable {τ id table : ℕ} {kept : ℕ → List Bool} {db db' : Database V C}
  {checks : ℕ → TableChecks V C} {op : Op V C}

theorem run_changes (h : Shadowed τ kept db db') (hne : id ≠ τ) {changes : List (Change V)}
    (hw : ∀ c ∈ changes, c.write.isInsert = false) (hok : Meets Store.apply Store.Allowed db'.store
      (withoutChanges τ kept (changes.map (.write id)))) :
    let ops := changes.map fun c =>
      Change.op id { c with row := rank (kept c.table) c.row }
    EachStep unconstrained (Admitted unconstrained) db' ops ∧
      db'.trace unconstrained ops = withoutChanges τ kept (changes.map (.write id)) := by
  rw [withoutChanges_other hne hw] at hok ⊢
  have hrun := h.invariant_without.run_ops (fun c hc => ?_) hok
  · rw [map_map] at hrun
    exact hrun
  · obtain ⟨c', hc', rfl⟩ := mem_map.1 hc
    exact hw c' hc'

theorem keep_events (kept : ℕ → List Bool) (hop : Admitted checks db op) :
    (db.events checks op).foldl (fun kept e => e.keep τ kept) kept = op.keep τ kept := by
  cases op with
  | startTransaction =>
    simp only [events]
    split_ifs <;> rfl
  | append id table chunk => rw [events_append hop, keep_foldl_insert]; rfl
  | update id table updates =>
    rw [events_update hop, keep_foldl_of_not_insert not_isInsert_of_mem_changes]
    rfl
  | delete id table rowIdentifiers =>
    rw [events_delete hop, keep_foldl_of_not_insert fun c hc => ?_]
    · rfl
    · obtain ⟨row, -, rfl⟩ := mem_map.1 hc
      rfl
  | commit id | rollback id =>
    simp only [events]
    cases db.transactionManager.active? id <;> rfl
  | _ => rfl

theorem replays_same (hop : Admitted unconstrained db' op) {es : List (Event V)}
    (hevents : db'.events unconstrained op = es) :
    EachStep unconstrained (Admitted unconstrained) db' [op] ∧ db'.trace unconstrained [op] = es :=
  ⟨⟨hop, trivial⟩, by rw [← hevents]; exact append_nil _⟩

section

variable (h : Shadowed τ kept db db')

include h

theorem active? {t : Transaction C} (ht : db.transactionManager.active? id = some t) :
    ∃ t', db'.transactionManager.active? id = some t' ∧ t'.startTime = t.startTime :=
  h.invariant.active?_of_store h.invariant_without h.shadows.active ht

theorem active?_of_admitted {f : Transaction C → Database V C × Option Exception}
    (hop : (db.withActive id f).2 = none) : ∃ t', db'.transactionManager.active? id = some t' := by
  obtain ⟨t, ht, -⟩ := active?_of_withActive hop
  obtain ⟨t', ht', -⟩ := h.active? ht
  exact ⟨t', ht'⟩

theorem admitted_append {chunk : DataChunk V} (hop : Admitted checks db (.append id table chunk)) :
    Admitted unconstrained db' (.append id table chunk) := by
  obtain ⟨t, ht, hnone⟩ := active?_of_withActive hop
  obtain ⟨t', ht', -⟩ := h.active? ht
  have hcount : ¬chunk.rows.any (·.length != (db.tables table).columnCount) := by
    intro hcount
    have hrows :=
      (append_eq_none_iff (checks table) table chunk t (db.tables table)).1 hnone
    rw [appendedRows, hcount] at hrows
    have hnil : chunk.rows = [] := by simpa using hrows.symm
    simp [hnil] at hcount
  simp only [Admitted, step, withActive, ht', onTable]
  refine (append_eq_none_iff _ _ _ _ _).2 ?_
  simp only [appendedRows, h.columnCount]
  rw [if_neg]
  simpa [unconstrained, TableChecks.unconstrained] using hcount

/-- Without the changes of `τ` an operation does what its events become. -/
theorem replays (hop : Admitted checks db op) (hok : Meets Store.apply Store.Allowed db'.store
      (withoutChanges τ kept (db.events checks op))) :
    EachStep unconstrained (Admitted unconstrained) db' (op.without τ kept) ∧
      db'.trace unconstrained (op.without τ kept) =
        withoutChanges τ kept (db.events checks op) := by
  have hclock : db'.transactionManager.currentStartTimestamp =
      db.transactionManager.currentStartTimestamp := h.shadows.clock
  cases op with
  | startTransaction =>
    have hlt : ¬transactionIdStart ≤ db.transactionManager.currentStartTimestamp := fun hle => by
      simp [Admitted, step, TransactionManager.startTransaction, hle] at hop
    refine replays_same ?_ ?_
    · simp [Admitted, step, TransactionManager.startTransaction, hclock, hlt]
    · simp [events, hclock, hlt, withoutChanges, Event.without]
  | append id table chunk =>
    rw [events_append hop] at hok ⊢
    by_cases hid : id = τ
    · subst hid
      have hmap : ((chunk.rows.zipIdx (db.tables table).rows.length).map fun e =>
          Event.write id ⟨table, e.2, .insert e.1⟩) = ((chunk.rows.zipIdx
            (db.tables table).rows.length).map fun e => (⟨table, e.2, .insert e.1⟩ : Change V)).map
              (.write id) := by rw [map_map]; rfl
      rw [hmap, withoutChanges_self, Op.without, if_pos rfl]
      exact ⟨trivial, rfl⟩
    · rw [Op.without, if_neg hid]
      have hadmitted := h.admitted_append hop
      refine replays_same hadmitted ?_
      have hlength : (db.tables table).rows.length = (kept table).length := by
        rw [h.shadows.length]
        simp [Database.store]
      have hlength' : (db'.tables table).rows.length = rank (kept table) (kept table).length := by
        rw [rank_length (h.shadows.length table)]
        simpa [Database.store] using congrArg List.length (h.shadows.rows table)
      rw [events_append hadmitted, hlength, hlength', withoutChanges_insert hid]
  | update id table updates =>
    rw [events_update hop] at hok ⊢
    by_cases hid : id = τ
    · subst hid
      rw [withoutChanges_self, Op.without, if_pos rfl]
      exact ⟨trivial, rfl⟩
    · have hrun := h.run_changes hid not_isInsert_of_mem_changes hok
      rw [Op.without, if_neg hid]
      simpa [UpdateChunk.changes, Change.op, Function.comp_def] using hrun
  | delete id table rowIdentifiers =>
    rw [events_delete hop] at hok ⊢
    by_cases hid : id = τ
    · subst hid
      rw [withoutChanges_self, Op.without, if_pos rfl]
      exact ⟨trivial, rfl⟩
    · have hrun := h.run_changes hid (fun c hc => by
        obtain ⟨row, -, rfl⟩ := mem_map.1 hc
        rfl) hok
      rw [Op.without, if_neg hid]
      simpa [Change.op, Function.comp_def] using hrun
  | commit id | rollback id =>
    obtain ⟨t, ht, -⟩ := active?_of_withActive hop
    obtain ⟨t', ht', hstart⟩ := h.active? ht
    refine replays_same ?_ ?_
    · simp [Admitted, step, withActive, ht']
    · simp [events, ht, ht', hstart, hclock, withoutChanges, Event.without]
  | beginQuery id | endQuery id | pushQuery id query | pushCatalogEntry id entry =>
    obtain ⟨t', ht'⟩ := h.active?_of_admitted hop
    exact replays_same (by simp [Admitted, step, withActive, ht']) rfl

end

theorem meets_keepsDeleted (h : db.Invariant) (hlive : ChangesLive checks τ db op) :
    Meets Store.apply (KeepsDeleted τ) db.store (db.events checks op) := by
  refine meets_firstWrite (P := fun t slot => t.transactionId = τ → slot.deleted = true →
    slot.head?.any (·.pointer.owner == τ) = true) hlive (fun _ _ _ _ hQ => hQ) ?_
  rintro id table row t slot ht hslot - howned hP rfl
  obtain ⟨-, hid⟩ := h.active?_eq_some_iff.1 ht
  by_contra hdel
  have hany := hP hid (by simpa [RowSlot.versioned] using hdel)
  rw [ownedBy_eq (h.sameNumbers hslot), hany] at howned
  cases howned

theorem step (h : Shadowed τ kept db db') (hop : Admitted checks db op)
    (hlive : ChangesLive checks τ db op) (hends : ∀ e ∈ db.events checks op, e.ends τ = false) :
    EachStep unconstrained (Admitted unconstrained) db' (op.without τ kept) ∧
      Shadowed τ (op.keep τ kept) (db.step checks op).1
        (db'.run unconstrained (op.without τ kept)) := by
  have hstep := h.invariant.step checks op
  obtain ⟨hmeets, hshadows, hτ⟩ := h.shadows.foldl h.invariant.store h.notCommitted hstep.allowed
    (meets_keepsDeleted h.invariant hlive) hends
  obtain ⟨hadmitted, htrace⟩ := h.replays hop hmeets
  have hrun := h.invariant_without.run unconstrained (op.without τ kept)
  refine ⟨hadmitted, hstep.invariant, hrun.invariant, fun table => ?_, ?_, ?_⟩
  · rw [(grows_step checks db op table).columnCount, (grows_run _ _ _ table).columnCount,
      h.columnCount]
  · rw [hstep.store, hrun.store, htrace, ← keep_events kept hop]
    exact hshadows
  · rwa [hstep.store]

/-- **The run**: as long as `τ` is running at the end, the run without its changes raises no error
and leads to the rows without its changes. -/
theorem run (h : Shadowed τ kept db db') {ops : List (Op V C)}
    (hops : EachStep checks (Admitted checks) db ops)
    (hlive : EachStep checks (ChangesLive checks τ) db ops)
    (hruns : Runs (db.run checks ops).store.active τ) :
    EachStep unconstrained (Admitted unconstrained) db' (Op.withoutAll τ kept ops) ∧
      Shadowed τ (Op.keepAll τ kept ops) (db.run checks ops)
        (db'.run unconstrained (Op.withoutAll τ kept ops)) := by
  induction ops generalizing kept db db' with
  | nil => exact ⟨trivial, h⟩
  | cons op ops ih =>
    have hstep := h.invariant.step checks op
    have hends : ∀ e ∈ db.events checks op, e.ends τ = false := by
      intro e he
      rw [Bool.eq_false_iff]
      intro hends
      -- a transaction that has ended is not running at the end of the run
      obtain ⟨before, after, hsplit⟩ := append_of_mem he
      have hgone : Gone τ (db.step checks op).1.store := by
        rw [hstep.store, hsplit, foldl_append, foldl_cons]
        have hallowed := hstep.allowed
        rw [hsplit] at hallowed
        obtain ⟨hbefore, hafter⟩ := meets_append.1 hallowed
        have hinv := hbefore.invariant (fun _ _ hok hs => hs.apply hok) h.invariant.store
        exact (Gone.of_ends hinv hafter.1 hends).foldl after
      have hrest := hstep.invariant.run checks ops
      have hend := hgone.foldl ((db.step checks op).1.trace checks ops)
      rw [← hrest.store] at hend
      exact hend.2 hruns
    obtain ⟨hadmitted, hshadowed⟩ := h.step hops.1 hlive.1 hends
    obtain ⟨hadmitted', hshadowed'⟩ := ih hshadowed hops.2 hlive.2 hruns
    refine ⟨meets_append.2 ⟨hadmitted, hadmitted'⟩, ?_⟩
    rw [Op.withoutAll, run_append]
    exact hshadowed'

end Shadowed

/-! ### After the rollback -/

/-- The values of a row, its `deleted` flag, and what a transaction reads for it. -/
def shownTo (reader : Transaction C) (slot : RowSlot V) : List V × Bool × Option (List V) :=
  (slot.columns, slot.deleted, readRow reader slot)

/-- The rows of `t` whose flag is set are the rows of `t'`, and nobody sees the other ones. -/
structure RowsAgree (C : Type*) (kept : List Bool) (t t' : DataTable V) : Prop where
  length : kept.length = t.rows.length
  rows : ∀ reader : Transaction C,
    (pick kept t.rows).map (shownTo reader) = t'.rows.map (shownTo reader)
  others : ∀ (n : ℕ) slot, kept[n]? = some false → t.rows[n]? = some slot →
    slot.deleted = true ∧ ∀ reader : Transaction C, readRow reader slot = none
  visible : ∀ reader : Transaction C,
    t.rows.filterMap (readRow reader) = t'.rows.filterMap (readRow reader)

variable {checks : ℕ → TableChecks V C} {db : Database V C} {kept : ℕ → List Bool}
  {db' : Database V C}

/-- What a row shows is a matter of its records. -/
theorem Invariant.map_shownTo (h : db.Invariant) (reader : Transaction C) {table : ℕ}
    {slots : List (RowSlot V)} (hslots : ∀ slot ∈ slots, slot ∈ (db.tables table).rows) :
    slots.map (shownTo reader) = (slots.map RowSlot.versioned).map fun versioned =>
      (versioned.state.columns, versioned.state.deleted, versioned.read reader.running.sees) := by
  rw [map_map]
  refine map_congr_left fun slot hslot => ?_
  obtain ⟨row, hrow⟩ := mem_iff_getElem?.1 (hslots slot hslot)
  have hread := h.readRow_eq ((row?_eq db table row).trans hrow) reader
  simp only [shownTo, hread]
  rfl

theorem rowsAgree_of_agrees (h : db.Invariant) (h' : db'.Invariant)
    (hagrees : Agrees kept db.store db'.store) (table : ℕ) :
    RowsAgree C (kept table) (db.tables table) (db'.tables table) := by
  have hlength : (kept table).length = (db.tables table).rows.length := by
    rw [hagrees.length]
    simp [store]
  have hrows : ∀ reader : Transaction C, (pick (kept table) (db.tables table).rows).map
      (shownTo reader) = (db'.tables table).rows.map (shownTo reader) := by
    intro reader
    rw [h.map_shownTo reader fun slot hslot => mem_of_mem_pick hslot,
      h'.map_shownTo reader fun slot hslot => hslot, ← pick_map]
    have heq := hagrees.rows table
    simp only [store, map_id] at heq
    rw [heq]
  have hothers : ∀ (n : ℕ) slot, (kept table)[n]? = some false →
      (db.tables table).rows[n]? = some slot →
        slot.deleted = true ∧ ∀ reader : Transaction C, readRow reader slot = none := by
    intro n slot hn hslot
    obtain ⟨hdel, hrec⟩ := hagrees.others table n slot.versioned hn (by simp [store, hslot])
    refine ⟨hdel, fun reader => ?_⟩
    rw [h.readRow_eq ((Invariant.row?_eq db table n).trans hslot) reader, VersionedRow.read, hrec]
    simp [VersionedRow.current, RowState.tuple?, hdel]
  refine ⟨hlength, hrows, hothers, fun reader => ?_⟩
  have hread : ∀ slots : List (RowSlot V), slots.filterMap (readRow reader) =
      (slots.map (shownTo reader)).filterMap (·.2.2) := fun slots => by
    rw [filterMap_map]
    rfl
  rw [← filterMap_pick hlength fun n slot hn hslot => (hothers n slot hn hslot).2 reader, hread,
    hread, hrows reader]

/-! ### Constraints -/

/-- Constraints and indexes decide whether an operation raises an error, and nothing else. -/
theorem step_eq_unconstrained {op : Op V C} (h : Admitted checks db op) :
    db.step checks op = db.step unconstrained op := by
  cases op with
  | append id table chunk =>
    obtain ⟨t, ht, hnone⟩ := active?_of_withActive h
    simp only [step, withActive, ht, onTable, DataTable.append_eq_unconstrained hnone]
    rfl
  | update id table updates =>
    obtain ⟨t, ht, hnone⟩ := active?_of_withActive h
    simp only [step, withActive, ht, onTable, DataTable.update_eq_unconstrained hnone]
    rfl
  | _ => rfl

theorem run_eq_unconstrained {ops : List (Op V C)} (h : EachStep checks (Admitted checks) db ops) :
    db.run checks ops = db.run unconstrained ops := by
  induction ops generalizing db with
  | nil => rfl
  | cons op ops ih =>
    have hstep := step_eq_unconstrained h.1
    have hrest := ih h.2
    simp only [run, foldl_cons] at hrest ⊢
    rw [hrest, hstep]

/-! ### Rollback -/

theorem shadowed_initial (τ : ℕ) (columnCount : ℕ → ℕ) :
    Shadowed τ (fun _ => []) (initial columnCount : Database V C) (initial columnCount) where
  invariant := Invariant.invariant_initial columnCount
  invariant_without := Invariant.invariant_initial columnCount
  columnCount _ := rfl
  shadows := ⟨rfl, rfl, rfl, rfl, fun _ => rfl, fun _ => rfl, by simp⟩
  notCommitted := by simp [NotCommitted, initial, store]

theorem Shadowed.rollback {τ : ℕ} (h : Shadowed τ kept db db')
    (hop : Admitted checks db (.rollback τ)) :
    Admitted unconstrained db' (.rollback τ) ∧ Agrees kept (db.step checks (.rollback τ)).1.store
        (db'.step unconstrained (.rollback τ)).1.store := by
  obtain ⟨t, ht, -⟩ := active?_of_withActive hop
  obtain ⟨t', ht', -⟩ := h.active? ht
  refine ⟨by simp [Admitted, Database.step, withActive, ht'], ?_⟩
  have hstep := (h.invariant.step checks (.rollback τ)).store
  have hstep' := (h.invariant_without.step unconstrained (.rollback τ)).store
  simp only [events, ht, ht', Option.elim_some, foldl_cons, foldl_nil] at hstep hstep'
  rw [hstep, hstep']
  exact h.shadows.rollback_self h.invariant.store h.notCommitted

/-- **Rollback is exact** if the transaction never updates or deletes a deleted row that it did not
change before: the run without its inserts, updates and deletes raises no error either, whatever the
constraints are it leaves the same transactions active, and every transaction finds the same rows
after it. -/
theorem rollback_exact (checks : ℕ → TableChecks V C) (columnCount : ℕ → ℕ) (τ : ℕ)
    (ops : List (Op V C))
    (hadmitted : EachStep checks (Admitted checks) (initial columnCount) (ops ++ [.rollback τ]))
    (hlive : EachStep checks (ChangesLive checks τ) (initial columnCount) ops) :
    let rest := Op.withoutAll τ (fun _ => []) ops ++ [.rollback τ]
    let db := (initial columnCount).run checks (ops ++ [.rollback τ])
    EachStep unconstrained (Admitted unconstrained) (initial columnCount : Database V C) rest ∧
      ∀ checks' : ℕ → TableChecks V C,
        EachStep checks' (Admitted checks') (initial columnCount) rest →
          let db' := (initial columnCount).run checks' rest
          db.transactionManager.activeTransactions.map Transaction.running =
              db'.transactionManager.activeTransactions.map Transaction.running ∧
            ∀ table, RowsAgree C (Op.keepAll τ (fun _ => []) ops table) (db.tables table)
              (db'.tables table) := by
  intro rest db
  obtain ⟨hops, hrollback⟩ := meets_append.1 hadmitted
  obtain ⟨t, ht, -⟩ := active?_of_withActive hrollback.1
  have hinv := (Invariant.invariant_initial columnCount).run checks ops
  have hruns := hinv.invariant.runs_iff.2 ⟨t, ht⟩
  obtain ⟨hadmitted', hshadowed⟩ := (shadowed_initial τ columnCount).run hops hlive hruns
  obtain ⟨hlast, hagrees⟩ := hshadowed.rollback hrollback.1
  refine ⟨meets_append.2 ⟨hadmitted', hlast, trivial⟩, fun checks' hchecks' => ?_⟩
  intro db'
  have hdb : db = (((initial columnCount).run checks ops).step checks (.rollback τ)).1 :=
    run_append ..
  have hdb' : db' = (((initial columnCount).run unconstrained
      (Op.withoutAll τ (fun _ => []) ops)).step unconstrained (.rollback τ)).1 :=
    (run_eq_unconstrained hchecks').trans (run_append ..)
  rw [← hdb, ← hdb'] at hagrees
  have hinvdb : db.Invariant := hdb ▸ (hshadowed.invariant.step checks _).invariant
  have hinvdb' : db'.Invariant :=
    hdb' ▸ (hshadowed.invariant_without.step unconstrained _).invariant
  exact ⟨hagrees.active.symm, rowsAgree_of_agrees hinvdb hinvdb' hagrees⟩

/-- Two rows are committed. One transaction changes the first row and inserts a row; meanwhile
another one inserts a row, changes it and the second row, and commits. -/
def abandonedChanges : List (Op ℕ Unit) :=
  [.startTransaction, .append transactionIdStart 0 (.single [1]),
    .append transactionIdStart 0 (.single [2]), .commit transactionIdStart, .startTransaction,
    .update (transactionIdStart + 1) 0 (.single 0 0 5),
    .append (transactionIdStart + 1) 0 (.single [9]), .startTransaction,
    .append (transactionIdStart + 2) 0 (.single [3]),
    .update (transactionIdStart + 2) 0 (.single 3 0 4),
    .update (transactionIdStart + 2) 0 (.single 1 0 6), .commit (transactionIdStart + 2)]

/-- The run without the changes of the first transaction: the new row has the number 2 and not 3. -/
def remainingChanges : List (Op ℕ Unit) :=
  [.startTransaction, .append transactionIdStart 0 (.single [1]),
    .append transactionIdStart 0 (.single [2]), .commit transactionIdStart, .startTransaction,
    .startTransaction, .append (transactionIdStart + 2) 0 (.single [3]),
    .update (transactionIdStart + 2) 0 (.touch 2),
    .update (transactionIdStart + 2) 0 (.single 2 0 4),
    .update (transactionIdStart + 2) 0 (.touch 1),
    .update (transactionIdStart + 2) 0 (.single 1 0 6), .commit (transactionIdStart + 2)]

theorem rollback_abandonedChanges :
    let start : Database ℕ Unit := initial fun _ => 1
    let rollback : Op ℕ Unit := .rollback (transactionIdStart + 1)
    RowsAgree Unit [true, true, false, true]
      ((start.run unconstrained (abandonedChanges ++ [rollback])).tables 0)
      ((start.run unconstrained (remainingChanges ++ [rollback])).tables 0) :=
  ((rollback_exact unconstrained (fun _ => 1) (transactionIdStart + 1) abandonedChanges
    (by decide) (by decide)).2 unconstrained (by decide)).2 0

/-- A row is committed. A transaction starts; another one deletes the row and commits; then the
first one changes the row. -/
def changedAfterDelete : List (Op ℕ Unit) :=
  [.startTransaction, .append transactionIdStart 0 (.single [7]), .commit transactionIdStart,
    .startTransaction, .startTransaction, .delete (transactionIdStart + 2) 0 [0],
    .commit (transactionIdStart + 2), .update (transactionIdStart + 1) 0 (.single 0 0 8)]

/-- The rollback of that change brings the deleted row back, for every transaction that starts
later. -/
theorem rollback_undeletes :
    let start : Database ℕ Unit := initial fun _ => 1
    let rest := Op.withoutAll (transactionIdStart + 1) (fun _ => []) changedAfterDelete ++
      [.rollback (transactionIdStart + 1)]
    let reader : Transaction Unit := { startTime := 5, transactionId := transactionIdStart + 3 }
    EachStep unconstrained (Admitted unconstrained) start
        (changedAfterDelete ++ [.rollback (transactionIdStart + 1)]) ∧
      EachStep unconstrained (Admitted unconstrained) start rest ∧
      ((start.run unconstrained (changedAfterDelete ++
        [.rollback (transactionIdStart + 1)])).tables 0).rows.map (shownTo reader) =
          [([7], false, some [7])] ∧
      ((start.run unconstrained rest).tables 0).rows.map (shownTo reader) =
        [([7], true, none)] := by
  decide

end Database

end DuckDB
