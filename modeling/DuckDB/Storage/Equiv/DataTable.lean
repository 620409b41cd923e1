import DuckDB.Storage.Equiv.Geometry
import DuckDB.Transaction.History
import Mathlib.Data.List.TakeWhile

/-!
# What `Append`, `Delete` and `Update` do to a table

* `append_spec`: the appended rows come last, with one undo entry each.
* `append_eq_none_iff`: it does not throw exactly when they are all appended.
* `pushable_modifyRow`: which rows `Delete` and `Update` can change does not depend on the rows they
  have changed so far.
-/

namespace DuckDB

open List

variable {V C : Type*}

/-! ### Writing to the places of a list -/

variable {α : Type*} {l : List α}

theorem length_foldl_set (writes : List (ℕ × α)) (l : List α) :
    (writes.foldl (fun l w => l.set w.1 w.2) l).length = l.length := by
  induction writes generalizing l with
  | nil => rfl
  | cons w writes ih => simp [ih]

theorem getElem?_foldl_set_of_ne {writes : List (ℕ × α)} {i : ℕ} (h : ∀ w ∈ writes, w.1 ≠ i) :
    (writes.foldl (fun l w => l.set w.1 w.2) l)[i]? = l[i]? := by
  induction writes generalizing l with
  | nil => rfl
  | cons w writes ih =>
    obtain ⟨hw, hwrites⟩ := forall_mem_cons.1 h
    rw [foldl_cons, ih hwrites, getElem?_set_ne hw]

theorem getElem?_foldl_set_append {before : List (ℕ × α)} {i : ℕ} {value : α} {after : List (ℕ × α)}
    (h : ∀ w ∈ after, w.1 ≠ i) :
    ((before ++ (i, value) :: after).foldl (fun l w => l.set w.1 w.2) l)[i]? =
      if i < l.length then some value else none := by
  rw [foldl_append, foldl_cons, getElem?_foldl_set_of_ne h, getElem?_set_self',
    ← length_foldl_set before l]
  split_ifs with hi
  · simp [hi]
  · simp [hi]

theorem UpdateChunk.row_mem_of_mem_cells (updates : UpdateChunk V) {cell : ℕ × ℕ × V}
    (h : cell ∈ updates.cells) : cell.1 ∈ updates.rowIdentifiers := by
  obtain ⟨column, -, hcell⟩ := mem_flatMap.1 h
  obtain ⟨e, he, rfl⟩ := mem_map.1 hcell
  exact (of_mem_zip he).1

namespace DataTable

variable {transaction : Transaction C} {t : DataTable V} {chunk : StorageChunk V} {row : ℕ}
  {after : RowSlot V → RowSlot V} (checks : TableChecks V C) (table : ℕ)

/-! ### `Delete` and `Update` -/

variable {ids : List ℕ}

theorem row?_modifyRow (row : ℕ) (f : RowSlot V → RowSlot V) (t : DataTable V) (row' : ℕ) :
    (t.modifyRow row f).row? row' = if row = row' then (t.row? row').map f else t.row? row' := by
  rw [row?_eq, row?_eq, rows_modifyRow, getElem?_modify]
  by_cases h : row = row' <;> simp [h]

theorem conflicts_createEntry {entry : UndoEntry C} {slot : RowSlot V} :
    conflicts (transaction.createEntry entry) slot = conflicts transaction slot := rfl

theorem pushable_iff : pushable transaction t chunk row ↔
      chunk.holds row ∧ ∃ slot, t.row? row = some slot ∧ conflicts transaction slot = false := by
  unfold pushable
  by_cases hc : chunk.holds row <;> simp [hc, Option.any_eq_true]

theorem pushable_modifyRow (hrow : pushable transaction t chunk row) (entry : UndoEntry C)
    {f : RowSlot V → RowSlot V}
    (hf : ∀ slot, (f slot).head?.map (·.versionNumber) = some transaction.transactionId)
    (row' : ℕ) : pushable (transaction.createEntry entry) (t.modifyRow row f) chunk row' =
      pushable transaction t chunk row' := by
  obtain ⟨hholds, slot, hslot, hconf⟩ := pushable_iff.1 hrow
  by_cases hrr : row = row'
  · subst hrr
    rw [hrow]
    refine pushable_iff.2 ⟨hholds, f slot, by simp [row?_modifyRow, hslot], ?_⟩
    obtain ⟨v, hv, hnum⟩ := Option.map_eq_some_iff.1 (hf slot)
    simp [conflicts, hv, hnum, Transaction.createEntry]
  · simp only [pushable, row?_modifyRow, hrr, if_false, conflicts_createEntry]

theorem transactionId_pushRows (flag : TupleFlag) (conflict : String)
    (after : RowSlot V → RowSlot V) (chunk : StorageChunk V) (table : ℕ) (ids : List ℕ)
    (transaction : Transaction C) (t : DataTable V) :
    (pushRows flag conflict after chunk table ids transaction t).1.transactionId =
      transaction.transactionId := by
  induction ids generalizing transaction t with
  | nil => rfl
  | cons id ids ih =>
    rw [pushRows]
    split
    · rfl
    · split_ifs
      · rfl
      · exact ih _ _

/-- The exception for a row that cannot be changed. -/
def pushError (conflict : String) (t : DataTable V) (chunk : StorageChunk V) (row : ℕ) :
    Exception :=
  if chunk.holds row ∧ (t.row? row).isSome then .transactionException conflict else .assertion

theorem pushRows_of_pushable (h : pushable transaction t chunk row) (flag : TupleFlag)
    (conflict : String) (after : RowSlot V → RowSlot V) (table : ℕ) (ids : List ℕ) :
    pushRows flag conflict after chunk table (row :: ids) transaction t =
      pushRows flag conflict after chunk table ids (transaction.createEntry (.tuple flag table row))
        (t.modifyRow row fun r => after (r.pushTuple
          ⟨transaction.transactionId, transaction.nextIndex⟩ transaction.transactionId)) := by
  obtain ⟨hholds, slot, hslot, hconf⟩ := pushable_iff.1 h
  rw [pushRows, if_pos hholds, hslot]
  simp only [hconf, Bool.false_eq_true, if_false]

theorem pushRows_of_not_pushable (h : ¬pushable transaction t chunk row) (flag : TupleFlag)
    (conflict : String) (after : RowSlot V → RowSlot V) (table : ℕ) (ids : List ℕ) :
    pushRows flag conflict after chunk table (row :: ids) transaction t =
      (transaction, t, some (pushError conflict t chunk row)) := by
  rw [pushRows, pushError]
  by_cases hholds : chunk.holds row
  · rw [if_pos hholds]
    cases hslot : t.row? row with
    | none => simp
    | some slot =>
      have hconf : conflicts transaction slot = true := by
        by_contra hconf
        exact h (pushable_iff.2 ⟨hholds, slot, hslot, by simpa using hconf⟩)
      simp [hholds, hconf]
  · simp [hholds]

section

variable (hafter : ∀ slot, (after slot).versionPointers = slot.versionPointers)

include hafter

variable {ids : List ℕ} {conflict : String}

theorem pushable_pushTuple (h : pushable transaction t chunk row) (entry : UndoEntry C) :
    pushable (transaction.createEntry entry) (t.modifyRow row fun r => after (r.pushTuple
      ⟨transaction.transactionId, transaction.nextIndex⟩ transaction.transactionId)) chunk =
        pushable transaction t chunk :=
  funext (pushable_modifyRow h entry fun r => by simp [RowSlot.head?, hafter, RowSlot.pushTuple])

/-- The loop of `Delete` and `Update` throws at the first row that cannot be changed. -/
theorem pushRows_error (flag : TupleFlag) {table : ℕ} :
    (pushRows flag conflict after chunk table ids transaction t).2.2 =
      (ids.find? fun row => !pushable transaction t chunk row).map (pushError conflict t chunk) := by
  induction ids generalizing transaction t with
  | nil => rfl
  | cons id ids ih =>
    by_cases hpush : pushable transaction t chunk id
    · have herror : ∀ f : RowSlot V → RowSlot V,
          pushError conflict (t.modifyRow id f) chunk = pushError conflict t chunk := by
        intro f
        funext row
        have hsome : ((t.modifyRow id f).row? row).isSome = (t.row? row).isSome := by
          rw [row?_modifyRow]
          split_ifs <;> simp
        simp only [pushError, hsome]
      rw [pushRows_of_pushable hpush, ih]
      simp only [pushable_pushTuple hafter hpush, herror, find?_cons, hpush, Bool.not_true]
    · rw [pushRows_of_not_pushable hpush, find?_cons]
      simp only [hpush, Bool.not_false, Option.map_some]

theorem undoBuffer_pushRows (flag : TupleFlag) {table : ℕ} :
    (pushRows flag conflict after chunk table ids transaction t).1.undoBuffer =
      transaction.undoBuffer ++
        (ids.takeWhile (pushable transaction t chunk)).map (.tuple flag table) := by
  induction ids generalizing transaction t with
  | nil => simp [pushRows]
  | cons id ids ih =>
    by_cases hpush : pushable transaction t chunk id
    · rw [pushRows_of_pushable hpush, ih, pushable_pushTuple hafter hpush,
        takeWhile_cons_of_pos hpush, map_cons]
      simp [Transaction.createEntry]
    · rw [pushRows_of_not_pushable hpush, takeWhile_cons_of_neg hpush, map_nil, append_nil]

end

theorem cardinality_pushRows {flag : TupleFlag} {conflict : String} {table : ℕ} :
    (pushRows flag conflict after chunk table ids transaction t).2.1.cardinality =
      t.cardinality := by
  induction ids generalizing transaction t with
  | nil => rfl
  | cons id ids ih =>
    by_cases hpush : pushable transaction t chunk id
    · rw [pushRows_of_pushable hpush, ih]
      rfl
    · rw [pushRows_of_not_pushable hpush]

theorem pushRows_eq_none_iff (hafter : ∀ slot, (after slot).versionPointers = slot.versionPointers)
    (flag : TupleFlag) (conflict : String) (chunk : StorageChunk V) (table : ℕ) (ids : List ℕ)
    (transaction : Transaction C) (t : DataTable V) :
    (pushRows flag conflict after chunk table ids transaction t).2.2 = none ↔
      ids.takeWhile (pushable transaction t chunk) = ids := by
  rw [pushRows_error hafter, Option.map_eq_none_iff, find?_eq_none, takeWhile_eq_self_iff]
  simp

theorem pushedRows_sublist : (pushedRows transaction t ids).Sublist ids := by
  cases ids with
  | nil => exact List.Sublist.refl _
  | cons first rest =>
    simp only [pushedRows]
    cases t.getChunk first with
    | none => exact nil_sublist _
    | some chunk => exact takeWhile_sublist _

theorem delete_eq_none_iff (ids : List ℕ) (transaction : Transaction C) (t : DataTable V) :
    (delete table ids transaction t).2.2 = none ↔ pushedRows transaction t ids = ids := by
  cases ids with
  | nil => simp [delete, pushedRows]
  | cons first rest =>
    cases hchunk : t.getChunk first with
    | none => simp [delete, pushedRows, hchunk]
    | some chunk =>
      have hafter : ∀ slot : RowSlot V,
          slot.setDeleted.versionPointers = slot.versionPointers := fun _ => rfl
      simp only [delete, pushedRows, hchunk]
      exact pushRows_eq_none_iff hafter _ _ _ _ _ _ _

theorem update_eq_none_iff (updates : UpdateChunk V) (transaction : Transaction C)
    (t : DataTable V) : (update checks table updates transaction t).2.2 = none ↔
      updates.rowIdentifiers = [] ∨
        (checks.verifyUpdate t updates = none ∧ checks.uniqueUpdate transaction t updates = none ∧
          pushedRows transaction t updates.rowIdentifiers = updates.rowIdentifiers) := by
  cases hids : updates.rowIdentifiers with
  | nil => simp [update, hids]
  | cons first rest =>
    simp only [update, hids, pushedRows]
    cases hverify : checks.verifyUpdate t updates with
    | some e => simp
    | none =>
      cases hchunk : t.getChunk first with
      | none => simp
      | some chunk =>
        cases hunique : checks.uniqueUpdate transaction t updates with
        | some e => simp
        | none =>
          have hafter : ∀ slot : RowSlot V, (id slot).versionPointers = slot.versionPointers :=
            fun _ => rfl
          have hnone := pushRows_eq_none_iff hafter .updateTuple "Conflict on tuple update!" chunk
            table (first :: rest) transaction t
          simp only [reduceCtorEq, true_and, false_or, ← hnone]
          split
          · next e he => simp [he]
          · next he => simp [he]

/-! ### `Append` -/

theorem pushDeletedEntries_append (firstRow : ℕ) (xs ys : List (List V))
    (transaction : Transaction C) : pushDeletedEntries table firstRow (xs ++ ys) transaction =
      ((pushDeletedEntries table (firstRow + xs.length) ys
          (pushDeletedEntries table firstRow xs transaction).1).1,
        (pushDeletedEntries table firstRow xs transaction).2 ++
          (pushDeletedEntries table (firstRow + xs.length) ys
            (pushDeletedEntries table firstRow xs transaction).1).2) := by
  induction xs generalizing firstRow transaction with
  | nil => rfl
  | cons x xs ih =>
    simp only [cons_append, pushDeletedEntries, length_cons]
    rw [ih, Nat.add_right_comm, Nat.add_assoc]

theorem transactionId_pushDeletedEntries (firstRow : ℕ) (tuples : List (List V))
    (transaction : Transaction C) :
    (pushDeletedEntries table firstRow tuples transaction).1.transactionId =
      transaction.transactionId := by
  induction tuples generalizing firstRow transaction with
  | nil => rfl
  | cons tuple tuples ih => exact ih _ _

theorem undoBuffer_pushDeletedEntries {firstRow : ℕ} {tuples : List (List V)} :
    (pushDeletedEntries table firstRow tuples transaction).1.undoBuffer = transaction.undoBuffer ++
      (tuples.zipIdx firstRow).map fun e => .tuple .insertTuple table e.2 := by
  induction tuples generalizing firstRow transaction with
  | nil => simp [pushDeletedEntries]
  | cons tuple tuples ih =>
    rw [pushDeletedEntries, ih]
    simp [Transaction.createEntry]

/-- **`Append`**: the rows go to the end of the table, wherever the last chunk is full. -/
theorem append_spec (chunk : DataChunk V) (transaction : Transaction C) (t : DataTable V) :
    let pushed := pushDeletedEntries table t.rows.length (appendedRows checks chunk transaction t)
      transaction
    (append checks table chunk transaction t).1 = pushed.1 ∧
      (append checks table chunk transaction t).2.1.rows = t.rows ++ pushed.2 := by
  unfold append appendedRows
  by_cases hempty : chunk.rows.isEmpty
  · have hnil : chunk.rows = [] := List.isEmpty_iff.1 hempty
    simp [hnil, pushDeletedEntries]
  · rw [if_neg hempty]
    by_cases hcount : chunk.rows.any (·.length != t.columnCount)
    · simp [hcount, pushDeletedEntries]
    · rw [if_neg hcount]
      cases hv : checks.verifyAppend t chunk with
      | some e => simp [pushDeletedEntries]
      | none =>
        cases hu : checks.uniqueAppend transaction t chunk with
        | some e => simp [pushDeletedEntries]
        | none =>
          have hcond : ¬((chunk.rows.any (·.length != t.columnCount) ||
              (none : Option Exception).isSome || (none : Option Exception).isSome) = true) := by
            simpa using hcount
          rw [if_neg hcond]
          simp only [t.tailChunk_end]
          generalize hk : min (storageChunkSize - t.tailChunk.count) chunk.rows.length = k
          have hle : k ≤ chunk.rows.length := hk ▸ min_le_right _ _
          split_ifs with hall
          · -- everything fits into the last chunk
            rw [hall, take_length]
            exact ⟨rfl, rows_extendTail⟩
          · have happ := pushDeletedEntries_append table t.rows.length (chunk.rows.take k)
              (chunk.rows.drop k) transaction
            rw [take_append_drop, length_take, min_eq_left hle] at happ
            rw [happ]
            exact ⟨rfl, by rw [rows_addChunk, rows_extendTail, append_assoc]⟩

theorem cardinality_append {chunk : DataChunk V} :
    (append checks table chunk transaction t).2.1.cardinality = t.cardinality := by
  unfold append
  split_ifs
  · rfl
  · rfl
  · cases checks.verifyAppend t chunk with
    | some e => rfl
    | none =>
      cases checks.uniqueAppend transaction t chunk with
      | some e => rfl
      | none =>
        simp only
        split_ifs <;> rfl

theorem append_eq_none_iff (chunk : DataChunk V) (transaction : Transaction C) (t : DataTable V) :
    (append checks table chunk transaction t).2.2 = none ↔
      appendedRows checks chunk transaction t = chunk.rows := by
  unfold append appendedRows
  by_cases hempty : chunk.rows.isEmpty
  · have hnil : chunk.rows = [] := List.isEmpty_iff.1 hempty
    simp [hnil]
  · have hne : [] ≠ chunk.rows := fun hnil => hempty (by simp [← hnil])
    rw [if_neg hempty]
    by_cases hcount : chunk.rows.any (·.length != t.columnCount)
    · simp [hcount, hne]
    · rw [if_neg hcount]
      cases hv : checks.verifyAppend t chunk with
      | some e => simp [hne]
      | none =>
        cases hu : checks.uniqueAppend transaction t chunk with
        | some e => simp [hne]
        | none =>
          have hcond : ¬((chunk.rows.any (·.length != t.columnCount) ||
              (none : Option Exception).isSome || (none : Option Exception).isSome) = true) := by
            simpa using hcount
          rw [if_neg hcond]
          simp only [iff_true]
          split_ifs <;> rfl

end DataTable

end DuckDB
