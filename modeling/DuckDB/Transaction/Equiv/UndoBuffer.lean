import DuckDB.Storage.Equiv.Geometry
import DuckDB.Storage.Equiv.VersionChains
import DuckDB.Transaction.TransactionManager

/-!
# Undo buffers, row by row

`UndoBuffer::Commit`, `Rollback` and `Cleanup` walk over the entries of one transaction. Seen from
one row, only the entries for that row count: `row?_commitUndo`, `row?_rollbackUndo` and
`row?_cleanupUndo` say what each of them does to the row, in terms of the pointers
(`Transaction.pointersOn`) to the transaction's versions of it.
-/

namespace DuckDB

open List UndoEntry

variable {V C : Type*}

/-- The entry is a change of the given row. -/
def UndoEntry.isOn (table row : ℕ) : UndoEntry C → Bool
  | .tuple _ t r => t == table && r == row
  | _ => false

namespace Transaction

/-- The places of the entries for the given row in an undo buffer, with indices from `first` on. -/
def indicesOn (table row : ℕ) (entries : List (UndoEntry C × ℕ)) : List ℕ :=
  (entries.filter (·.1.isOn table row)).map (·.2)

variable {row table : ℕ}

theorem indicesOn_cons {e : UndoEntry C × ℕ} {entries : List (UndoEntry C × ℕ)} :
    indicesOn table row (e :: entries) =
      if e.1.isOn table row then e.2 :: indicesOn table row entries
      else indicesOn table row entries := by
  by_cases he : e.1.isOn table row <;> simp [indicesOn, he]

/-- The versions of the given row that the transaction made, oldest first. -/
def pointersOn (table row : ℕ) (transaction : Transaction C) : List VersionPointer :=
  (indicesOn table row transaction.undoBuffer.zipIdx).map (⟨transaction.transactionId, ·⟩)

theorem owner_of_mem_pointersOn {transaction : Transaction C} {p : VersionPointer}
    (h : p ∈ transaction.pointersOn table row) : p.owner = transaction.transactionId := by
  obtain ⟨i, -, rfl⟩ := mem_map.1 h
  rfl

theorem nodup_pointersOn (table row : ℕ) (transaction : Transaction C) :
    (transaction.pointersOn table row).Nodup := by
  refine List.Nodup.map (fun i j h => by simpa using h) ?_
  have hsub : (indicesOn table row transaction.undoBuffer.zipIdx).Sublist
      (transaction.undoBuffer.zipIdx.map (·.2)) := filter_sublist.map _
  rw [zipIdx_map_snd] at hsub
  exact List.Nodup.sublist hsub nodup_range'

/-- A new tuple entry is a new version of its row. -/
theorem pointersOn_createEntry_tuple (flag : TupleFlag) (table row table' row' : ℕ)
    (transaction : Transaction C) :
    (transaction.createEntry (.tuple flag table row)).pointersOn table' row' =
      transaction.pointersOn table' row' ++
        if table = table' ∧ row = row' then
          [⟨transaction.transactionId, transaction.nextIndex⟩] else [] := by
  by_cases h : table = table' ∧ row = row' <;>
    simp [pointersOn, indicesOn, createEntry, zipIdx_append, filter_append,
      isOn, nextIndex, h]

theorem pointersOn_createEntry_other {entry : UndoEntry C} (transaction : Transaction C)
    (h : ∀ table row, entry.isOn table row = false) (table row : ℕ) :
    (transaction.createEntry entry).pointersOn table row = transaction.pointersOn table row := by
  simp [pointersOn, indicesOn, createEntry, zipIdx_append, filter_append, h]

end Transaction

/-! ### One row of one table -/

namespace Tables

variable {tables : Tables V}

theorem row?_eq (tables : Tables V) (table row : ℕ) :
    tables.row? table row = (tables table).rows[row]? :=
  (tables table).row?_eq row

theorem row?_modifyRow (table row : ℕ) (f : RowSlot V → RowSlot V) (tables : Tables V)
    (table' row' : ℕ) : (tables.modifyRow table row f).row? table' row' =
      if table = table' ∧ row = row' then (tables.row? table' row').map f
      else tables.row? table' row' := by
  rw [row?_eq, row?_eq, modifyRow, modifyTable]
  by_cases ht : table = table'
  · subst ht
    rw [Function.update_self, DataTable.rows_modifyRow, getElem?_modify]
    by_cases hr : row = row'
    · simp [hr]
    · simp [hr]
  · simp [ht, Function.update_of_ne (Ne.symm ht)]

theorem row?_countCommit {flag : TupleFlag} {table : ℕ} {table' row' : ℕ} :
    (tables.modifyTable table (DataTable.countCommit flag)).row? table' row' =
      tables.row? table' row' := by
  rw [row?_eq, row?_eq, modifyTable]
  by_cases ht : table = table'
  · subst ht
    rw [Function.update_self, DataTable.rows_countCommit]
  · rw [Function.update_of_ne (Ne.symm ht)]

theorem row?_foldl {step : Tables V → UndoEntry C × ℕ → Tables V} {g : ℕ → RowSlot V → RowSlot V}
    (hstep : ∀ tables e table row, (step tables e).row? table row =
      if e.1.isOn table row then (tables.row? table row).map (g e.2) else tables.row? table row)
    (entries : List (UndoEntry C × ℕ)) {table row : ℕ} :
    (entries.foldl step tables).row? table row = (tables.row? table row).map fun slot =>
        (Transaction.indicesOn table row entries).foldl (fun slot i => g i slot) slot := by
  induction entries generalizing tables with
  | nil => simp [Transaction.indicesOn]
  | cons e entries ih =>
    rw [foldl_cons, ih, hstep, Transaction.indicesOn_cons]
    by_cases he : e.1.isOn table row
    · rw [if_pos he, if_pos he, Option.map_map]
      rfl
    · rw [if_neg he, if_neg he]

end Tables

namespace Transaction

theorem isOn_tuple {flag : TupleFlag} {t r table row : ℕ} :
    (tuple flag t r : UndoEntry C).isOn table row = true ↔ t = table ∧ r = row := by
  simp [isOn]

theorem row?_commitUndo (commitId : ℕ) (transaction : Transaction C) (tables : Tables V)
    (table row : ℕ) : (transaction.commitUndo commitId tables).row? table row =
      (tables.row? table row).map fun slot => (transaction.pointersOn table row).foldl
        (fun slot p => slot.setVersionNumber p commitId) slot := by
  refine (Tables.row?_foldl (g := fun i => RowSlot.setVersionNumber ⟨transaction.transactionId, i⟩
    commitId) (fun tables e table row => ?_) _).trans ?_
  · obtain ⟨e, i⟩ := e
    cases e with
    | tuple flag t r =>
      rw [commitEntry, Tables.row?_countCommit, Tables.row?_modifyRow]
      simp only [isOn_tuple]
    | _ => simp [commitEntry, isOn]
  · simp only [pointersOn, foldl_map]

theorem row?_rollbackUndo (transaction : Transaction C) (tables : Tables V) (table row : ℕ) :
    (transaction.rollbackUndo tables).row? table row =
      (tables.row? table row).map fun slot => (transaction.pointersOn table row).reverse.foldl
        (fun slot p => slot.rollback p) slot := by
  refine (Tables.row?_foldl (g := fun i => RowSlot.rollback ⟨transaction.transactionId, i⟩)
    (fun tables e table row => ?_) _).trans ?_
  · obtain ⟨e, i⟩ := e
    cases e with
    | tuple flag t r =>
      rw [rollbackEntry, Tables.row?_modifyRow]
      simp only [isOn_tuple]
    | _ => simp [rollbackEntry, isOn]
  · have hrev : indicesOn table row transaction.undoBuffer.zipIdx.reverse =
        (indicesOn table row transaction.undoBuffer.zipIdx).reverse := by
      simp [indicesOn, filter_reverse]
    rw [hrev]
    simp only [pointersOn, ← map_reverse, foldl_map]

theorem row?_cleanupUndo (transaction : Transaction C) (tables : Tables V) (table row : ℕ) :
    (cleanupUndo tables transaction).row? table row =
      (tables.row? table row).map fun slot => (transaction.pointersOn table row).foldl
        (fun slot p => slot.cleanup p) slot := by
  refine (Tables.row?_foldl (g := fun i => RowSlot.cleanup ⟨transaction.transactionId, i⟩)
    (fun tables e table row => ?_) _).trans ?_
  · obtain ⟨e, i⟩ := e
    cases e with
    | tuple flag t r =>
      rw [cleanupEntry, Tables.row?_modifyRow]
      simp only [isOn_tuple]
    | _ => simp [cleanupEntry, isOn]
  · simp only [pointersOn, foldl_map]

end Transaction

end DuckDB
