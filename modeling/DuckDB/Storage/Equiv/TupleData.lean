import DuckDB.Storage.TupleData
import Mathlib.Algebra.Order.Group.Nat
import Mathlib.Algebra.GroupWithZero.Nat

/-!
# Reading a row from the undo buffer

* `take_drop_serialize`: the bytes of a column in a serialized row are the entry of the column.
* `retrieveVersionedRows_eq_iff`: rows are read from the undo buffer as they are from the base table
  exactly if none of the entries is a NULL.
-/

namespace DuckDB

open List

variable {types : List StoredType}
  {vector : ResultVector} {α : Type*} {source : List α} {null : α → Bool}
  {entry : α → List UInt8}

theorem accumulativeTupleSize_eq (start : ℕ) (types : List StoredType) {j : ℕ}
    (hj : j < types.length) : (accumulativeTupleSize start types)[j]? =
      some (start + ((types.take j).map StoredType.size).sum) := by
  induction types generalizing start j with
  | nil => simp at hj
  | cons type types ih =>
    cases j with
    | zero => rfl
    | succ j =>
      rw [accumulativeTupleSize, getElem?_cons_succ, ih _ (by simpa using hj),
        take_succ_cons, map_cons, sum_cons, Nat.add_assoc]

namespace StoredRow

variable {row : StoredRow types}

theorem serialize_eq : row.serialize = row.columns.flatten := by
  have hfold : ∀ (columns : List (List UInt8)) (target : List UInt8),
      columns.foldl (fun target entry => target ++ entry) target = target ++ columns.flatten := by
    intro columns
    induction columns with
    | nil => simp
    | cons entry columns ih => intro target; rw [foldl_cons, ih]; simp
  rw [serialize, hfold, nil_append]

theorem length_columns (row : StoredRow types) : row.columns.length = types.length := by
  simpa using congrArg List.length row.sizes

/-- The bytes of a column lie between the sizes of the columns before it. -/
theorem take_drop_serialize {column : Fin types.length} :
    (row.serialize.drop ((types.take column).map StoredType.size).sum).take (types.get column).size =
      row.entry column := by
  have hlt : column.val < row.columns.length := column.isLt.trans_eq row.length_columns.symm
  have hsum : ((types.take column).map StoredType.size).sum =
      (row.columns.take column).flatten.length := by
    rw [map_take, ← row.sizes, ← map_take, length_flatten]
  have hsize : (types.get column).size = row.columns[column.val].length := by
    have hget := congrArg (·[column.val]?) row.sizes
    simpa [hlt] using hget.symm
  have hsplit : row.columns.flatten = (row.columns.take column).flatten ++
      (row.columns[column.val] ++ (row.columns.drop (column + 1)).flatten) := by
    rw [← flatten_cons, ← drop_eq_getElem_cons hlt, ← flatten_append, take_append_drop]
  rw [serialize_eq, hsum, hsize, hsplit, drop_left, take_left, entry,
    getElem?_eq_getElem hlt, Option.getD_some]

end StoredRow

/-! ### Entries and nullmasks -/

theorem data_foldl_push : (source.foldl (fun v a => v.push (entry a) (null a)) vector).data =
      vector.data ++ source.map entry := by
  induction source generalizing vector with
  | nil => simp
  | cons a source ih =>
    rw [foldl_cons, ih]
    simp [ResultVector.push]

/-- The nullmask grows by the positions of the NULLs. -/
theorem mem_nullmask_foldl_push {i : ℕ} :
    i ∈ (source.foldl (fun v a => v.push (entry a) (null a)) vector).nullmask ↔
      i ∈ vector.nullmask ∨ ∃ k a, source[k]? = some a ∧ null a ∧ i = vector.data.length + k := by
  induction source generalizing vector with
  | nil => simp
  | cons a source ih =>
    have hpush : i ∈ (vector.push (entry a) (null a)).nullmask ↔
        i ∈ vector.nullmask ∨ null a ∧ i = vector.data.length := by
      by_cases ha : null a <;> simp [ResultVector.push, ha, or_comm]
    have hlength : (vector.push (entry a) (null a)).data.length = vector.data.length + 1 := by
      simp [ResultVector.push]
    rw [foldl_cons, ih, hpush, hlength, or_assoc]
    refine or_congr_right ⟨?_, ?_⟩
    · rintro (⟨ha, rfl⟩ | ⟨k, b, hk, hb, rfl⟩)
      · exact ⟨0, a, rfl, ha, rfl⟩
      · exact ⟨k + 1, b, hk, hb, by omega⟩
    · rintro ⟨k, b, hk, hb, rfl⟩
      cases k with
      | zero =>
        obtain rfl : a = b := by simpa using hk
        exact .inl ⟨hb, rfl⟩
      | succ k => exact .inr ⟨k, b, by simpa using hk, hb, by omega⟩

theorem ResultVector.ext_iff' {v w : ResultVector} :
    v = w ↔ v.data = w.data ∧ v.nullmask = w.nullmask := by
  cases v
  cases w
  simp

/-- Entries that are the same get the same nullmask exactly if none of them is NULL. -/
theorem foldl_push_eq_iff : source.foldl (fun v a => v.push (entry a) false) vector =
        source.foldl (fun v a => v.push (entry a) (null a)) vector ↔
      ∀ a ∈ source, null a = false := by
  rw [ResultVector.ext_iff', data_foldl_push, data_foldl_push, and_iff_right rfl, Finset.ext_iff]
  constructor
  · intro hmask a ha
    by_contra hnull
    obtain ⟨k, hk⟩ := mem_iff_getElem?.1 ha
    have hset := (hmask (vector.data.length + k)).2 ((mem_nullmask_foldl_push ..).2
      (.inr ⟨k, a, hk, by simpa using hnull, rfl⟩))
    rcases (mem_nullmask_foldl_push ..).1 hset with hold | ⟨_, _, _, hfalse, _⟩
    · have := vector.nullmask_lt _ hold
      omega
    · exact absurd hfalse Bool.false_ne_true
  · intro hnone i
    rw [mem_nullmask_foldl_push, mem_nullmask_foldl_push]
    refine or_congr_right ⟨?_, ?_⟩
    · rintro ⟨_, _, _, hfalse, _⟩
      exact absurd hfalse Bool.false_ne_true
    · rintro ⟨k, a, hk, hnull, -⟩
      rw [hnone a (mem_of_getElem? hk)] at hnull
      exact absurd hnull Bool.false_ne_true

theorem retrieveVersionedRows_column {rows : List (StoredRow types)} {column : Fin types.length} :
    (rows.map StoredRow.serialize).foldl (fun vector tuple => vector.push
        ((tuple.drop ((accumulativeTupleSize 0 types)[column.val]?.getD 0)).take
          (types.get column).size) false) vector =
      rows.foldl (fun vector row => vector.push (row.entry column) false) vector := by
  rw [foldl_map, accumulativeTupleSize_eq 0 types column.isLt, Option.getD_some, Nat.zero_add]
  simp only [StoredRow.take_drop_serialize]

/-- **Old versions read like base rows** exactly if none of the entries that are read is a NULL.
The vectors of the result may already have any entries. -/
theorem retrieveVersionedRows_eq_iff (strings : List UInt8 → List UInt8)
    (rows : List (StoredRow types)) (result : List (Fin types.length × ResultVector)) :
    retrieveVersionedRows (rows.map StoredRow.serialize) result =
        retrieveBaseTableRows strings rows result ↔
      ∀ read ∈ result, ∀ row ∈ rows,
        (types.get read.1).isNullValue strings (row.entry read.1) = false := by
  rw [retrieveVersionedRows, retrieveBaseTableRows, map_inj_left]
  refine forall₂_congr fun read _ => ?_
  rw [Prod.mk.injEq, and_iff_right rfl, retrieveVersionedRows_column, appendFromStorage, foldl_map]
  exact foldl_push_eq_iff ..

/-- An INTEGER column with a NULL. -/
def nullInteger : StoredRow [.integer] := ⟨[[0, 0, 0, 0x80]], rfl⟩

/-- The NULL is read as the number -2147483648 from the undo buffer. -/
theorem retrieveVersionedRows_nullInteger :
    retrieveVersionedRows [nullInteger.serialize] [(0, .empty)] ≠
      retrieveBaseTableRows (fun _ => []) [nullInteger] [(0, .empty)] := by
  decide

end DuckDB
