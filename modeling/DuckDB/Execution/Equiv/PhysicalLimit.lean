import DuckDB.Execution.PhysicalLimit
import Mathlib.Tactic.Common

/-!
# What LIMIT and OFFSET return

Without an offset the rows are right. With one, the first chunk decides: if it does not reach
beyond the offset, the operator returns an empty chunk, which ends the stream; if it does, the data
of each vector moves by the offset, but its null mask and its selection vector stay
(`execute_eq_iff`).
-/

namespace DuckDB

open DuckDB.Vector List

variable {α : Type}

/-- All rows that a child returns. -/
def childRows (children : List (ChildChunk α)) : List (List (Option α)) :=
  children.flatMap fun child => chunkRows child.data

variable {f : Vector α → Vector α} {count : ℕ}

theorem childRows_cons {child : ChildChunk α} {children : List (ChildChunk α)} :
    childRows (child :: children) = chunkRows child.data ++ childRows children := by
  rw [childRows, flatMap_cons, childRows]

@[simp] theorem length_chunkRows {data : List (Vector α)} :
    (chunkRows data).length = chunkSize data := by
  simp [chunkRows]

theorem ChildChunk.data_ne_nil (child : ChildChunk α) : child.data ≠ [] := by
  intro h
  have hpos := child.size_pos
  rw [h] at hpos
  exact absurd hpos (Nat.lt_irrefl 0)

theorem chunkSize_map (hf : ∀ v, (f v).count = count) (child : ChildChunk α) :
    chunkSize (child.data.map f) = count := by
  cases h : child.data with
  | nil => exact absurd h child.data_ne_nil
  | cons v data => exact hf v

theorem chunkRows_map (hf : ∀ v, (f v).count = count) (child : ChildChunk α) :
    chunkRows (child.data.map f)
      = (range count).map fun k => child.data.map fun v => (f v).row k := by
  simp only [chunkRows, chunkSize_map hf, map_map]
  rfl

theorem take_drop_chunkRows (data : List (Vector α)) {start : ℕ}
    (h : start + count ≤ chunkSize data) :
    ((chunkRows data).drop start).take count
      = (range count).map fun k => data.map (·.row (start + k)) := by
  apply ext_getElem
  · simp only [length_take, length_drop, length_chunkRows, length_map,
      length_range]
    omega
  · intro k h₁ h₂
    simp [chunkRows]

namespace PhysicalLimit

/-! ### Behind the offset -/

variable {limit offset : ℕ}

theorem getChunk_of_le {current : ℕ} (child : ChildChunk α) (h : offset ≤ current) :
    getChunk limit offset current child.data
      = child.data.map (truncate (min (limit + offset - current) (chunkSize child.data))) := by
  rw [getChunk, if_neg (Nat.not_lt.2 h)]
  split_ifs with hlast
  · rw [Nat.min_eq_left (by omega)]
  · rw [Nat.min_eq_right (by omega)]

theorem chunkRows_truncate {child : ChildChunk α} {n : ℕ} :
    chunkRows (child.data.map (truncate (min n (chunkSize child.data))))
      = (chunkRows child.data).take n := by
  have hle : 0 + min n (chunkSize child.data) ≤ chunkSize child.data := by omega
  have hrows := take_drop_chunkRows child.data hle
  simp only [drop_zero, Nat.zero_add] at hrows
  rw [chunkRows_map (f := truncate _) (fun _ => rfl), take_eq_take_min, length_chunkRows,
    hrows]
  rfl

/-- Once the offset is passed, the operator returns the next rows up to the limit. -/
theorem execute_of_le (limit offset : ℕ) (children : List (ChildChunk α)) (current : ℕ)
    (h : offset ≤ current) :
    execute limit offset children current
      = (childRows children).take (limit + offset - current) := by
  induction children generalizing current with
  | nil => simp [execute, childRows]
  | cons child children ih =>
    have hpos := child.size_pos
    simp only [execute, getChunk_of_le child h, chunkRows_truncate,
      chunkSize_map (f := truncate _) (fun _ => rfl)]
    split_ifs with hmax hempty
    · rw [Nat.sub_eq_zero_of_le hmax, take_zero]
    · omega
    · rw [ih _ (by omega), childRows_cons, take_append, length_chunkRows, Nat.sub_sub]

/-! ### The chunk with the offset -/

/-- A vector holds at the positions that the operator reads what the rows behind the offset hold:
its null mask and its selection vector are the same there. -/
def ShiftsTo (offset count : ℕ) (v : Vector α) : Prop :=
  ∀ k < count,
    v.nullmask (position v.selVector k) = v.nullmask (position v.selVector (offset + k)) ∧
    (v.nullmask (position v.selVector (offset + k)) = false →
      v.data (position v.selVector k + offset) = v.data (position v.selVector (offset + k)))

theorem row_slice_eq_iff {v : Vector α} {k : ℕ} :
    (slice offset count v).row k = v.row (offset + k) ↔
      v.nullmask (position v.selVector k) = v.nullmask (position v.selVector (offset + k)) ∧
      (v.nullmask (position v.selVector (offset + k)) = false →
        v.data (position v.selVector k + offset) = v.data (position v.selVector (offset + k))) := by
  by_cases h₁ : v.nullmask (position v.selVector k) <;>
    by_cases h₂ : v.nullmask (position v.selVector (offset + k)) <;> simp [row, slice, h₁, h₂]

/-- The first chunk is right if all its vectors are. -/
theorem chunkRows_slice_eq_iff (child : ChildChunk α) (h : offset + count ≤ chunkSize child.data) :
    chunkRows (child.data.map (slice offset count))
        = ((chunkRows child.data).drop offset).take count ↔
      ∀ v ∈ child.data, ShiftsTo offset count v := by
  rw [chunkRows_map (f := slice offset count) (fun _ => rfl), take_drop_chunkRows child.data h,
    map_inj_left]
  simp only [mem_range, map_inj_left, row_slice_eq_iff]
  exact ⟨fun hrows v hv k hk => hrows k hk v hv, fun hrows k hk v hv => hrows v hv k hk⟩

theorem getChunk_zero (child : ChildChunk α) (hoffset : 0 < offset) :
    getChunk limit offset 0 child.data = if chunkSize child.data ≥ offset
        then child.data.map (slice offset (min limit (chunkSize child.data - offset))) else [] := by
  simp only [getChunk, if_pos hoffset, Nat.zero_add, Nat.sub_zero]

/-- What the operator returns of a child whose first chunk reaches beyond the offset. -/
theorem execute_of_lt (child : ChildChunk α) (children : List (ChildChunk α)) (hoffset : 0 < offset)
    (hlimit : 0 < limit) (h : offset < chunkSize child.data) :
    execute limit offset (child :: children) 0
        = ((childRows (child :: children)).drop offset).take limit ↔
      ∀ v ∈ child.data, ShiftsTo offset (min limit (chunkSize child.data - offset)) v := by
  have hrest : ((childRows (child :: children)).drop offset).take limit
      = ((chunkRows child.data).drop offset).take (min limit (chunkSize child.data - offset))
        ++ (childRows children).take (limit + offset - chunkSize child.data) := by
    rw [childRows_cons, drop_append_of_le_length (by rw [length_chunkRows]; omega),
      take_append, length_drop, length_chunkRows, take_eq_take_min,
      length_drop, length_chunkRows]
    congr 2
    omega
  have hrows : execute limit offset (child :: children) 0
      = chunkRows (child.data.map (slice offset (min limit (chunkSize child.data - offset))))
        ++ (childRows children).take (limit + offset - chunkSize child.data) := by
    simp only [execute, getChunk_zero child hoffset, if_pos (Nat.le_of_lt h), Nat.zero_add,
      chunkSize_map (f := slice _ _) (fun _ => rfl),
      execute_of_le limit offset children _ (Nat.le_of_lt h)]
    rw [if_neg (by omega), if_neg (by omega)]
  rw [hrows, hrest, append_left_inj, chunkRows_slice_eq_iff child (by omega)]

/-- The operator stops at a first chunk that ends at the offset or before it. -/
theorem execute_eq_nil (child : ChildChunk α) (children : List (ChildChunk α))
    (hoffset : 0 < offset) (h : limit = 0 ∨ chunkSize child.data ≤ offset) :
    execute limit offset (child :: children) 0 = [] := by
  have hempty : chunkSize (getChunk limit offset 0 child.data) = 0 := by
    rw [getChunk_zero child hoffset]
    split_ifs with hreach
    · rw [chunkSize_map (f := slice _ _) (fun _ => rfl)]
      omega
    · rfl
  simp only [execute, if_pos hempty, ite_self]

/-! ### All streams -/

/-- For every stream and every split of it into chunks, the rows are those from `offset` on, at most
`limit` of them, if there is no offset, if there is nothing to return, or if the first chunk reaches
beyond the offset and its vectors may be moved. -/
theorem execute_eq_iff (limit offset : ℕ) (children : List (ChildChunk α)) :
    execute limit offset children 0 = ((childRows children).drop offset).take limit ↔
      offset = 0 ∨ limit = 0 ∨ (childRows children).length ≤ offset ∨
      ∃ child ∈ children.head?, offset < chunkSize child.data ∧
        ∀ v ∈ child.data, ShiftsTo offset (min limit (chunkSize child.data - offset)) v := by
  rcases Nat.eq_zero_or_pos offset with rfl | hoffset
  · rw [execute_of_le limit 0 children 0 (Nat.le_refl 0)]
    simp
  cases children with
  | nil => simp [execute, childRows]
  | cons child children =>
    simp only [hoffset.ne', false_or, head?_cons, Option.mem_some_iff, exists_eq_left']
    by_cases h : limit = 0 ∨ chunkSize child.data ≤ offset
    · rw [execute_eq_nil child children hoffset h, eq_comm, take_eq_nil_iff,
        drop_eq_nil_iff]
      grind
    · have hlength : chunkSize child.data ≤ (childRows (child :: children)).length := by
        simp [childRows]
      rw [execute_of_lt child children hoffset (by omega) (by omega)]
      grind

/-- Two rows, of which the first is NULL. -/
def nullThenOne : ChildChunk ℕ where
  data := [{ data := id, nullmask := (· == 0), count := 2 }]
  count_eq := by simp [chunkSize]
  size_pos := by decide

/-- The row behind `OFFSET 1` is NULL, since the null mask does not move. -/
theorem not_execute_nullThenOne :
    execute 1 1 [nullThenOne] 0 ≠ ((childRows [nullThenOne]).drop 1).take 1 := by
  decide

end PhysicalLimit

end DuckDB
