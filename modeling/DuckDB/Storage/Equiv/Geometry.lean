import DuckDB.Storage.DataTable
import Mathlib.Algebra.GroupWithZero.Nat

/-!
# Row numbers and storage chunks

The chunk structure of a table is invisible through row numbers: `t.rows` lists the rows of all
chunks in order, and

* `row?_eq`: looking a row up through `GetChunk` is looking it up in `t.rows`,
* `getChunk_eq_none_iff`: `GetChunk` throws exactly for row numbers past the end,
* `rows_modifyRow`, `rows_extendTail`, `rows_addChunk`: what the operations do to `t.rows`.
-/

namespace DuckDB

open List StorageChunk

variable {V C : Type*} {n row i : ℕ} {chunks : List (StorageChunk V)}
  {c chunk : StorageChunk V} {α : Type*} {l₁ l₂ : List α}

theorem modify_append_of_lt (f : α → α) (h : i < l₁.length) :
    (l₁ ++ l₂).modify i f = l₁.modify i f ++ l₂ := by
  induction l₁ generalizing i with
  | nil => simp at h
  | cons a l₁ ih =>
    cases i with
    | zero => rfl
    | succ i =>
      simp only [cons_append, modify_succ_cons]
      rw [ih (by simpa using h)]

theorem modify_append_of_le (f : α → α) (h : l₁.length ≤ i) :
    (l₁ ++ l₂).modify i f = l₁ ++ l₂.modify (i - l₁.length) f := by
  induction l₁ generalizing i with
  | nil => simp
  | cons a l₁ ih =>
    cases i with
    | zero => simp at h
    | succ i =>
      simp only [cons_append, modify_succ_cons, length_cons]
      rw [ih (by simpa using h), Nat.add_sub_add_right]

theorem StorageChunk.holds_iff : c.holds row ↔ c.start ≤ row ∧ row < c.start + c.count := by
  simp [holds]

/-! ### Contiguous chunk lists -/

theorem endOf_eq : endOf n chunks = n + (chunks.flatMap (·.rows)).length := by
  induction chunks generalizing n with
  | nil => rfl
  | cons c cs ih =>
    rw [endOf, ih, flatMap_cons, length_append]
    simp only [StorageChunk.count]
    omega

/-- No chunk of a list that starts at `n` holds a row number below `n`. -/
theorem Contiguous.not_holds (h : Contiguous n chunks) (hrow : row < n) :
    ∀ c ∈ chunks, c.holds row = false := by
  induction chunks generalizing n with
  | nil => simp
  | cons c cs ih =>
    intro d hd
    rcases mem_cons.1 hd with rfl | hd
    · have := h.1
      simp only [holds, decide_eq_false_iff_not]
      omega
    · exact ih h.2 (by omega) d hd

theorem Contiguous.lookup (h : Contiguous n chunks) (hrow : n ≤ row) :
    ((chunks.find? (·.holds row)).bind fun c => c.rows[row - c.start]?) =
      (chunks.flatMap (·.rows))[row - n]? := by
  induction chunks generalizing n with
  | nil => simp
  | cons c cs ih =>
    have hstart := h.1
    rw [flatMap_cons]
    by_cases hc : c.holds row
    · have hin := StorageChunk.holds_iff.1 hc
      have hlen : row - n < c.rows.length := by
        simp only [StorageChunk.count] at hin
        omega
      simp only [find?_cons, hc, Option.bind_some, hstart, getElem?_append_left hlen]
    · have hout : n + c.count ≤ row := by
        have := mt StorageChunk.holds_iff.2 hc
        omega
      have hlen : c.rows.length ≤ row - n := by
        simp only [StorageChunk.count] at hout
        omega
      simp only [find?_cons, hc, ih h.2 hout, getElem?_append_right hlen,
        StorageChunk.count, Nat.sub_sub]

theorem Contiguous.find?_eq_none_iff (h : Contiguous n chunks) (hrow : n ≤ row) :
    chunks.find? (·.holds row) = none ↔ endOf n chunks ≤ row := by
  induction chunks generalizing n with
  | nil => simp [endOf, hrow]
  | cons c cs ih =>
    have hstart := h.1
    by_cases hc : c.holds row
    · have hin := holds_iff.1 hc
      simp only [find?_cons, hc, endOf, endOf_eq, reduceCtorEq, false_iff]
      omega
    · have hout := mt holds_iff.2 hc
      simp only [find?_cons, hc, endOf]
      exact ih h.2 (by omega)

theorem Contiguous.flatMap_modify (f : RowSlot V → RowSlot V) (h : Contiguous n chunks)
    (hrow : n ≤ row) :
    (chunks.map fun c => if c.holds row then c.modifyRow (row - c.start) f else c).flatMap (·.rows) =
      (chunks.flatMap (·.rows)).modify (row - n) f := by
  induction chunks generalizing n with
  | nil => simp
  | cons c cs ih =>
    have hstart := h.1
    rw [map_cons, flatMap_cons, flatMap_cons]
    by_cases hc : c.holds row
    · have hin := StorageChunk.holds_iff.1 hc
      have hrest : (cs.map fun d => if d.holds row then d.modifyRow (row - d.start) f else d) = cs := by
        -- the later chunks start behind this row
        refine (map_congr_left fun d hd => ?_).trans (map_id cs)
        have hd' : d.holds row = false := h.2.not_holds (by omega) d hd
        simp [hd']
      rw [if_pos hc, hrest, modify_append_of_lt f (by simp only [StorageChunk.count] at hin; omega),
        hstart]
      rfl
    · have hout : n + c.count ≤ row := by
        have := mt StorageChunk.holds_iff.2 hc
        omega
      rw [if_neg hc, ih h.2 hout,
        modify_append_of_le f (by simp only [StorageChunk.count] at hout; omega)]
      simp only [StorageChunk.count, Nat.sub_sub]

theorem Contiguous.start_eq (h : Contiguous n chunks) (hi : chunks[i]? = some chunk) :
    chunk.start = n + ((chunks.take i).map (·.count)).sum := by
  induction chunks generalizing n i with
  | nil => simp at hi
  | cons c cs ih =>
    cases i with
    | zero =>
      obtain rfl : c = chunk := by simpa using hi
      simpa using h.1
    | succ i =>
      rw [ih h.2 (by simpa using hi), take_succ_cons, map_cons, sum_cons, Nat.add_assoc]

/-- A chunk ends before the later ones start. -/
theorem Contiguous.end_le_start (h : Contiguous n chunks) {j : ℕ} {d : StorageChunk V}
    (hi : chunks[i]? = some c) (hj : chunks[j]? = some d) (hij : i < j) :
    c.start + c.count ≤ d.start := by
  obtain ⟨hlt, rfl⟩ := List.getElem?_eq_some_iff.1 hi
  rw [h.start_eq hi, h.start_eq hj]
  have hsplit : chunks.take j = chunks.take i ++ chunks[i] :: (chunks.take j).drop (i + 1) := by
    have hlt' : i < (chunks.take j).length := by
      rw [length_take]
      omega
    have hget : (chunks.take j)[i] = chunks[i] := getElem_take
    rw [← hget, ← drop_eq_getElem_cons hlt']
    conv_lhs => rw [← take_append_drop i (chunks.take j), take_take, min_eq_left hij.le]
  rw [hsplit, map_append, sum_append, map_cons, sum_cons]
  omega

/-- A chunk is the one that `GetChunk` finds for the rows it holds. -/
theorem Contiguous.find?_eq_some (h : Contiguous n chunks) (hi : chunks[i]? = some chunk)
    (hholds : chunk.holds row) : chunks.find? (·.holds row) = some chunk := by
  cases hfind : chunks.find? (·.holds row) with
  | none => exact absurd hholds (find?_eq_none.1 hfind chunk (mem_of_getElem? hi))
  | some other =>
    obtain ⟨j, hj⟩ := mem_iff_getElem?.1 (mem_of_find?_eq_some hfind)
    have hother := holds_iff.1 (find?_some (p := fun d : StorageChunk V => d.holds row) hfind)
    have hin := holds_iff.1 hholds
    rcases lt_trichotomy i j with hij | rfl | hij
    · have := h.end_le_start hi hj hij
      omega
    · rw [← hj, hi]
    · have := h.end_le_start hj hi hij
      omega

/-! ### Tables -/

namespace DataTable

variable {t : DataTable V} {row : ℕ} {c : StorageChunk V} {slots : List (RowSlot V)}

/-- **Looking a row up** through its chunk finds the row with that number. -/
theorem row?_eq (t : DataTable V) (row : ℕ) : t.row? row = t.rows[row]? :=
  t.contiguous.lookup (Nat.zero_le row)

theorem endOf_chunks : endOf 0 t.chunks = t.rows.length := by
  rw [endOf_eq, Nat.zero_add]
  rfl

theorem getChunk_eq_none_iff (t : DataTable V) (row : ℕ) :
    t.getChunk row = none ↔ t.rows.length ≤ row := by
  rw [← endOf_chunks]
  exact t.contiguous.find?_eq_none_iff (Nat.zero_le row)

theorem holds_of_getChunk (h : t.getChunk row = some c) : c.holds row :=
  find?_some (p := fun d : StorageChunk V => d.holds row) h

theorem exists_getChunk (h : row < t.rows.length) : ∃ c, t.getChunk row = some c :=
  Option.ne_none_iff_exists'.1 fun hnone => absurd h (not_lt.2 ((t.getChunk_eq_none_iff row).1 hnone))

theorem lt_of_getChunk (h : t.getChunk row = some c) : row < t.rows.length := by
  by_contra hout
  simp [(t.getChunk_eq_none_iff row).2 (not_lt.1 hout)] at h

/-- In the chunk `GetChunk` finds, the row is the one with the given number. -/
theorem getChunk_rows (h : t.getChunk row = some c) : c.rows[row - c.start]? = t.rows[row]? := by
  rw [← row?_eq, row?, h, Option.bind_some]

@[simp] theorem rows_modifyRow {f : RowSlot V → RowSlot V} :
    (t.modifyRow row f).rows = t.rows.modify row f :=
  t.contiguous.flatMap_modify f (Nat.zero_le row)

theorem rows_eq_dropLast_append (t : DataTable V) :
    t.rows = t.chunks.dropLast.flatMap (·.rows) ++ t.tailChunk.rows := by
  rw [rows, ← dropLast_append_getLast t.nonempty]
  simp [tailChunk]

/-- The next appended row gets the number of rows as its row number. -/
theorem tailChunk_end (t : DataTable V) :
    t.tailChunk.start + t.tailChunk.count = t.rows.length := by
  rw [t.contiguous_tail.2, endOf_eq, rows_eq_dropLast_append, length_append, Nat.zero_add]
  rfl

@[simp] theorem rows_extendTail : (t.extendTail slots).rows = t.rows ++ slots := by
  rw [rows_eq_dropLast_append t]
  simp [extendTail, rows]

@[simp] theorem rows_addChunk : (t.addChunk slots).rows = t.rows ++ slots := by
  simp [addChunk, rows]

@[simp] theorem rows_countCommit {flag : TupleFlag} : (t.countCommit flag).rows = t.rows := by
  cases flag <;> rfl

end DataTable

end DuckDB
