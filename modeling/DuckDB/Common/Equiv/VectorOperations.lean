import DuckDB.Common.VectorOperations
import Mathlib.Tactic.Common

/-!
# What a loop over vectors computes

A constant holds its value in every row; the vectors of a chunk share their selection vector. The
loops write, for each row, the entry that the body computes from the entries of the inputs in that
row.

## Main results

- `Vector.value_eq` — the entry of an input that a loop reads
- `Vector.exists_forRows_entry_iff`, `Vector.exists_forRows_iff` — the entries and the rows after a
  loop
-/

namespace DuckDB

open List

namespace Shape

/-- The input is a constant, or has the shape. -/
def Follows (shape input : Shape) : Prop :=
  input.isConstant = true ∨ input = shape

/-- The inputs are constants or share one shape. -/
def Aligned (inputs : List Shape) : Prop :=
  ∀ input ∈ inputs, (ofInputs inputs).Follows input

theorem ofInputs_pair {left right : Shape} :
    ofInputs [left, right] = if left.isConstant then right else left := by
  have hconstant : ∀ s : Shape, s.isConstant = true → s = ⟨none, 1⟩ := by
    rintro ⟨sel, count⟩ h
    simpa [isConstant, and_comm] using h
  cases hleft : left.isConstant
  · simp [ofInputs, hleft]
  · cases hright : right.isConstant
    · simp [ofInputs, hleft, hright]
    · rw [if_pos rfl, hconstant right hright, hconstant left hleft]
      rfl

end Shape

namespace Vector

variable {α : Type} {body : ℕ → α × Bool → Option (α × Bool)} {shape : Shape} {v r r' : Vector α}
  {i j : ℕ} {e : α × Bool}

/-- What an entry stands for. -/
def ofEntry (e : α × Bool) : Option α :=
  if e.2 then none else some e.1

/-- What the vector holds in row `k`; a constant holds its value in every row. -/
def value (v : Vector α) (k : ℕ) : Option α :=
  v.row (if v.shape.isConstant then 0 else k)

theorem row_eq (v : Vector α) (k : ℕ) : v.row k = ofEntry (v.entry (position v.selVector k)) := rfl

theorem selVector_eq_none (h : v.shape.isConstant = true) : v.selVector = none :=
  Option.isNone_iff_eq_none.1 (Bool.and_eq_true_iff.1 h).2

theorem value_eq (h : shape.Follows v.shape) (k : ℕ) :
    v.value k = ofEntry (v.entry (v.mul * position shape.selVector k)) := by
  rw [value, mul, row_eq]
  split_ifs with hconstant
  · rw [selVector_eq_none hconstant, Nat.zero_mul]
    rfl
  · rw [← h.resolve_left hconstant, Nat.one_mul]
    rfl

theorem mul_position {k : ℕ} (hk : k < v.count) :
    v.mul * position v.selVector k = position v.selVector k := by
  rw [mul]
  split_ifs with hconstant
  · have hcount : v.count = 1 := of_decide_eq_true (Bool.and_eq_true_iff.1 hconstant).1
    obtain rfl : k = 0 := by omega
    rw [selVector_eq_none hconstant]
    rfl
  · exact Nat.one_mul _

theorem value_eq_self {k : ℕ} (hk : k < v.count) :
    v.value k = ofEntry (v.entry (position v.selVector k)) := by
  rw [value_eq (.inr rfl : v.shape.Follows v.shape), shape, mul_position hk]

theorem value_eq_zero (h : v.shape.isConstant = true) (k : ℕ) : v.value k = ofEntry (v.entry 0) := by
  rw [value, if_pos h, row_eq, selVector_eq_none h]
  rfl

/-- A constant. -/
def constant (a : α) : Vector α :=
  { data := fun _ => a, count := 1 }

@[simp] theorem value_constant {a : α} {k : ℕ} : (constant a).value k = some a := by
  simp [constant, value, row]

/-- The second and the third entry. -/
def selected (data : ℕ → α) : Vector α :=
  { data, selVector := some (· + 1), count := 2 }

@[simp] theorem shape_setShape : (v.setShape shape).shape = shape := rfl

theorem entry_setEntry : (v.setEntry i e).entry j = if j = i then e else v.entry j := by
  unfold setEntry entry
  split_ifs with h
  · subst h
    simp
  · simp [h]

theorem foldl_runRow_none {l : List ℕ} : l.foldl (fun r i => runRow body i r) none = none := by
  induction l with
  | nil => rfl
  | cons i l ih => exact ih

/-- The body gives the same entry the second time. -/
def Settles (body : ℕ → α × Bool → Option (α × Bool)) : Prop :=
  ∀ i e e', body i e = some e' → body i e' = some e'

theorem foldl_runRow (hbody : Settles body) (l : List ℕ) (r : Vector α) :
    (∀ r', l.foldl (fun r i => runRow body i r) (some r) = some r' → r'.shape = r.shape ∧
      (∀ i ∈ l, body i (r.entry i) = some (r'.entry i)) ∧ ∀ i ∉ l, r'.entry i = r.entry i) ∧
    ((∀ i ∈ l, (body i (r.entry i)).isSome) →
      ∃ r', l.foldl (fun r i => runRow body i r) (some r) = some r') := by
  induction l generalizing r with
  | nil => simp
  | cons i l ih =>
    cases he : body i (r.entry i) with
    | none =>
      have hstep : runRow body i (some r) = none := by simp [runRow, he]
      simp [hstep, foldl_runRow_none, he]
    | some e =>
      have hstep : runRow body i (some r) = some (r.setEntry i e) := by simp [runRow, he]
      have hentry : (r.setEntry i e).entry i = e := by rw [entry_setEntry, if_pos rfl]
      have hne : ∀ j ≠ i, (r.setEntry i e).entry j = r.entry j := fun j hj => by
        rw [entry_setEntry, if_neg hj]
      obtain ⟨hsome, hexists⟩ := ih (r.setEntry i e)
      rw [foldl_cons, hstep]
      refine ⟨fun r' hr' => ?_, fun hall => hexists fun j hj => ?_⟩
      · obtain ⟨hshape, hin, hout⟩ := hsome r' hr'
        refine ⟨hshape, fun j hj => ?_, fun j hj => ?_⟩
        · by_cases hji : j = i
          · subst hji
            rw [he]
            by_cases hmem : j ∈ l
            · rw [← hin j hmem, hentry, hbody j _ e he]
            · rw [hout j hmem, hentry]
          · rw [← hne j hji]
            exact hin j ((mem_cons.1 hj).resolve_left hji)
        · rw [mem_cons, not_or] at hj
          rw [hout j hj.2, hne j hj.1]
      · by_cases hji : j = i
        · subst hji
          rw [hentry, hbody j _ e he]
          rfl
        · rw [hne j hji]
          exact hall j (mem_cons_of_mem i hj)

theorem forRows_eq :
    forRows shape body r = ((List.range shape.count).map (position shape.selVector)).foldl
      (fun r i => runRow body i r) (some r) := by
  rw [forRows, exec, foldl_map, range_eq_range', Nat.sub_zero]

/-- **The entries after a loop** are the ones that its body gives. -/
theorem exists_forRows_entry_iff (hbody : Settles body) (hshape : r.shape = shape)
    (P : ℕ → α × Bool → Prop) : (∃ r', forRows shape body r = some r' ∧ r'.shape = shape ∧
      ∀ k < shape.count, P k (r'.entry (position shape.selVector k))) ↔
    ∀ k < shape.count, ∃ e, body (position shape.selVector k)
      (r.entry (position shape.selVector k)) = some e ∧ P k e := by
  obtain ⟨hsome, hexists⟩ :=
    foldl_runRow hbody ((List.range shape.count).map (position shape.selVector)) r
  simp only [← forRows_eq, forall_mem_map, mem_range] at hsome hexists
  constructor
  · rintro ⟨r', hr', -, hentries⟩ k hk
    exact ⟨_, (hsome r' hr').2.1 k hk, hentries k hk⟩
  · intro h
    obtain ⟨r', hr'⟩ := hexists fun k hk => by
      obtain ⟨e, he, -⟩ := h k hk
      rw [he]
      rfl
    obtain ⟨hshape', hentry, -⟩ := hsome r' hr'
    rw [hshape] at hshape'
    refine ⟨r', hr', hshape', fun k hk => ?_⟩
    obtain ⟨e, he, hexpected⟩ := h k hk
    obtain rfl := Option.some.inj ((hentry k hk).symm.trans he)
    exact hexpected

/-- **The rows after a loop** are the ones that its body gives. -/
theorem exists_forRows_iff (hbody : Settles body) (hshape : r.shape = shape)
    (P : ℕ → Option α → Prop) : (∃ r', forRows shape body r = some r' ∧ r'.shape = shape ∧
      ∀ k < shape.count, P k (r'.row k)) ↔
    ∀ k < shape.count, ∃ e, body (position shape.selVector k)
      (r.entry (position shape.selVector k)) = some e ∧ P k (ofEntry e) := by
  rw [← exists_forRows_entry_iff hbody hshape fun k e => P k (ofEntry e)]
  refine exists_congr fun r' => and_congr_right fun _ => and_congr_right ?_
  rintro rfl
  rfl

end Vector

end DuckDB
