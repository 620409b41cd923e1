import DuckDB.Common.Equiv.CastOperators
import DuckDB.Common.Equiv.VectorOperations
import DuckDB.Common.NumericBinaryOperators

/-!
# Divisions that are NULL, and divisions that trap

The loops test the divisor before they divide, so the result is NULL exactly where an operand is
NULL or the divisor zero. They do not look at the null mask, nor for a division that overflows.

## Main results

- `Vector.divide_modulo_iff` — when a division of vectors is right
-/

namespace DuckDB.Vector

open IntegerType

variable {type : IntegerType} {op : ℤ → ℤ → ℤ} {left right result : Vector (BitVec type.width)}

/-- A row of a quotient is NULL exactly if an operand is NULL or the divisor zero. -/
def QuotientRow (row left right : Option (BitVec type.width)) : Prop :=
  row = none ↔ left = none ∨ right = none ∨ right = some 0

/-- The division ends, and its rows are right. -/
def IsQuotient (left right : Vector (BitVec type.width)) (shape : Shape)
    (division : Option (Vector (BitVec type.width))) : Prop :=
  ∃ r, division = some r ∧ r.shape = shape ∧
    ∀ k < shape.count, QuotientRow (r.row k) (left.value k) (right.value k)

/-- No row asks for a division that overflows, unless the first constant operand is NULL. -/
def DividesSafely (left right : Vector (BitVec type.width)) (shape : Shape) : Prop :=
  (if left.shape.isConstant then left.nullmask 0 = true
    else right.shape.isConstant = true ∧ right.nullmask 0 = true) ∨
  ∀ k < shape.count, overflows type (left.data (left.mul * position shape.selVector k))
    (right.data (right.mul * position shape.selVector k)) = false

variable {v : Vector (BitVec type.width)}

theorem settles_divmodEntry {left right : ℕ → BitVec type.width} :
    Settles fun i => divmodEntry type op (left i) (right i) := by
  intro i e e' he
  simp only [divmodEntry] at he ⊢
  split_ifs at he ⊢
  · obtain rfl := Option.some.inj he
    rfl
  · obtain ⟨q, hq, rfl⟩ := Option.map_eq_some_iff.1 he
    rw [hq]
    rfl

theorem overflows_zero {left : BitVec type.width} : overflows type left 0 = false := by
  cases type <;> simp [overflows, IntegerType.toInt]

theorem divmod_entry (left right e : BitVec type.width × Bool) (he : e.2 = (left.2 || right.2)) :
    (∃ e', divmodEntry type op left.1 right.1 e = some e' ∧
      QuotientRow (ofEntry e') (ofEntry left) (ofEntry right)) ↔
      overflows type left.1 right.1 = false := by
  by_cases hzero : right.1 = 0
  · refine iff_of_true ⟨_, if_pos hzero, ?_⟩ (hzero ▸ overflows_zero)
    cases hright : right.2 <;> simp [QuotientRow, ofEntry, hzero, hright]
  · have hentry : divmodEntry type op left.1 right.1 e =
        (machineDivision type op left.1 right.1).map (·, e.2) := if_neg hzero
    rw [hentry, machineDivision]
    cases hover : overflows type left.1 right.1
    · rw [if_neg (by simpa using hzero)]
      refine iff_of_true ⟨_, rfl, ?_⟩ rfl
      cases hleft : left.2 <;> cases hright : right.2 <;>
        simp [QuotientRow, ofEntry, he, hleft, hright]
      simpa using hzero
    · rw [if_pos (by simp)]
      exact iff_of_false (fun ⟨e', he', _⟩ => nomatch he') nofun

theorem isQuotient_forRows {shape : Shape} (hleft : shape.Follows left.shape)
    (hright : shape.Follows right.shape) {l r : ℕ → BitVec type.width × Bool}
    (hl : ∀ k < shape.count, left.entry (left.mul * position shape.selVector k) =
      l (position shape.selVector k))
    (hr : ∀ k < shape.count, right.entry (right.mul * position shape.selVector k) =
      r (position shape.selVector k)) (hshape : v.shape = shape)
    (hmask : ∀ i, v.nullmask i = ((l i).2 || (r i).2)) :
    IsQuotient left right shape
      (forRows shape (fun i => divmodEntry type op (l i).1 (r i).1) v) ↔
    ∀ k < shape.count, overflows type (left.data (left.mul * position shape.selVector k))
      (right.data (right.mul * position shape.selVector k)) = false := by
  refine (exists_forRows_iff settles_divmodEntry hshape fun k row => QuotientRow row _ _).trans
    (forall₂_congr fun k hk => ?_)
  rw [value_eq hleft, value_eq hright, hl k hk, hr k hk]
  refine (divmod_entry (l _) (r _) (v.entry _) (hmask _)).trans ?_
  rw [← hl k hk, ← hr k hk]
  rfl

theorem isQuotient_null
    (h : ∀ k, left.value k = none ∨ right.value k = none ∨ right.value k = some 0) :
    IsQuotient left right v.shape (some { v with nullmask := fun _ => true }) :=
  ⟨_, rfl, rfl, fun k _ => iff_of_true rfl (h k)⟩

theorem templatedDivmodLoop_iff (h : Shape.Aligned [left.shape, right.shape]) :
    IsQuotient left right (Shape.ofInputs [left.shape, right.shape])
      (templatedDivmodLoop type op left right result) ↔
        DividesSafely left right (Shape.ofInputs [left.shape, right.shape]) := by
  have hfleft := h left.shape (by simp)
  have hfright := h right.shape (by simp)
  unfold DividesSafely templatedDivmodLoop
  rw [Shape.ofInputs_pair] at *
  cases hleft : left.shape.isConstant
  · have hl : ∀ i, left.entry (left.mul * i) = left.entry i := by simp [mul, hleft]
    simp only [hleft, Bool.false_eq_true, if_false] at hfleft hfright ⊢
    cases hright : right.shape.isConstant
    · have hr : ∀ i, right.entry (right.mul * i) = right.entry i := by simp [mul, hright]
      simp only [Bool.false_eq_true, if_false, false_and, false_or]
      exact isQuotient_forRows hfleft hfright (l := left.entry) (r := right.entry)
        (fun k _ => hl _) (fun k _ => hr _) (v := { result.setShape left.shape with
          nullmask := fun i => left.nullmask i || right.nullmask i }) rfl fun i => rfl
    · have hr : ∀ i, right.entry (right.mul * i) = right.entry 0 := by simp [mul, hright]
      simp only [if_true, true_and]
      cases hnull : right.nullmask 0
      · by_cases hzero : right.data 0 = 0
        · rw [if_pos (by simp [hzero])]
          refine iff_of_true (isQuotient_null (v := result.setShape left.shape)
            fun k => .inr (.inr ?_)) (.inr fun k _ => ?_)
          · rw [value_eq hfright, hr]
            simp [ofEntry, entry, hnull, hzero]
          · rw [show right.data (right.mul * _) = 0 from (congrArg Prod.fst (hr _)).trans hzero]
            exact overflows_zero
        · rw [if_neg (by simpa using hzero)]
          have hbody : (fun i (e : BitVec type.width × Bool) =>
              (machineDivision type op (left.data i) (right.data 0)).map (·, e.2)) =
              fun i => divmodEntry type op (left.entry i).1 (right.entry 0).1 := by
            funext i e
            exact (if_neg hzero).symm
          rw [hbody]
          simp only [Bool.false_eq_true, false_or]
          exact isQuotient_forRows hfleft hfright (l := left.entry) (r := fun _ => right.entry 0)
            (fun k _ => hl _) (fun k _ => hr _)
            (v := { result.setShape left.shape with nullmask := left.nullmask }) rfl
            (by simp [entry, hnull])
      · refine iff_of_true (isQuotient_null (v := result.setShape left.shape)
          fun k => .inr (.inl ?_)) (.inl rfl)
        rw [value_eq hfright, hr]
        simp [ofEntry, entry, hnull]
  · have hl : ∀ i, left.entry (left.mul * i) = left.entry 0 := by simp [mul, hleft]
    simp only [hleft, if_true] at hfleft hfright ⊢
    cases hnull : left.nullmask 0
    · simp only [Bool.false_eq_true, if_false, false_or]
      exact isQuotient_forRows hfleft hfright (l := fun _ => left.entry 0) (r := right.entry)
        (fun k _ => hl _) (fun k hk => congrArg right.entry (mul_position hk))
        (v := { result.setShape right.shape with nullmask := right.nullmask }) rfl
        (by simp [entry, hnull])
    · refine iff_of_true (isQuotient_null (v := result.setShape right.shape)
        fun k => .inl ?_) (.inl rfl)
      rw [value_eq hfleft, hl]
      simp [ofEntry, entry, hnull]

/-- `Divide` and `Modulo` end, and are NULL exactly in the rows where an operand is NULL or the
divisor zero, if no row asks for a division that overflows. A row that is NULL may ask for one. -/
theorem divide_modulo_iff (left right result : Vector (BitVec type.width))
    (h : Shape.Aligned [left.shape, right.shape]) {shape : Shape}
    (hshape : shape = Shape.ofInputs [left.shape, right.shape]) :
    (IsQuotient left right shape (divide type left right result) ↔ DividesSafely left right shape) ∧
      (IsQuotient left right shape (modulo type left right result) ↔
        DividesSafely left right shape) := by
  subst hshape
  exact ⟨templatedDivmodLoop_iff h, templatedDivmodLoop_iff h⟩

/-- The numbers 7 and 14, divided by 0 and 2. -/
theorem divide_selected :
    IsQuotient (selected fun i => (BitVec.ofNat integer.width (7 * i)))
      (selected fun i => BitVec.ofNat integer.width (2 * (i - 1))) ⟨some (· + 1), 2⟩
      (divide integer (selected fun i => BitVec.ofNat integer.width (7 * i))
        (selected fun i => BitVec.ofNat integer.width (2 * (i - 1))) (constant 0)) :=
  (divide_modulo_iff _ _ (constant 0) (by simp [Shape.Aligned, Shape.Follows, selected,
    Shape.ofInputs_pair, shape, Shape.isConstant]) rfl).1.2 (.inr (by decide))

/-- A row that is NULL, with the smallest value under it, is divided by minus one. -/
theorem divide_null :
    divide integer { data := fun _ => 0x80000000, nullmask := fun _ => true, count := 2 }
      (constant (-1)) (constant 0) = none :=
  rfl

end DuckDB.Vector
