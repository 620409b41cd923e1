import DuckDB.Common.CastOperators
import Mathlib.Data.Int.Order.Basic
import Mathlib.Order.Basic

/-!
# What a cast between integers keeps

A cast gives the same number or reports that it is out of range, except that a cast between equal
types has no check and that the one from `uint64_t` to `int32_t` has the check of `int64_t`.

## Main results

- `IntegerType.toInt_convert` — a conversion keeps a number in the range of the type
- `Cast.operation_checked_iff` — which casts are checked
-/

namespace DuckDB

open IntegerType

namespace IntegerType

/-- The numbers that can be stored in the type. -/
def InRange (type : IntegerType) (n : ℤ) : Prop :=
  type.minimumValue ≤ n ∧ n ≤ type.maximumValue

instance (type : IntegerType) (n : ℤ) : Decidable (type.InRange n) :=
  inferInstanceAs (Decidable (_ ∧ _))

variable {type : IntegerType}

theorem toInt_convert {n : ℤ} (h : type.InRange n) : type.toInt (type.convert n) = n := by
  obtain ⟨hmin, hmax⟩ := h
  cases type with
  | pointer =>
    simp only [minimumValue, maximumValue, toInt, convert, width, BitVec.toNat_ofInt] at *
    omega
  | _ =>
    simp only [minimumValue, maximumValue, toInt, convert, width, BitVec.toInt_ofInt] at *
    apply Int.bmod_eq_of_le <;> omega

theorem toInt_bounds (h : type ≠ pointer) (value : BitVec type.width) :
    type.minimumValue - 1 ≤ type.toInt value ∧ type.toInt value ≤ type.maximumValue := by
  cases type with
  | pointer => exact absurd rfl h
  | _ =>
    have hle := BitVec.le_toInt value
    have hlt := BitVec.toInt_lt (x := value)
    simp only [width, minimumValue, maximumValue, toInt] at *
    omega

theorem inRange_of_le {src dst : IntegerType} (h : src ≠ pointer)
    (hmin : dst.minimumValue ≤ src.minimumValue - 1) (hmax : src.maximumValue ≤ dst.maximumValue)
    (value : BitVec src.width) : dst.InRange (src.toInt value) :=
  ⟨hmin.trans (toInt_bounds h value).1, (toInt_bounds h value).2.trans hmax⟩

theorem toInt_pointer_nonneg (value : BitVec pointer.width) : 0 ≤ pointer.toInt value := by
  simp only [toInt, width] at *
  omega

end IntegerType

namespace Cast

variable {src dst type : IntegerType} {left : BitVec src.width}

/-- The result is the same number, or the error that it is out of range. -/
structure Checked (src dst : IntegerType) (left : BitVec src.width)
    (result : Except Exception (BitVec dst.width)) : Prop where
  same : ∀ value, result = .ok value → dst.toInt value = src.toInt left
  error_iff : (∃ type, result = .error (valueOutOfRangeException (src.toInt left) src type)) ↔
    ¬dst.InRange (src.toInt left)

theorem checked_convert :
    Checked src dst left (.ok (dst.convert (src.toInt left))) ↔ dst.InRange (src.toInt left) := by
  refine ⟨fun h => ?_, fun h => ⟨?_, by simp [h]⟩⟩
  · by_contra hrange
    obtain ⟨type, herror⟩ := h.error_iff.2 hrange
    cases herror
  · rintro value ⟨⟩
    exact toInt_convert h

theorem checked_error (h : ¬dst.InRange (src.toInt left)) :
    Checked src dst left (.error (valueOutOfRangeException (src.toInt left) src type)) :=
  ⟨nofun, by simp [h]⟩

theorem checked_castWithOverflowCheck :
    Checked src dst left (castWithOverflowCheck src dst left) := by
  unfold castWithOverflowCheck
  split_ifs with h <;> simp only [Bool.or_eq_true, decide_eq_true_eq] at h
  · exact checked_error fun hrange => by have := hrange.1; have := hrange.2; omega
  · exact checked_convert.2 ⟨by omega, by omega⟩

theorem checked_castToUint64OverflowCheck (hsrc : src ≠ pointer) :
    Checked src pointer left (castToUint64OverflowCheck src left) := by
  have hmax : src.toInt left ≤ pointer.maximumValue :=
    (toInt_bounds hsrc left).2.trans (by cases src <;> decide)
  unfold castToUint64OverflowCheck
  split_ifs with h
  · exact checked_error fun hrange => absurd hrange.1 (not_le.2 h)
  · exact checked_convert.2 ⟨not_lt.1 h, hmax⟩

theorem castFromUint64OverflowCheck_eq {value : BitVec pointer.width} :
    castFromUint64OverflowCheck dst value =
      if pointer.toInt value > dst.maximumValue then
        .error (valueOutOfRangeException (pointer.toInt value) pointer dst)
      else .ok (dst.convert (pointer.toInt value)) := by
  rw [castFromUint64OverflowCheck, toInt_convert (by cases dst <;> decide)]
  rfl

theorem checked_castFromUint64OverflowCheck {left : BitVec pointer.width} :
    Checked pointer dst left (castFromUint64OverflowCheck dst left) := by
  have hmin : dst.minimumValue ≤ pointer.toInt left :=
    le_trans (by cases dst <;> decide) (toInt_pointer_nonneg left)
  rw [castFromUint64OverflowCheck_eq]
  split_ifs with h
  · exact checked_error fun hrange => absurd hrange.2 (not_le.2 h)
  · exact checked_convert.2 ⟨hmin, not_lt.1 h⟩

theorem checked_castFromUint64OverflowCheck_bind {left : BitVec pointer.width} :
    Checked pointer dst left (do
      let value ← castFromUint64OverflowCheck pointer left
      return dst.convert (pointer.toInt value)) ↔
      (pointer.toInt left ≤ pointer.maximumValue → pointer.toInt left ≤ dst.maximumValue) := by
  have hmax : dst.maximumValue ≤ pointer.maximumValue := by cases dst <;> decide
  have hmin : dst.minimumValue ≤ 0 := by cases dst <;> decide
  have hnonneg := toInt_pointer_nonneg left
  rw [castFromUint64OverflowCheck_eq]
  split_ifs with h
  · exact iff_of_true (checked_error fun hrange => absurd (hrange.2.trans hmax) (not_le.2 h))
      fun hle => absurd hle (not_le.2 h)
  · change Checked _ _ _ (.ok (dst.convert (pointer.toInt (pointer.convert (pointer.toInt left))))) ↔ _
    rw [toInt_convert ⟨hnonneg, not_lt.1 h⟩, checked_convert]
    exact ⟨fun hrange _ => hrange.2, fun hle => ⟨hmin.trans hnonneg, hle (not_lt.1 h)⟩⟩

/-- The casts that are checked. -/
def IsChecked (src dst : IntegerType) (left : BitVec src.width) : Prop :=
  (src = dst → dst.InRange (src.toInt left)) ∧
    ¬(src = pointer ∧ dst = integer ∧ integer.maximumValue < src.toInt left ∧
      src.toInt left ≤ bigint.maximumValue)

/-- A cast gives the same number, or reports exactly the numbers that the type cannot store, for
these types and numbers. -/
theorem operation_checked_iff (src dst : IntegerType) (left : BitVec src.width) :
    Checked src dst left (operation src dst left) ↔ IsChecked src dst left := by
  by_cases heq : src = dst
  · subst heq
    have hconvert : operation src src left = .ok (src.convert (src.toInt left)) := by
      cases src <;> rfl
    rw [hconvert, checked_convert]
    exact ⟨fun h => ⟨fun _ => h, fun hne => by cases hne.1.symm.trans hne.2.1⟩, fun h => h.1 rfl⟩
  · by_cases hpointer : src = pointer ∧ dst = integer
    · obtain ⟨rfl, rfl⟩ := hpointer
      refine checked_castFromUint64OverflowCheck_bind.trans ⟨fun h => ⟨nofun, fun hgap => ?_⟩, ?_⟩
      · exact absurd (h hgap.2.2.2) (not_le.2 hgap.2.2.1)
      · exact fun h hle => not_lt.1 fun hlt => h.2 ⟨rfl, rfl, hlt, hle⟩
    · refine iff_of_true ?_ ⟨fun h => absurd h heq, fun h => hpointer ⟨h.1, h.2.1⟩⟩
      cases src <;> cases dst <;> first
        | exact absurd rfl heq
        | exact checked_castWithOverflowCheck
        | exact checked_castToUint64OverflowCheck (by decide)
        | exact checked_castFromUint64OverflowCheck
        | exact checked_castFromUint64OverflowCheck_bind.2 fun h => h
        | exact checked_convert.2 (inRange_of_le (by decide) (by decide) (by decide) left)
        | exact absurd ⟨rfl, rfl⟩ hpointer

/-- The number 2^32 becomes 0 as an `int32_t`. -/
theorem operation_pointer_integer :
    operation pointer integer (4294967296 : BitVec 64) = .ok 0 ∧
      pointer.toInt (4294967296 : BitVec 64) = 4294967296 ∧
        ¬integer.InRange 4294967296 :=
  ⟨rfl, rfl, by decide⟩

end Cast

end DuckDB
