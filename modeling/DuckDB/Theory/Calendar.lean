import Mathlib.Data.Int.Order.Basic
import Mathlib.Order.Monotone.Basic

/-!
# The Gregorian calendar

The years of the Gregorian calendar, carried on to the years before it, with a year 0. The days are
numbered from the first day of the year 0.

## Main results

- `yearStart_succ` — the length of a year
- `InYear.eq` — a day lies in one year
-/

namespace Theory

/-- The leap years. -/
def Leap (year : ℤ) : Prop :=
  year % 4 = 0 ∧ (year % 100 ≠ 0 ∨ year % 400 = 0)

instance : DecidablePred Leap := fun _ => inferInstanceAs (Decidable (_ ∧ _))

/-- The number of days in a year. -/
def yearLength (year : ℤ) : ℤ :=
  if Leap year then 366 else 365

/-- The number of the first day of a year. -/
def yearStart (year : ℤ) : ℤ :=
  365 * year + (year + 3) / 4 - (year + 99) / 100 + (year + 399) / 400

variable {n year year' : ℤ}

theorem yearLength_ge (year : ℤ) : 365 ≤ yearLength year := by
  unfold yearLength
  split <;> omega

/-- A year begins when the one before has passed. -/
theorem yearStart_succ (year : ℤ) : yearStart (year + 1) = yearStart year + yearLength year := by
  unfold yearStart yearLength
  split <;> rename_i hleap <;> unfold Leap at hleap <;> omega

theorem lt_of_yearStart_lt (h : yearStart year < yearStart year') : year < year' := by
  have hmono : StrictMono yearStart := by
    refine strictMono_int_of_lt_succ fun year => ?_
    have hlength := yearLength_ge year
    rw [yearStart_succ]
    omega
  exact hmono.lt_iff_lt.mp h

/-- The day `n` lies in the year. -/
def InYear (n year : ℤ) : Prop :=
  yearStart year ≤ n ∧ n < yearStart (year + 1)

theorem InYear.eq (h : InYear n year) (h' : InYear n year') : year = year' := by
  have hle := lt_of_yearStart_lt (h.1.trans_lt h'.2)
  have hge := lt_of_yearStart_lt (h'.1.trans_lt h.2)
  omega

/-! ### Weeks -/

/-- The day of the week: Monday is 1. The first day of the year 0 was a Saturday. -/
def weekday (n : ℤ) : ℤ :=
  (n - 2) % 7 + 1

/-- The Thursday of the week. -/
def thursday (n : ℤ) : ℤ :=
  n - weekday n + 4

theorem thursday_near (n : ℤ) : n - 3 ≤ thursday n ∧ thursday n ≤ n + 3 := by
  unfold thursday weekday
  omega

/-- The number of a week is the one of its Thursday among the Thursdays of a year (ISO 8601). -/
def IsWeekNumber (n week : ℤ) : Prop :=
  ∃ year, InYear (thursday n) year ∧ week = (thursday n - yearStart year) / 7 + 1

theorem isWeekNumber_iff {week : ℤ} (h : InYear (thursday n) year) :
    IsWeekNumber n week ↔ week = (thursday n - yearStart year) / 7 + 1 := by
  refine ⟨?_, fun hweek => ⟨year, h, hweek⟩⟩
  rintro ⟨year', h', rfl⟩
  rw [h.eq h']

end Theory
