import DuckDB.Common.Date
import DuckDB.Theory.Calendar
import Mathlib.Tactic.IntervalCases

/-!
# Dates and their numbers

The number of a date is its place in the Gregorian calendar, where the year -1 of the source is the
year 0 of the calendar. `number_to_date` finds the year and the month of every number, so a date
that exists in the calendar is given back.

The source asks whether a year before the year 1 is a leap year before it moves the year by one. So
it accepts a 29 February in years where the calendar has none, and that day gets the number of the
1 March. It accepts the days of a year 0 as well, which have no number.

## Main results

- `Date.yearAndDay_eq` — the year of a number
- `Date.dateToNumber_eq` — the number of a date
- `Date.numberToDate_dateToNumber_iff` — which dates are given back
-/

namespace DuckDB.Date

open Theory

variable {year month day month' day' n year' : ℤ}

/-! ### Years -/

variable {goal : ℤ}

theorem leapyear_eq : leapyear year = decide (Leap year) := by
  have hmod (k : ℤ) : year.tmod k = 0 ↔ year % k = 0 := by
    rw [← Int.dvd_iff_tmod_eq_zero, Int.dvd_iff_emod_eq_zero]
  rw [Bool.eq_iff_iff, decide_eq_true_iff]
  simp [leapyear, Leap, hmod]

theorem yearDays_eq (year : ℤ) : yearDays year = yearLength year := by
  simp only [yearDays, yearLength, leapyear_eq, decide_eq_true_eq]

theorem tdiv_eq (a k : ℤ) : a.tdiv k = if 0 ≤ a then a / k else -(-a / k) := by
  split
  · rename_i ha
    exact Int.tdiv_eq_ediv_of_nonneg ha
  · rename_i ha
    rw [← Int.tdiv_eq_ediv_of_nonneg (by omega), Int.neg_tdiv, Int.neg_neg]

theorem yearStart_eq (year : ℤ) :
    365 * year + leapyears (if year ≥ 0 then year - 1 else year) = yearStart year := by
  simp only [leapyears, tdiv_eq, yearStart]
  split_ifs <;> omega

theorem forward_eq (hday : day = n - yearStart (year + 1)) (hyear : yearStart year ≤ n)
    (hgoal : InYear n goal) : forward year day = (goal, n - yearStart (goal + 1)) := by
  fun_induction forward year day with
  | case1 year day hge ih =>
    apply ih
    · rw [yearDays_eq, yearStart_succ (year + 1)]
      omega
    · omega
  | case2 year day hlt =>
    obtain rfl : year = goal := InYear.eq ⟨hyear, by omega⟩ hgoal
    rw [hday]

theorem backward_eq (hday : day = n - yearStart year) (hyear : n < yearStart (year + 1))
    (hgoal : InYear n goal) : backward year day = (goal, n - yearStart goal) := by
  fun_induction backward year day with
  | case1 year day hlt ih =>
    have hsucc := yearStart_succ (year - 1)
    rw [sub_add_cancel] at hsucc
    apply ih
    · rw [yearDays_eq]
      omega
    · rw [sub_add_cancel]
      omega
  | case2 year day hge =>
    obtain rfl : year = goal := InYear.eq ⟨by omega, hyear⟩ hgoal
    rw [hday]

/-- The first estimate of the year is near enough that the loops find the year of the day. -/
theorem yearAndDay_eq (h : InYear n year) : yearAndDay n = (year, n - yearStart year) := by
  have hstart := yearStart_eq (n.tdiv 365)
  have hdiv := tdiv_eq n 365
  have hday : n - n.tdiv 365 * 365 -
      leapyears (if n.tdiv 365 ≥ 0 then n.tdiv 365 - 1 else n.tdiv 365) =
        n - yearStart (n.tdiv 365) := by
    omega
  simp only [yearAndDay, hday]
  by_cases hn : n < 0
  · have hlength := yearLength_ge (n.tdiv 365 - 1)
    have hsucc := yearStart_succ (n.tdiv 365 - 1)
    rw [sub_add_cancel] at hsucc
    have hle : yearStart (n.tdiv 365 - 1) ≤ n := by
      rw [if_neg (by omega)] at hdiv
      unfold yearStart at *
      omega
    have hforward : forward (n.tdiv 365 - 1) (n - yearStart (n.tdiv 365)) =
        (year, n - yearStart (year + 1)) :=
      forward_eq (by rw [sub_add_cancel]) hle h
    rw [if_pos hn, hforward, yearDays_eq, yearStart_succ]
    simp only [Prod.mk.injEq, true_and]
    omega
  · rw [if_neg hn]
    refine backward_eq rfl ?_ h
    have hlength := yearLength_ge (n.tdiv 365)
    rw [yearStart_succ]
    rw [if_pos (by omega)] at hdiv
    unfold yearStart at *
    omega

/-! ### Months -/

/-- The table of the days before each month. -/
def monthTable (year : ℤ) : List ℤ :=
  if leapyear year then cumLeapDays else cumDays

/-- A day that a month of the calendar has; `year` counts as the calendar does. -/
structure InMonth (year month day : ℤ) : Prop where
  month_pos : 0 < month
  month_le : month ≤ 12
  day_pos : 0 < day
  day_le : day ≤ monthDays month year

theorem monthTable_mem (year : ℤ) : monthTable year ∈ [cumDays, cumLeapDays] := by
  unfold monthTable
  split <;> simp

theorem entry_le_of_mem : ∀ table ∈ [cumDays, cumLeapDays], ∀ month ∈ List.range 13,
    ∀ month' ∈ List.range 13, month ≤ month' → entry table month ≤ entry table month' := by
  decide +kernel

theorem entry_le (year : ℤ) (hmonth : 0 ≤ month) (hle : month ≤ month') (hmonth' : month' ≤ 12) :
    entry (monthTable year) month ≤ entry (monthTable year) month' := by
  lift month to ℕ using hmonth
  lift month' to ℕ using by omega
  exact entry_le_of_mem _ (monthTable_mem year) month (List.mem_range.mpr (by omega)) month'
    (List.mem_range.mpr (by omega)) (by omega)

theorem entry_zero (year : ℤ) : entry (monthTable year) 0 = 0 := by
  unfold monthTable
  cases leapyear year <;> rfl

theorem entry_twelve (year : ℤ) : entry (monthTable year) 12 = yearDays year := by
  unfold monthTable yearDays
  cases leapyear year <;> rfl

theorem entry_month (year : ℤ) (hmonth : 0 < month) (hmonth' : month ≤ 12) :
    entry (monthTable year) month = entry (monthTable year) (month - 1) + monthDays month year := by
  unfold monthTable monthDays
  cases leapyear year <;> interval_cases month <;> rfl

theorem entry_cumDays (year : ℤ) (hmonth : 0 < month) (hmonth' : month ≤ 12) :
    entry (monthTable year) (month - 1) =
      (if month > 2 && leapyear year then 1 else 0) + entry cumDays (month - 1) := by
  unfold monthTable
  cases leapyear year <;> interval_cases month <;> rfl

theorem monthAndDay_of_mem : ∀ table ∈ [cumDays, cumLeapDays], ∀ month ∈ List.range 13,
    ∀ day ∈ List.range 32, 0 < month → 0 < day →
      entry table (month - 1) + day ≤ entry table month →
      monthAndDay table (entry table (month - 1) + day) = ((month : ℤ), (day : ℤ)) := by
  decide +kernel

theorem monthDays_le (year : ℤ) (hmonth : 0 < month) (hmonth' : month ≤ 12) :
    monthDays month year ≤ 31 := by
  unfold monthDays
  cases leapyear year <;> interval_cases month <;> decide

section

variable (h : InMonth year month day)

include h

theorem monthAndDay_eq :
    monthAndDay (monthTable year) (entry (monthTable year) (month - 1) + day) = (month, day) := by
  obtain ⟨hmonth, hmonth', hday, hday'⟩ := h
  have hentry := entry_month year hmonth hmonth'
  have hle := monthDays_le year hmonth hmonth'
  lift month to ℕ using hmonth.le
  lift day to ℕ using hday.le
  exact monthAndDay_of_mem _ (monthTable_mem year) month (List.mem_range.mpr (by omega)) day
    (List.mem_range.mpr (by omega)) (by omega) (by omega) (by omega)

/-! ### Dates -/

/-- The calendar's year for a year of the source. -/
def calendarYear (year : ℤ) : ℤ :=
  if year < 0 then year + 1 else year

/-- The number of a day in the calendar. -/
def place (year month day : ℤ) : ℤ :=
  yearStart year + (entry (monthTable year) (month - 1) + day - 1)

theorem inYear_place : InYear (place year month day) year := by
  have hentry := entry_month year h.month_pos h.month_le
  have hlow := entry_le year le_rfl (show 0 ≤ month - 1 by have := h.month_pos; omega)
    (by have := h.month_le; omega)
  have hhigh := entry_le year h.month_pos.le h.month_le le_rfl
  rw [entry_zero] at hlow
  rw [entry_twelve, yearDays_eq] at hhigh
  have hday := h.day_le
  have hpos := h.day_pos
  constructor
  · unfold place
    omega
  · rw [yearStart_succ]
    unfold place
    omega

theorem place_lt_of_month (h' : InMonth year month' day') (hlt : month < month') :
    place year month day < place year month' day' := by
  have hentry := entry_month year h.month_pos h.month_le
  have hle := entry_le year h.month_pos.le (show month ≤ month' - 1 by omega)
    (by have := h'.month_le; omega)
  have hday := h.day_le
  have hpos := h'.day_pos
  unfold place
  omega

theorem place_lt_of_year (h' : InMonth year' month' day') (hlt : year < year') :
    place year month day < place year' month' day' := by
  have hstart : yearStart (year + 1) ≤ yearStart year' := by
    by_contra hlater
    have hyears := lt_of_yearStart_lt (not_le.1 hlater)
    omega
  exact (inYear_place h).2.trans_le (hstart.trans (inYear_place h').1)

theorem numberToDate_place :
    numberToDate (place year month day) = (if year ≤ 0 then year - 1 else year, month, day) := by
  have hday : place year month day - yearStart year + 1 =
      entry (monthTable year) (month - 1) + day := by
    unfold place
    omega
  rw [numberToDate, yearAndDay_eq (inYear_place h)]
  simp only [hday]
  rw [show (if leapyear year then cumLeapDays else cumDays) = monthTable year from rfl,
    monthAndDay_eq h]

end

theorem isValidDay_iff (year month day : ℤ) :
    isValidDay year month day = true ↔ 0 < month ∧ month ≤ 12 ∧ 0 < day ∧
      yearMin ≤ year ∧ year ≤ yearMax ∧ day ≤ monthDays month year := by
  have htable : ∀ month : ℤ, 0 < month → month ≤ 12 →
      (if leapyear year then entry leapDays month else entry normalDays month) =
        monthDays month year := by
    intro month hmonth hmonth'
    unfold monthDays
    cases leapyear year <;> interval_cases month <;> rfl
  unfold isValidDay
  by_cases hmonth : 0 < month ∧ month ≤ 12
  · rw [← htable month hmonth.1 hmonth.2]
    split_ifs <;> simp_all <;> omega
  · have hor : month < 1 ∨ month > 12 := by omega
    simp only [hor, Bool.or_eq_true, decide_eq_true_eq, if_true]
    constructor <;> intro h
    · cases h
    · omega

theorem date_iff (year month day : ℤ) :
    date day month year = true ↔ isValidDay year month day = true ∧ year ≠ 0 := by
  rw [isValidDay_iff]
  simp only [date, Bool.and_eq_true, decide_eq_true_eq]
  constructor <;> (intro h; omega)

theorem dateToNumber_eq (h : isValidDay year month day = true) (hyear : year ≠ 0) :
    dateToNumber year month day = .ok (place (calendarYear year) month day) := by
  obtain ⟨hmonth, hmonth', -⟩ := (isValidDay_iff year month day).mp h
  have hdate : date day month year = true := (date_iff year month day).mpr ⟨h, hyear⟩
  simp only [dateToNumber, hdate, Bool.not_true, Bool.false_eq_true, if_false]
  rw [show (if year < 0 then year + 1 else year) = calendarYear year from rfl, yearStart_eq, place,
    entry_cumDays _ hmonth hmonth']
  refine congrArg Except.ok ?_
  split <;> omega

/-- A day of a year 0 has no number. -/
theorem dateToNumber_zero : dateToNumber 0 month day ≠ .ok n := by
  have hdate : date day month 0 = false := by
    rw [Bool.eq_false_iff, ne_eq, date_iff]
    exact fun h => h.2 rfl
  simp only [dateToNumber, hdate]
  intro h
  cases h

/-! ### Which dates are given back -/

/-- The dates of the calendar: there is no year 0, and the years before the year 1 that the source
takes for leap years are none. -/
def InCalendar (year month day : ℤ) : Prop :=
  year ≠ 0 ∧ ¬(year < 0 ∧ month = 2 ∧ day = 29)

theorem inMonth_calendarYear (h : isValidDay year month day = true)
    (hcal : InCalendar year month day) : InMonth (calendarYear year) month day := by
  obtain ⟨hmonth, hmonth', hday, -, -, hle⟩ := (isValidDay_iff year month day).mp h
  refine ⟨hmonth, hmonth', hday, ?_⟩
  obtain ⟨hyear, hleap⟩ := hcal
  by_cases hneg : year < 0
  · unfold monthDays at *
    split_ifs at * <;> omega
  · rw [calendarYear, if_neg hneg]
    exact hle

theorem calendarYear_sub (hyear : year ≠ 0) :
    (if calendarYear year ≤ 0 then calendarYear year - 1 else calendarYear year) = year := by
  unfold calendarYear
  split_ifs <;> omega

/-- The year behind a leap year is none. -/
theorem leapyear_calendarYear (hneg : year < 0) (hleap : leapyear year = true) :
    leapyear (calendarYear year) = false := by
  rw [leapyear_eq, decide_eq_true_iff] at hleap
  rw [leapyear_eq, decide_eq_false_iff_not, calendarYear, if_pos hneg]
  unfold Leap at *
  omega

theorem numberToDate_leapDay (h : isValidDay year 2 29 = true) (hneg : year < 0) :
    numberToDate (place (calendarYear year) 2 29) = (year, 3, 1) := by
  obtain ⟨-, -, -, -, -, hle⟩ := (isValidDay_iff year 2 29).mp h
  have hleap : leapyear year = true := by
    by_contra hleap
    simp [monthDays, hleap] at hle
  have hcalendar := leapyear_calendarYear hneg hleap
  have hplace : place (calendarYear year) 2 29 = place (calendarYear year) 3 1 := by
    simp only [place, monthTable, hcalendar]
    rfl
  have hmonth : InMonth (calendarYear year) 3 1 :=
    ⟨by decide, by decide, by decide, by simp [monthDays, entry, leapDays]⟩
  rw [hplace, numberToDate_place hmonth, calendarYear_sub hneg.ne]

/-- `a` is an earlier date than `b`. -/
def Earlier (a b : ℤ × ℤ × ℤ) : Prop :=
  a.1 < b.1 ∨ a.1 = b.1 ∧ (a.2.1 < b.2.1 ∨ a.2.1 = b.2.1 ∧ a.2.2 < b.2.2)

theorem place_lt_of_earlier (h : InMonth (calendarYear year) month day)
    (h' : InMonth (calendarYear year') month' day') (_ : year ≠ 0) (hyear' : year' ≠ 0)
    (hearlier : Earlier (year, month, day) (year', month', day')) :
    place (calendarYear year) month day < place (calendarYear year') month' day' := by
  obtain hlt | ⟨heq, hlt | ⟨heq', hlt⟩⟩ := hearlier
  · apply place_lt_of_year h h'
    simp only at hlt
    unfold calendarYear
    split_ifs <;> omega
  · obtain rfl : year = year' := heq
    exact place_lt_of_month h h' hlt
  · obtain rfl : year = year' := heq
    obtain rfl : month = month' := heq'
    simp only at hlt
    unfold place
    omega

theorem earlier_trichotomy (a b : ℤ × ℤ × ℤ) : Earlier a b ∨ a = b ∨ Earlier b a := by
  obtain ⟨year, month, day⟩ := a
  obtain ⟨year', month', day'⟩ := b
  simp only [Earlier, Prod.mk.injEq]
  omega

/-- The dates of the calendar are ordered as their numbers are. -/
theorem place_lt_iff_earlier (h : InMonth (calendarYear year) month day)
    (h' : InMonth (calendarYear year') month' day') (hyear : year ≠ 0) (hyear' : year' ≠ 0) :
    place (calendarYear year) month day < place (calendarYear year') month' day' ↔
      Earlier (year, month, day) (year', month', day') := by
  refine ⟨fun hlt => ?_, place_lt_of_earlier h h' hyear hyear'⟩
  obtain hearlier | heq | hearlier :=
    earlier_trichotomy (year, month, day) (year', month', day')
  · exact hearlier
  · simp only [Prod.mk.injEq] at heq
    obtain ⟨rfl, rfl, rfl⟩ := heq
    exact absurd hlt (lt_irrefl _)
  · exact absurd hlt (place_lt_of_earlier h' h hyear' hyear hearlier).asymm

/-- A date that the source accepts is given back exactly if the calendar has it; the dates of the
calendar are ordered as their numbers are. -/
theorem numberToDate_dateToNumber_iff {year month day : ℤ} (h : isValidDay year month day = true) :
    ((∃ n, dateToNumber year month day = .ok n ∧ numberToDate n = (year, month, day)) ↔
      InCalendar year month day) ∧
    (InCalendar year month day → ∀ year' month' day' : ℤ, isValidDay year' month' day' = true →
      InCalendar year' month' day' → ∀ n n' : ℤ, dateToNumber year month day = .ok n →
        dateToNumber year' month' day' = .ok n' →
          (n < n' ↔ Earlier (year, month, day) (year', month', day'))) := by
  refine ⟨⟨?_, fun hcal => ?_⟩, ?_⟩
  · rintro ⟨n, hn, hdate⟩
    have hyear : year ≠ 0 := by
      rintro rfl
      exact dateToNumber_zero hn
    refine ⟨hyear, ?_⟩
    rintro ⟨hneg, rfl, rfl⟩
    obtain rfl := Except.ok.inj ((dateToNumber_eq h hyear).symm.trans hn)
    rw [numberToDate_leapDay h hneg] at hdate
    simp at hdate
  · refine ⟨_, dateToNumber_eq h hcal.1, ?_⟩
    rw [numberToDate_place (inMonth_calendarYear h hcal), calendarYear_sub hcal.1]
  · intro hcal year' month' day' h' hcal' n n' hn hn'
    obtain rfl := Except.ok.inj ((dateToNumber_eq h hcal.1).symm.trans hn)
    obtain rfl := Except.ok.inj ((dateToNumber_eq h' hcal'.1).symm.trans hn')
    exact place_lt_iff_earlier (inMonth_calendarYear h hcal) (inMonth_calendarYear h' hcal')
      hcal.1 hcal'.1

/-- The 29 February 2020 is given back. -/
theorem numberToDate_dateToNumber_2020 :
    ∃ n, dateToNumber 2020 2 29 = .ok n ∧ numberToDate n = (2020, 2, 29) :=
  (numberToDate_dateToNumber_iff (by decide)).1.mpr ⟨by decide, by decide⟩

/-- The source accepts the 29 February of the year -4, and gives the 1 March back. -/
theorem numberToDate_leapDay_four :
    isValidDay (-4) 2 29 = true ∧
      ∃ n, dateToNumber (-4) 2 29 = .ok n ∧ numberToDate n = (-4, 3, 1) := by
  have h : isValidDay (-4) 2 29 = true := by decide
  exact ⟨h, _, dateToNumber_eq h (by decide), numberToDate_leapDay h (by decide)⟩

end DuckDB.Date
