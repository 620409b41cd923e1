import DuckDB.Common.Equiv.Date

/-!
# The number of a week

`GetWeek` counts the weeks from a day that lies up to three days behind the Monday of the first
week, so the first days of a week count to the week before. It knows the days that belong to the
last week of the year before, but not those that belong to the first week of the year after. For a
day of the former in the year 1 it asks for the year 0, and before the year 1 it asks the year of
the source whether it is a leap year.

## Main results

- `Date.extractWeekNumber_iff` — which dates get the number of their week
-/

namespace DuckDB.Date

open Theory

variable {year month day n : ℤ}

theorem extractISODayOfTheWeek_eq : extractISODayOfTheWeek n = weekday n := by
  unfold extractISODayOfTheWeek weekday
  split
  · rw [← neg_sub, Int.neg_tmod, Int.tmod_eq_emod_of_nonneg (by omega)]
    omega
  · rw [Int.tmod_eq_emod_of_nonneg (by omega)]

/-- The day from which the source counts the weeks of a year. -/
def firstDayOfTheFirstWeek (year : ℤ) : ℤ :=
  let dayOfTheFourth := weekday (yearStart (calendarYear year) + 3)
  if dayOfTheFourth ≥ 4 then 0 else 5 - dayOfTheFourth

/-- How far that day lies behind the Monday of the first week. -/
def lag (year : ℤ) : ℤ :=
  firstDayOfTheFirstWeek year - (4 - weekday (yearStart (calendarYear year) + 3))

/-- A year that the source can use. -/
def IsYear (year : ℤ) : Prop :=
  year ≠ 0 ∧ yearMin ≤ year ∧ year ≤ yearMax

theorem getWeek_eq (hyear : IsYear year) : getWeek year month day =
      if entry (monthTable year) month + day < firstDayOfTheFirstWeek year then
        getWeek (year - 1) 12 day
      else .ok ((entry (monthTable year) month + day - firstDayOfTheFirstWeek year) / 7 + 1) := by
  have hvalid : isValidDay year 1 4 = true :=
    (isValidDay_iff year 1 4).2 ⟨by decide, by decide, by decide, hyear.2.1, hyear.2.2,
      by simp [monthDays, entry, leapDays]⟩
  have hfourth : dateToNumber year 1 4 = .ok (yearStart (calendarYear year) + 3) := by
    rw [dateToNumber_eq hvalid hyear.1, place, show (1 : ℤ) - 1 = 0 from rfl, entry_zero]
    rfl
  rw [getWeek]
  split
  · next e he => cases he.symm.trans hfourth
  · next n hn =>
    obtain rfl := Except.ok.inj (hn.symm.trans hfourth)
    simp only [extractISODayOfTheWeek_eq]
    change (if entry (monthTable year) month + day < firstDayOfTheFirstWeek year then _
      else Except.ok ((entry (monthTable year) month + day -
        firstDayOfTheFirstWeek year).tdiv 7 + 1)) = _
    by_cases hlt : entry (monthTable year) month + day < firstDayOfTheFirstWeek year
    · rw [if_pos hlt, if_pos hlt]
    · rw [if_neg hlt, if_neg hlt, Int.tdiv_eq_ediv_of_nonneg (sub_nonneg.2 (not_lt.1 hlt))]

theorem getWeek_ne_ok (hyear : ¬IsYear year) (hmax : year ≤ yearMax) {week : ℤ} :
    getWeek year month day ≠ .ok week := by
  rw [getWeek]
  split
  · intro h
    cases h
  · next n hn =>
    refine absurd ⟨?_, yearMin_le_of_dateToNumber hn, hmax⟩ hyear
    rintro rfl
    exact dateToNumber_zero hn

theorem firstDayOfTheFirstWeek_bounds (year : ℤ) :
    0 ≤ firstDayOfTheFirstWeek year ∧ firstDayOfTheFirstWeek year ≤ 4 := by
  simp only [firstDayOfTheFirstWeek, weekday]
  split_ifs <;> omega

theorem week_eq_iff (_ : yearStart (calendarYear year) ≤ thursday n) (error : ℤ) :
    (n - yearStart (calendarYear year) + error - firstDayOfTheFirstWeek year) / 7 =
      (thursday n - yearStart (calendarYear year)) / 7 ↔
    lag year ≤ weekday n - 1 + error ∧ weekday n - 1 + error < lag year + 7 := by
  simp only [lag, firstDayOfTheFirstWeek, thursday, weekday] at *
  split_ifs <;> omega

theorem getWeek_late (hyear : IsYear year) (h : 4 < entry (monthTable year) month + day) :
    getWeek year month day =
      .ok ((entry (monthTable year) month + day - firstDayOfTheFirstWeek year) / 7 + 1) := by
  have hbounds := firstDayOfTheFirstWeek_bounds year
  rw [getWeek_eq hyear, if_neg (by omega)]

/-! ### Dates -/

/-- How many days of the year the source counts too much before a month. -/
def overcount (year month : ℤ) : ℤ :=
  if month ≤ 2 then 0 else yearDays year - yearDays (calendarYear year)

theorem overcount_bounds (year month : ℤ) : -1 ≤ overcount year month ∧ overcount year month ≤ 1 := by
  unfold overcount yearDays
  split_ifs <;> decide

/-- The year of the source whose weeks a day belongs to, if it does not belong to the next year. -/
def weekYear (year month day : ℤ) : ℤ :=
  if yearStart (calendarYear year) ≤ thursday (place (calendarYear year) month day) then year
  else year - 1

/-- The day of the week, counted from Monday on as the source counts the days of the year. -/
def countedWeekday (year month day : ℤ) : ℤ :=
  weekday (place (calendarYear year) month day) - 1 +
    overcount (weekYear year month day) (if weekYear year month day = year then month else 13)

/-- The dates that get the number of their week. -/
structure InCountedWeek (year month day : ℤ) : Prop where
  not_next : thursday (place (calendarYear year) month day) < yearStart (calendarYear year + 1)
  isYear : IsYear (weekYear year month day)
  lag_le : lag (weekYear year month day) ≤ countedWeekday year month day
  lt_lag : countedWeekday year month day < lag (weekYear year month day) + 7

theorem inCountedWeek_iff {year' : ℤ} (hyear : weekYear year month day = year') :
    InCountedWeek year month day ↔
      thursday (place (calendarYear year) month day) < yearStart (calendarYear year + 1) ∧
        IsYear year' ∧ lag year' ≤ countedWeekday year month day ∧
          countedWeekday year month day < lag year' + 7 := by
  subst hyear
  exact ⟨fun ⟨hnext, hyear, hle, hlt⟩ => ⟨hnext, hyear, hle, hlt⟩,
    fun ⟨hnext, hyear, hle, hlt⟩ => ⟨hnext, hyear, hle, hlt⟩⟩

section Cases

variable (h : InMonth (calendarYear year) month day)

include h

theorem dayOfTheYear_eq : entry (monthTable year) (month - 1) + (day - 1) =
    place (calendarYear year) month day - yearStart (calendarYear year) + overcount year month := by
  rw [place, entry_cumDays year h.month_pos h.month_le,
    entry_cumDays (calendarYear year) h.month_pos h.month_le]
  unfold overcount yearDays
  by_cases hmonth : month ≤ 2 <;> cases leapyear year <;> cases leapyear (calendarYear year) <;>
    simp [hmonth, lt_iff_not_ge] <;> omega

theorem january_of_lt (hlt : place (calendarYear year) month day < yearStart (calendarYear year) + 31) :
    month = 1 := by
  by_contra hne
  have hpos := h.month_pos
  have hle := h.month_le
  have hentry := entry_month (calendarYear year) (show (0 : ℤ) < 1 by decide) (by decide)
  have hfirst := entry_le (calendarYear year) (show (0 : ℤ) ≤ 1 by decide)
    (show 1 ≤ month - 1 by omega) (by omega)
  rw [show (1 : ℤ) - 1 = 0 from rfl, entry_zero] at hentry
  have hdays : monthDays 1 (calendarYear year) = 31 := rfl
  have hday := h.day_pos
  unfold place at hlt
  omega

variable (hyear : IsYear year)

include hyear

theorem not_isWeekNumber_next {week : ℤ} (hnext : yearStart (calendarYear year + 1) ≤
      thursday (place (calendarYear year) month day))
    (hweek : getWeek year (month - 1) (day - 1) = .ok week) :
    ¬IsWeekNumber (place (calendarYear year) month day) week := by
  have hin := (inYear_place h).2
  have hlength := yearLength_ge (calendarYear year + 1)
  have hlength' := yearLength_ge (calendarYear year)
  have hsucc := yearStart_succ (calendarYear year)
  have hbounds := firstDayOfTheFirstWeek_bounds year
  have hover := overcount_bounds year month
  have hday := dayOfTheYear_eq h
  have hnear := thursday_near (place (calendarYear year) month day)
  obtain rfl := Except.ok.inj ((getWeek_late hyear (by omega)).symm.trans hweek)
  rw [isWeekNumber_iff ⟨hnext, by rw [yearStart_succ]; omega⟩]
  omega

theorem exists_isWeekNumber_previous (hprevious : thursday (place (calendarYear year) month day) <
      yearStart (calendarYear year)) : (∃ week, getWeek year (month - 1) (day - 1) = .ok week ∧
      IsWeekNumber (place (calendarYear year) month day) week) ↔ InCountedWeek year month day := by
  have hin := (inYear_place h).1
  have hlength := yearLength_ge (calendarYear year)
  have hsucc := yearStart_succ (calendarYear year)
  have hnear := thursday_near (place (calendarYear year) month day)
  have hnext : thursday (place (calendarYear year) month day) < yearStart (calendarYear year + 1) := by
    omega
  obtain rfl : month = 1 := january_of_lt h (by omega)
  have hday := dayOfTheYear_eq h
  have hover : overcount year 1 = 0 := rfl
  have hweekYear : weekYear year 1 day = year - 1 := if_neg (not_le.2 hprevious)
  have hcounted : countedWeekday year 1 day = weekday (place (calendarYear year) 1 day) - 1 +
      (yearDays (year - 1) - yearDays (calendarYear (year - 1))) := by
    rw [countedWeekday, hweekYear, if_neg (by omega)]
    rfl
  have hlt : entry (monthTable year) (1 - 1) + (day - 1) < firstDayOfTheFirstWeek year := by
    rw [hday, hover]
    simp only [firstDayOfTheFirstWeek, thursday, weekday] at *
    split_ifs <;> omega
  rw [getWeek_eq hyear, if_pos hlt]
  by_cases hprev : IsYear (year - 1)
  · have hcalendar : calendarYear (year - 1) + 1 = calendarYear year := by
      have hne := hprev.1
      have hne' := hyear.1
      unfold calendarYear
      split_ifs <;> omega
    have hstart := yearStart_succ (calendarYear (year - 1))
    have hdays := yearDays_eq (calendarYear (year - 1))
    have hge := yearDays_ge (year - 1)
    have hlength' := yearLength_ge (calendarYear (year - 1))
    have hend := entry_twelve (year - 1)
    have hpos := h.day_pos
    have hzero := entry_zero year
    rw [hcalendar] at hstart
    have hwithin : InYear (thursday (place (calendarYear year) 1 day)) (calendarYear (year - 1)) :=
      ⟨by omega, by rw [hcalendar]; exact hprevious⟩
    have hcount := week_eq_iff hwithin.1 (yearDays (year - 1) - yearDays (calendarYear (year - 1)))
    have hdiv : entry (monthTable (year - 1)) 12 + (day - 1) =
        place (calendarYear year) 1 day - yearStart (calendarYear (year - 1)) +
          (yearDays (year - 1) - yearDays (calendarYear (year - 1))) := by
      rw [show (1 : ℤ) - 1 = 0 from rfl] at hday
      omega
    rw [getWeek_late hprev (by omega), hdiv]
    simp only [Except.ok.injEq, exists_eq_left', isWeekNumber_iff hwithin, add_left_inj, hcount,
      ← hcounted]
    rw [inCountedWeek_iff hweekYear, and_iff_right hnext, and_iff_right hprev]
  · have hne : ¬∃ week, getWeek (year - 1) 12 (day - 1) = .ok week ∧
        IsWeekNumber (place (calendarYear year) 1 day) week := by
      rintro ⟨week, hweek, -⟩
      exact getWeek_ne_ok hprev (by have := hyear.2.2; omega) hweek
    exact iff_of_false hne fun hright => hprev ((inCountedWeek_iff hweekYear).1 hright).2.1

theorem exists_isWeekNumber_within (hwithin : InYear (thursday (place (calendarYear year) month day))
      (calendarYear year)) : (∃ week, getWeek year (month - 1) (day - 1) = .ok week ∧
      IsWeekNumber (place (calendarYear year) month day) week) ↔ InCountedWeek year month day := by
  have hcount := week_eq_iff hwithin.1 (overcount year month)
  have hweekYear : weekYear year month day = year := if_pos hwithin.1
  have hcounted : countedWeekday year month day =
      weekday (place (calendarYear year) month day) - 1 + overcount year month := by
    rw [countedWeekday, hweekYear, if_pos rfl]
  rw [inCountedWeek_iff hweekYear, and_iff_right hwithin.2, and_iff_right hyear, hcounted, ← hcount,
    getWeek_eq hyear]
  simp only [isWeekNumber_iff hwithin]
  have hday := dayOfTheYear_eq h
  split_ifs with hlt
  · -- the Monday of the first week is counted to the year before
    have hbounds := firstDayOfTheFirstWeek_bounds year
    have hover := overcount_bounds year month
    obtain rfl : month = 1 := january_of_lt h (by omega)
    have hover : overcount year 1 = 0 := rfl
    have hin := (inYear_place h).1
    have hfirst := hwithin.1
    have hnear := thursday_near (place (calendarYear year) 1 day)
    refine iff_of_false ?_ (by omega)
    rintro ⟨week, hweek, rfl⟩
    by_cases hprev : IsYear (year - 1)
    · have hge := yearDays_ge (year - 1)
      have hend := entry_twelve (year - 1)
      have hbounds' := firstDayOfTheFirstWeek_bounds (year - 1)
      have hpos := h.day_pos
      have heq := Except.ok.inj ((getWeek_late hprev (by omega)).symm.trans hweek)
      omega
    · exact getWeek_ne_ok hprev (by have := hyear.2.2; omega) hweek
  · rw [hday]
    simp

end Cases

theorem extractWeekNumber_place (h : isValidDay year month day = true)
    (hcal : InCalendar year month day) :
    extractWeekNumber (place (calendarYear year) month day) = getWeek year (month - 1) (day - 1) := by
  rw [extractWeekNumber, numberToDate_place (inMonth_calendarYear h hcal), calendarYear_sub hcal.1]

/-- A date gets the number of its week exactly if it is one of these. -/
theorem extractWeekNumber_iff {year month day : ℤ} (h : isValidDay year month day = true)
    (hcal : InCalendar year month day) :
    (∃ n week, dateToNumber year month day = .ok n ∧ extractWeekNumber n = .ok week ∧
      IsWeekNumber n week) ↔ InCountedWeek year month day := by
  have hmonth := inMonth_calendarYear h hcal
  obtain ⟨-, -, -, hmin, hmax, -⟩ := (isValidDay_iff year month day).1 h
  have hyear : IsYear year := ⟨hcal.1, hmin, hmax⟩
  simp only [dateToNumber_eq h hcal.1, Except.ok.injEq, ↓existsAndEq, true_and,
    extractWeekNumber_place h hcal]
  by_cases hnext : yearStart (calendarYear year + 1) ≤ thursday (place (calendarYear year) month day)
  · refine iff_of_false ?_ fun hright => absurd hnext (not_le.2 hright.not_next)
    rintro ⟨week, hweek, hnumber⟩
    exact not_isWeekNumber_next hmonth hyear hnext hweek hnumber
  · by_cases hprevious : thursday (place (calendarYear year) month day) <
        yearStart (calendarYear year)
    · exact exists_isWeekNumber_previous hmonth hyear hprevious
    · exact exists_isWeekNumber_within hmonth hyear ⟨not_lt.1 hprevious, not_le.1 hnext⟩

/-- The first Thursday of 2020. -/
theorem extractWeekNumber_2020 :
    ∃ n week, dateToNumber 2020 1 2 = .ok n ∧ extractWeekNumber n = .ok week ∧
      IsWeekNumber n week :=
  (extractWeekNumber_iff (by decide) ⟨by decide, by decide⟩).2
    ⟨by decide, ⟨by decide, by decide, by decide⟩, by decide, by decide⟩

/-- The first Monday of 1970 lies in the second week of the year. -/
theorem extractWeekNumber_1970 :
    dateToNumber 1970 1 5 = .ok 719532 ∧ extractWeekNumber 719532 = .ok 1 ∧
      IsWeekNumber 719532 2 := by
  have h : isValidDay 1970 1 5 = true := by decide
  have hcal : InCalendar 1970 1 5 := ⟨by decide, by decide⟩
  have hweek := extractWeekNumber_place h hcal
  rw [getWeek_eq ⟨by decide, by decide, by decide⟩, if_neg (by decide)] at hweek
  exact ⟨dateToNumber_eq h hcal.1, hweek, 1970, ⟨by decide, by decide⟩, by decide⟩

end DuckDB.Date
