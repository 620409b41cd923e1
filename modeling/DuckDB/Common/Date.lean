import DuckDB.Common.Constants
import Mathlib.Data.Int.Notation

/-!
# Dates

The conversion between a date and its number (`common/types/date.cpp`). The division of the source
rounds towards zero. The numbers are integers here; those of the source have 32 bits.
-/

namespace DuckDB.Date

/-- `NORMALDAYS`. -/
def normalDays : List ℤ := [0, 31, 28, 31, 30, 31, 30, 31, 31, 30, 31, 30, 31]

/-- `LEAPDAYS`. -/
def leapDays : List ℤ := [0, 31, 29, 31, 30, 31, 30, 31, 31, 30, 31, 30, 31]

/-- `CUMDAYS`. -/
def cumDays : List ℤ := [0, 31, 59, 90, 120, 151, 181, 212, 243, 273, 304, 334, 365]

/-- `CUMLEAPDAYS`. -/
def cumLeapDays : List ℤ := [0, 31, 60, 91, 121, 152, 182, 213, 244, 274, 305, 335, 366]

/-- An entry of one of the tables. -/
def entry (table : List ℤ) (index : ℤ) : ℤ :=
  table.getD index.toNat 0

/-- `YEAR_MAX`. -/
def yearMax : ℤ := 5867411

/-- `YEAR_MIN`. -/
def yearMin : ℤ := -yearMax

/-- `leapyear`, and `Date::IsLeapYear`. -/
def leapyear (year : ℤ) : Bool :=
  year.tmod 4 = 0 && (year.tmod 100 ≠ 0 || year.tmod 400 = 0)

/-- `MONTHDAYS`. -/
def monthDays (month year : ℤ) : ℤ :=
  if month ≠ 2 then entry leapDays month else if leapyear year then 29 else 28

/-- `YEARDAYS`. -/
def yearDays (year : ℤ) : ℤ :=
  if leapyear year then 366 else 365

/-- `DATE`. -/
def date (day month year : ℤ) : Bool :=
  month > 0 && month ≤ 12 && day > 0 && year ≠ 0 && year ≥ yearMin && year ≤ yearMax &&
    day ≤ monthDays month year

/-- `leapyears`. -/
def leapyears (year : ℤ) : ℤ :=
  let y4 := year.tdiv 4
  let y100 := year.tdiv 100
  let y400 := year.tdiv 400
  y4 + y400 - y100 + if year ≥ 0 then 1 else 0

theorem yearDays_ge (year : ℤ) : 365 ≤ yearDays year := by
  unfold yearDays
  split <;> omega

/-- The loop of `number_to_date` for negative numbers. -/
def forward (year day : ℤ) : ℤ × ℤ :=
  if day ≥ 0 then forward (year + 1) (day - yearDays (year + 1)) else (year, day)
termination_by (day + 1).toNat
decreasing_by
  have hdays := yearDays_ge (year + 1)
  omega

/-- The loop of `number_to_date` for the other numbers. -/
def backward (year day : ℤ) : ℤ × ℤ :=
  if day < 0 then backward (year - 1) (day + yearDays (year - 1)) else (year, day)
termination_by (-day).toNat
decreasing_by
  have hdays := yearDays_ge (year - 1)
  omega

/-- The year and the day of the year, counted from zero. -/
def yearAndDay (n : ℤ) : ℤ × ℤ :=
  let year := n.tdiv 365
  let day := n - year * 365 - leapyears (if year ≥ 0 then year - 1 else year)
  if n < 0 then
    let (year, day) := forward (year - 1) day
    (year, yearDays year + day)
  else
    backward year day

/-- The first month from `start` on that has the day; 13 if the loop finds none. -/
def findMonth (table : List ℤ) (day start : ℤ) : ℤ :=
  let months := (List.range' start.toNat (13 - start.toNat)).map Int.ofNat
  (months.find? fun month => day > entry table (month - 1) && day ≤ entry table month).getD 13

/-- The month and the day of the month for a day of the year. -/
def monthAndDay (table : List ℤ) (day : ℤ) : ℤ × ℤ :=
  let month := findMonth table day (if day.tdiv 31 = 0 then 1 else day.tdiv 31)
  (month, day - entry table (month - 1))

/-- `number_to_date`, and `Date::Convert`. -/
def numberToDate (n : ℤ) : ℤ × ℤ × ℤ :=
  let (year, day) := yearAndDay n
  let (month, day) := monthAndDay (if leapyear year then cumLeapDays else cumDays) (day + 1)
  (if year ≤ 0 then year - 1 else year, month, day)

/-- `date_to_number`, and `Date::FromDate`. -/
def dateToNumber (year month day : ℤ) : Except Exception ℤ :=
  if !date day month year then
    throw (.exception "Invalid date")
  else
    let year := if year < 0 then year + 1 else year
    let n := day - 1
    let n := if month > 2 && leapyear year then n + 1 else n
    let n := n + entry cumDays (month - 1)
    return n + (365 * year + leapyears (if year ≥ 0 then year - 1 else year))

/-- `Date::IsValidDay`. -/
def isValidDay (year month day : ℤ) : Bool :=
  if month < 1 || month > 12 then false
  else if day < 1 then false
  else if year < yearMin || year > yearMax then false
  else if leapyear year then day ≤ entry leapDays month
  else day ≤ entry normalDays month

/-! ### Weeks -/

/-- `Date::ExtractISODayOfTheWeek`. -/
def extractISODayOfTheWeek (date : ℤ) : ℤ :=
  if date < 2 then (date - 1).tmod 7 + 7 else (date - 2).tmod 7 + 1

theorem yearMin_le_of_dateToNumber {year month day n : ℤ} (h : dateToNumber year month day = .ok n) :
    yearMin ≤ year := by
  unfold dateToNumber at h
  split at h <;> rename_i hdate
  · cases h
  · simp only [date, Bool.not_eq_true', Bool.not_eq_false, Bool.and_eq_true, decide_eq_true_eq] at hdate
    omega

/-- `GetWeek`; months and days count from zero. -/
def getWeek (year month day : ℤ) : Except Exception ℤ :=
  match hfourth : dateToNumber year 1 4 with
  | .error e => .error e
  | .ok fourth =>
    let dayOfTheYear := entry (if leapyear year then cumLeapDays else cumDays) month + day
    let dayOfTheFourth := extractISODayOfTheWeek fourth
    let firstDayOfTheFirstWeek := if dayOfTheFourth ≥ 4 then 0 else 5 - dayOfTheFourth
    if dayOfTheYear < firstDayOfTheFirstWeek then getWeek (year - 1) 12 day
    else .ok ((dayOfTheYear - firstDayOfTheFirstWeek).tdiv 7 + 1)
termination_by (year - yearMin + 1).toNat
decreasing_by
  have hyear := yearMin_le_of_dateToNumber hfourth
  omega

/-- `Date::ExtractWeekNumber`. -/
def extractWeekNumber (date : ℤ) : Except Exception ℤ :=
  let (year, month, day) := numberToDate date
  getWeek year (month - 1) (day - 1)

end DuckDB.Date
