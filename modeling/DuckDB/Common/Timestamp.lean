import DuckDB.Common.Date

/-!
# Timestamps as text

`Date::ToString` and `Date::FromString` (`common/types/date.cpp`), the same for times
(`common/types/time.cpp`), and `Timestamp` (`common/types/timestamp.cpp`), which keeps the date in
its high 32 bits and the time in its low ones.
-/

namespace DuckDB

/-! ### Streams

A stream is the list of characters that are left; it has failed if there is none. -/

namespace Text

/-- `isspace`. -/
def isSpace (c : Char) : Bool :=
  c ∈ [' ', '\t', '\n', '\x0b', '\x0c', '\r']

/-- `stream >> c` for a character. -/
def readChar (s : List Char) : Option (Char × List Char) :=
  match s.dropWhile isSpace with
  | [] => none
  | c :: s => some (c, s)

/-- The sign in front of a number. -/
def readSign : List Char → ℤ × List Char
  | '-' :: s => (-1, s)
  | '+' :: s => (1, s)
  | s => (1, s)

/-- `stream >> n` for a number of 32 bits. -/
def readInt (s : List Char) : Option (ℤ × List Char) :=
  let (sign, s) := readSign (s.dropWhile isSpace)
  let digits := s.takeWhile Char.isDigit
  let value := sign * digits.foldl (fun n c => 10 * n + (c.toNat - 48 : ℤ)) 0
  if digits ≠ [] ∧ -2147483648 ≤ value ∧ value ≤ 2147483647 then
    some (value, s.dropWhile Char.isDigit)
  else none

/-- Three numbers and what separates them. -/
def readFields (s : List Char) : Option (ℤ × Char × ℤ × Char × ℤ) := do
  let (first, s) ← readInt s
  let (sep, s) ← readChar s
  let (second, s) ← readInt s
  let (sep2, s) ← readChar s
  let (third, _) ← readInt s
  return (first, sep, second, sep2, third)

/-- The number for `%0wd`: zeros fill the width. -/
def formatInt (width : ℕ) (n : ℤ) : List Char :=
  let sign := if n < 0 then ['-'] else []
  let digits := Nat.toDigits 10 n.natAbs
  sign ++ List.replicate (width - sign.length - digits.length) '0' ++ digits

end Text

open Text

namespace Date

/-- `Date::FromString`. -/
def fromString (str : List Char) : Except Exception ℤ :=
  let error := Exception.conversionException ("date/time field value out of range: \"" ++
    String.ofList str ++ "\", expected format is (YYYY-MM-DD)")
  match readFields str with
  | some (year, sep, month, sep2, day) =>
    if !isValidDay year month day || sep ≠ sep2 || sep ≠ '-' then throw error
    else dateToNumber year month day
  | none => throw error

/-- `Date::ToString`. -/
def toString (date : ℤ) : List Char :=
  let (year, month, day) := numberToDate date
  formatInt 4 year ++ '-' :: formatInt 2 month ++ '-' :: formatInt 2 day

end Date

namespace Time

/-- `TIME`, and `Time::IsValidTime` for 0 milliseconds. -/
def isValidTime (hour min sec msec : ℤ) : Bool :=
  hour ≥ 0 && hour < 24 && min ≥ 0 && min < 60 && sec ≥ 0 && sec ≤ 60 && msec ≥ 0 && msec < 1000

/-- `time_to_number`. -/
def timeToNumber (hour min sec msec : ℤ) : Except Exception ℤ :=
  if !isValidTime hour min sec msec then throw (.exception "Invalid time")
  else return (((hour * 60) + min) * 60 + sec) * 1000 + msec

/-- `number_to_time`. -/
def numberToTime (n : ℤ) : ℤ × ℤ × ℤ × ℤ :=
  let h := n.tdiv 3600000
  let n := n - h * 3600000
  let m := n.tdiv 60000
  let n := n - m * 60000
  let s := n.tdiv 1000
  (h, m, s, n - s * 1000)

/-- `Time::FromString`. -/
def fromString (str : List Char) : Except Exception ℤ :=
  let error := Exception.conversionException ("time field value out of range: \"" ++
    String.ofList str ++ "\", expected format is (hh-mm-ss)")
  match readFields str with
  | some (hour, sep, minute, sep2, second) =>
    if !isValidTime hour minute second 0 || sep ≠ sep2 || sep ≠ ':' then throw error
    else timeToNumber hour minute second 0
  | none => throw error

/-- `Time::ToString`. -/
def toString (time : ℤ) : List Char :=
  let (hour, min, sec, _) := numberToTime time
  formatInt 2 hour ++ ':' :: formatInt 2 min ++ ':' :: formatInt 2 sec

end Time

namespace Timestamp

/-- `Timestamp::GetDate`. -/
def getDate (timestamp : BitVec 64) : ℤ :=
  ((timestamp.sshiftRight 32).setWidth 32).toInt

/-- `Timestamp::GetTime`. -/
def getTime (timestamp : BitVec 64) : ℤ :=
  (timestamp.setWidth 32).toInt

/-- A date and a time in one number. -/
def pack (date time : ℤ) : BitVec 64 :=
  BitVec.ofInt 64 date <<< 32 ||| BitVec.ofInt 64 time

/-- `Timestamp::FromString`; `substr` throws if the text is too short. -/
def fromString (str : List Char) : Except Exception (BitVec 64) := do
  let date ← Date.fromString (str.take 10)
  if str.length < 10 then throw (.exception "basic_string::substr")
  else
    let time ← Time.fromString (str.drop 10)
    return pack date time

/-- `Timestamp::ToString`. -/
def toString (timestamp : BitVec 64) : List Char :=
  Date.toString (getDate timestamp) ++ 'T' :: Time.toString (getTime timestamp) ++ ['Z']

end Timestamp

end DuckDB
