import DuckDB.Common.Timestamp
import Mathlib.Data.List.Basic
import Mathlib.Tactic.Common

/-!
# The text of a timestamp

`Timestamp::ToString` writes a `T` between the date and the time. `Timestamp::FromString` leaves it
in front of the time, where `Time::FromString` looks for a number; and if the date has more than ten
characters, the rest of it as well. In neither case it finds a `:` behind the number.

## Main results

- `Timestamp.fromString_toString_ne_ok` — the text of a timestamp cannot be read
-/

namespace DuckDB

open List

namespace Text

variable {a b s : List Char} {c : Char} {n : ℤ}

/-- The text begins with a part without `:`, and then comes a `T`. -/
def HasT (s : List Char) : Prop :=
  ∃ a b, s = a ++ 'T' :: b ∧ ':' ∉ a

variable {rest : List Char}

theorem HasT.dropWhile (h : HasT s) (p : Char → Bool) (hp : p 'T' = false) :
    HasT (s.dropWhile p) := by
  obtain ⟨a, b, rfl, ha⟩ := h
  refine ⟨a.dropWhile p, b, ?_, fun hmem => ha (dropWhile_sublist p |>.mem hmem)⟩
  rw [dropWhile_append]
  split_ifs with hempty
  · simp [isEmpty_iff.1 hempty, hp]
  · rfl

theorem HasT.readSign (h : HasT s) : HasT (readSign s).2 := by
  unfold Text.readSign
  split
  all_goals
    first
    | exact h
    | obtain ⟨a, b, hs, ha⟩ := h
      cases a with
      | nil => simp at hs
      | cons c a =>
        exact ⟨a, b, (cons.inj hs).2, fun hmem => ha (mem_cons_of_mem c hmem)⟩

theorem HasT.readInt (h : HasT s) (hread : readInt s = some (n, rest)) : HasT rest := by
  have hsign := (h.dropWhile isSpace (by decide)).readSign
  unfold Text.readInt at hread
  simp only at hread
  split_ifs at hread
  obtain ⟨-, rfl⟩ := Prod.mk.inj (Option.some.inj hread)
  exact hsign.dropWhile Char.isDigit (by decide)

theorem HasT.readChar (h : HasT s) (hread : readChar s = some (c, rest)) : c ≠ ':' := by
  obtain ⟨a, b, hs, ha⟩ := h.dropWhile isSpace (by decide)
  unfold Text.readChar at hread
  rw [hs] at hread
  cases a with
  | nil =>
    obtain ⟨rfl, -⟩ := Prod.mk.inj (Option.some.inj hread)
    decide
  | cons c' a =>
    obtain ⟨rfl, -⟩ := Prod.mk.inj (Option.some.inj hread)
    rintro rfl
    exact ha mem_cons_self

theorem HasT.readFields {first second third : ℤ} {sep sep2 : Char} (h : HasT s)
    (hread : readFields s = some (first, sep, second, sep2, third)) : sep ≠ ':' := by
  simp only [Text.readFields, Option.bind_eq_bind, Option.bind_eq_some_iff, Option.pure_def,
    Option.some.injEq, Prod.mk.injEq, Prod.exists] at hread
  obtain ⟨_, s1, hint, _, s2, hchar, _, _, _, _, _, _, _, _, _, -, rfl, -⟩ := hread
  exact (h.readInt hint).readChar hchar

theorem colon_not_mem_formatInt {width : ℕ} : ':' ∉ formatInt width n := by
  have hdigits : ':' ∉ Nat.toDigits 10 n.natAbs := fun hmem =>
    absurd (Nat.isDigit_of_mem_toDigits (by decide) (by decide) hmem) (by decide)
  unfold formatInt
  split_ifs <;> simp [hdigits]

theorem le_length_formatInt (width : ℕ) (n : ℤ) : width ≤ (formatInt width n).length := by
  simp only [formatInt, length_append, length_replicate]
  omega

end Text

open Text

theorem Time.fromString_ne_ok {s : List Char} (h : HasT s) (time : ℤ) :
    fromString s ≠ .ok time := by
  unfold fromString
  split
  · next hread =>
    rw [if_pos (by simp [h.readFields hread])]
    exact nofun
  · exact nofun

theorem Date.colon_not_mem_toString {date : ℤ} : ':' ∉ toString date := by
  simp [toString, colon_not_mem_formatInt]

theorem Date.le_length_toString (date : ℤ) : 10 ≤ (toString date).length := by
  rw [toString]
  obtain ⟨year, month, day⟩ := numberToDate date
  have hyear := le_length_formatInt 4 year
  have hmonth := le_length_formatInt 2 month
  have hday := le_length_formatInt 2 day
  simp only [length_append, length_cons]
  omega

namespace Timestamp

theorem fromString_ne_ok {s : List Char} (h : HasT (s.drop 10)) (value : BitVec 64) :
    fromString s ≠ .ok value := by
  intro hread
  simp only [fromString, bind_eq_ok] at hread
  obtain ⟨date, -, hread⟩ := hread
  split_ifs at hread
  obtain ⟨time, htime, -⟩ := bind_eq_ok.1 hread
  exact Time.fromString_ne_ok h time htime

theorem hasT_drop_toString (timestamp : BitVec 64) : HasT ((toString timestamp).drop 10) := by
  have hlength := Date.le_length_toString (getDate timestamp)
  refine ⟨(Date.toString (getDate timestamp)).drop 10, Time.toString (getTime timestamp) ++ ['Z'],
    ?_, fun hmem => Date.colon_not_mem_toString (mem_of_mem_drop hmem)⟩
  rw [toString, append_assoc, drop_append_of_le_length hlength]
  rfl

/-- The text of a timestamp cannot be read. -/
theorem fromString_toString_ne_ok (timestamp value : BitVec 64) :
    fromString (toString timestamp) ≠ .ok value :=
  fromString_ne_ok (hasT_drop_toString timestamp) value

/-- The beginning of 1970 is the text `1970-01-01T00:00:00Z`. -/
theorem fromString_toString_1970 :
    Date.dateToNumber 1970 1 1 = .ok 719528 ∧ Time.timeToNumber 0 0 0 0 = .ok 0 ∧
      ∀ value, fromString (toString (pack 719528 0)) ≠ .ok value :=
  ⟨rfl, rfl, fromString_ne_ok (hasT_drop_toString _)⟩

end Timestamp

end DuckDB
