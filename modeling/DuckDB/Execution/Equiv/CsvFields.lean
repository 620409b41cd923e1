import DuckDB.Execution.PhysicalCopy
import Mathlib.Data.List.Infix
import Mathlib.Data.List.TakeWhile
import Mathlib.Tactic.Common

/-!
# The fields of a line

A line is a sequence of fields with a delimiter between them. A field that begins with a quote goes
on to the next quote that a delimiter or the end of the line follows; other fields have no delimiter
inside.

The reader differs at the end of a line: a quote counts as a closing quote if at most one character
follows it, a delimiter behind a closing quote is skipped without a look at what comes next, and a
field that ends with a quote without having begun with one is lost.

## Main results

- `readLine_eq_ok_iff` — the reader pushes a list of fields that does not depend on the table
- `agrees_iff` — when this list is the list of the fields of the line
- `readsFields_iff` — which lines of bytes are read and stored field by field
-/

namespace DuckDB.PhysicalCopy

open List

/-! ### Lines and their fields -/

/-- A field of a line, with the characters between its delimiters or its quotes. -/
inductive Field where
  | plain (text : List Char)
  | quoted (text : List Char)
deriving DecidableEq, Repr

namespace Field

def text : Field → List Char
  | plain text => text
  | quoted text => text

/-- The characters of a field in a line. -/
def chars (info : CopyInformation) : Field → List Char
  | plain text => text
  | quoted text => info.quote :: (text ++ [info.quote])

end Field

/-- The fields of a line, and the rest of the line if it has a quote that is not closed. -/
structure Split where
  fields : List Field
  unterminated : Option (List Char)
deriving DecidableEq, Repr

/-- A field at the front of a line. -/
def Split.cons (field : Field) (split : Split) : Split where
  fields := field :: split.fields
  unterminated := split.unterminated

/-- `Splits info line split`: the line has these fields. -/
inductive Splits (info : CopyInformation) : List Char → Split → Prop
  | plain {text : List Char} : info.delimiter ∉ text → text.head? ≠ some info.quote →
    Splits info text ⟨[.plain text], none⟩
  | quoted {text : List Char} : ¬[info.quote, info.delimiter] <:+: text ++ [info.quote] →
    Splits info (info.quote :: (text ++ [info.quote])) ⟨[.quoted text], none⟩
  | unterminated {text : List Char} : ¬[info.quote, info.delimiter] <:+: text →
    text.getLast? ≠ some info.quote → Splits info (info.quote :: text) ⟨[], some text⟩
  | plainNext {text line : List Char} {split : Split} : info.delimiter ∉ text →
    (text ++ [info.delimiter]).head? ≠ some info.quote → Splits info line split →
    Splits info (text ++ info.delimiter :: line) (split.cons (.plain text))
  | quotedNext {text line : List Char} {split : Split} :
    ¬[info.quote, info.delimiter] <:+: text ++ [info.quote] → Splits info line split →
    Splits info (info.quote :: (text ++ info.quote :: info.delimiter :: line))
      (split.cons (.quoted text))

/-- The row of a list of fields, for a table with `n` columns: one empty field more than there are
columns is allowed. -/
def Accepts (n : ℕ) (texts : List (List Char)) (row : List (Option (List Char))) : Prop :=
  texts.length = n ∧ row = texts.map valueOf ∨
    texts.length = n + 1 ∧ texts.getLast? = some [] ∧ row = texts.dropLast.map valueOf

/-- The line with the given fields. -/
def lineOf (info : CopyInformation) : List Field → Option (List Char) → List Char
  | [], none => []
  | [], some text => info.quote :: text
  | [field], none => field.chars info
  | field :: fields, unterminated =>
    field.chars info ++ info.delimiter :: lineOf info fields unterminated

/-- The line of a split. -/
def Split.line (info : CopyInformation) (split : Split) : List Char :=
  lineOf info split.fields split.unterminated

variable (info : CopyInformation)

/-! ### What the reader pushes -/

/-- A field in front of those that are pushed later. -/
def consField (field : List Char) (rest : List (List Char) × Bool) : List (List Char) × Bool :=
  (field :: rest.1, rest.2)

/-- The fields that the loop over a line pushes, and whether it ends inside of quotes. -/
def pushedFields : List Char → Bool → Bool → List Char → List (List Char) × Bool
  | _, inQuotes, _, [] => ([], inQuotes)
  | field, inQuotes, skip, c :: rest =>
    if skip then pushedFields field inQuotes false rest
    else if c = info.quote then
      if !inQuotes then
        if field ≠ [] then pushedFields (field ++ [c]) false false rest
        else pushedFields field true false rest
      else if !endOfField info rest then pushedFields (field ++ [c]) true false rest
      else consField field (pushedFields [] false true rest)
    else if inQuotes then pushedFields (field ++ [c]) true false rest
    else if c = info.delimiter then
      if rest = [] then ([field, []], false)
      else consField field (pushedFields [] false false rest)
    else if rest = [] then ([field ++ [c]], false)
    else pushedFields (field ++ [c]) false false rest

variable {info} {n linenr : ℕ}

/-- The values of a line so far. -/
def pushAll (n linenr : ℕ) : List (List Char) → LineState → Except Exception LineState
  | [], state => .ok state
  | field :: fields, state => (pushValue n linenr field state).bind (pushAll n linenr fields)

/-- The parts of a state that the checks after the loop look at. -/
def outcome (state : LineState) (inQuotes : Bool) : LineState :=
  { field := [], inQuotes, column := state.column, values := state.values }

variable {state state' : LineState} {field : List Char} {post pre : List Field}
  {row : List (Option (List Char))}

theorem pushAll_congr {fields : List (List Char)} (hcolumn : state.column = state'.column)
    (hvalues : state.values = state'.values) {inQuotes : Bool} :
    (pushAll n linenr fields state).map (outcome · inQuotes) =
      (pushAll n linenr fields state').map (outcome · inQuotes) := by
  induction fields generalizing state state' with
  | nil =>
    simp only [pushAll, Except.map, outcome, hcolumn, hvalues]
  | cons field fields ih =>
    simp only [pushAll, pushValue, hcolumn]
    split_ifs
    · exact ih rfl hvalues
    · rfl
    · exact ih rfl (by simp only [hvalues])

theorem pushValue_frame (h : pushValue n linenr field state = .ok state') :
    state'.inQuotes = state.inQuotes ∧ state'.skip = state.skip := by
  unfold pushValue at h
  split_ifs at h <;> obtain rfl := Except.ok.inj h <;> exact ⟨rfl, rfl⟩

variable (info n linenr) in
theorem readChars_eq (line : List Char) (state : LineState) :
    (readChars info n linenr state line).map (fun s => outcome s s.inQuotes) =
      (pushAll n linenr (pushedFields info state.field state.inQuotes state.skip line).1 state).map
        (outcome · (pushedFields info state.field state.inQuotes state.skip line).2) := by
  induction line generalizing state with
  | nil => rfl
  | cons c rest ih =>
    -- the loop goes on in `s'`, which differs from `s` in the flags
    have hgo (s' s : LineState) {field : List Char} {inQuotes skip : Bool}
        (hfield : s'.field = field) (hin : s'.inQuotes = inQuotes) (hskip : s'.skip = skip)
        (hcolumn : s'.column = s.column) (hvalues : s'.values = s.values) :
        (readChars info n linenr s' rest).map (fun s => outcome s s.inQuotes) =
          (pushAll n linenr (pushedFields info field inQuotes skip rest).1 s).map
            (outcome · (pushedFields info field inQuotes skip rest).2) := by
      rw [ih, hfield, hin, hskip]
      exact pushAll_congr hcolumn hvalues
    simp only [readChars, pushedFields]
    split_ifs with hskip hquote hin hfield hend hin hdelim hrest hrest
    · exact hgo _ _ rfl rfl rfl rfl rfl
    · exact hgo _ _ rfl (by simpa using hin) (by simpa using hskip) rfl rfl
    · exact hgo _ _ rfl rfl (by simpa using hskip) rfl rfl
    · exact hgo _ _ rfl (by simpa using hin) (by simpa using hskip) rfl rfl
    · simp only [consField, pushAll]
      cases hpush : pushValue n linenr state.field state with
      | error e => rfl
      | ok s => exact hgo _ s rfl rfl rfl rfl rfl
    · exact hgo _ _ rfl hin (by simpa using hskip) rfl rfl
    · -- the delimiter is the last character
      simp only [pushAll]
      cases hpush : pushValue n linenr state.field state with
      | error e => rfl
      | ok s =>
        have hs : s.inQuotes = false := by
          rw [(pushValue_frame hpush).1]
          simpa using hin
        cases hpush' : pushValue n linenr [] s with
        | error e => simp [Except.bind, Except.map, hpush']
        | ok s' =>
          have hs' : s'.inQuotes = false := (pushValue_frame hpush').1.trans hs
          simp [Except.bind, Except.map, hpush', hs']
    · simp only [consField, pushAll]
      cases hpush : pushValue n linenr state.field state with
      | error e => rfl
      | ok s =>
        obtain ⟨hs, hs'⟩ := pushValue_frame hpush
        exact hgo _ s rfl (hs.trans (by simpa using hin)) (hs'.trans (by simpa using hskip)) rfl rfl
    · simp only [pushAll]
      cases hpush : pushValue n linenr (state.field ++ [c]) state with
      | error e => rfl
      | ok s =>
        have hs : s.inQuotes = false := by
          rw [(pushValue_frame hpush).1]
          simpa using hin
        simp [Except.bind, Except.map, hs]
    · exact hgo _ _ rfl (by simpa using hin) (by simpa using hskip) rfl rfl

/-- Behind the last column only the field of a trailing delimiter can be pushed. -/
theorem pushAll_full {fields : List (List Char)} (hcolumn : n ≤ state.column)
    (hfield : ¬(state.column = n ∧ field = [])) :
    pushAll n linenr (field :: fields) state ≠ .ok state' := by
  rw [pushAll, pushValue, if_neg hfield, if_pos hcolumn]
  rintro ⟨⟩

variable (linenr) in
theorem pushAll_eq_ok_iff (fields : List (List Char)) (hle : state.column ≤ n)
    (row : List (Option (List Char))) :
    (∃ state', pushAll n linenr fields state = .ok state' ∧ n ≤ state'.column ∧
      state'.values = row) ↔
      state.column + fields.length = n ∧ row = state.values ++ fields.map valueOf ∨
      state.column + fields.length = n + 1 ∧ fields.getLast? = some [] ∧
        row = state.values ++ fields.dropLast.map valueOf := by
  induction fields generalizing state with
  | nil =>
    simp only [pushAll, Except.ok.injEq, length_nil, map_nil, append_nil, getLast?_nil]
    constructor
    · rintro ⟨_, rfl, hn, rfl⟩
      exact .inl ⟨by omega, rfl⟩
    · rintro (⟨hn, rfl⟩ | ⟨hn, h, -⟩)
      · exact ⟨_, rfl, by omega, rfl⟩
      · cases h
  | cons field fields ih =>
    rw [length_cons]
    by_cases hk : state.column = n
    · by_cases hfield : field = []
      · -- the field of the trailing delimiter
        have hpush : pushValue n linenr field state =
            .ok { state with column := state.column + 1 } := by
          rw [pushValue, if_pos ⟨hk, hfield⟩]
        simp only [pushAll, hpush, Except.bind]
        cases fields with
        | nil =>
          simp only [pushAll, Except.ok.injEq]
          constructor
          · rintro ⟨_, rfl, -, rfl⟩
            exact .inr ⟨by simp [hk], by simp [hfield], by simp⟩
          · rintro (⟨hn, -⟩ | ⟨-, -, rfl⟩)
            · simp at hn
              omega
            · exact ⟨_, rfl, by simp [hk], by simp⟩
        | cons field' fields =>
          constructor
          · rintro ⟨state', hstate', -⟩
            exact absurd hstate' (pushAll_full (by simp [hk]) (by simp [hk]))
          · rintro (⟨hn, -⟩ | ⟨hn, -⟩) <;> simp at hn <;> omega
      · constructor
        · rintro ⟨state', hstate', -⟩
          exact absurd hstate' (pushAll_full hk.ge fun h => hfield h.2)
        · rintro (⟨hn, -⟩ | ⟨hn, hlast, -⟩)
          · omega
          · obtain rfl : fields = [] := length_eq_zero_iff.mp (by omega)
            exact absurd (Option.some.inj hlast) hfield
    · have hpush : pushValue n linenr field state = .ok { state with
            column := state.column + 1
            values := state.values ++ [valueOf field] } := by
        rw [pushValue, if_neg (fun h => hk h.1), if_neg (by omega)]
      simp only [pushAll, hpush, Except.bind]
      rw [ih (show state.column + 1 ≤ n by omega)]
      cases fields with
      | nil =>
        simp only [length_nil, map_nil, map_cons, append_nil, getLast?_nil,
          reduceCtorEq, false_and, and_false, or_false]
        constructor
        · exact fun h => .inl h
        · rintro (h | ⟨hn, -⟩)
          · exact h
          · omega
      | cons field' fields =>
        simp only [getLast?_cons_cons, dropLast_cons_cons, map_cons,
          append_assoc, singleton_append, Nat.add_assoc, Nat.add_comm 1]

theorem finishLine_eq_ok_iff : finishLine n linenr state = .ok row ↔
      state.inQuotes = false ∧ n ≤ state.column ∧ state.values = row := by
  unfold finishLine
  split_ifs with hin hlt
  · simp [hin]
  · simp only [false_iff]
    omega
  · simp [hin, Nat.not_lt.mp hlt]

/-- The reader returns a row exactly if it ends outside of quotes and the table accepts the fields
it has pushed. -/
theorem readLine_eq_ok_iff {line : List Char} : readLine info n linenr line = .ok row ↔
      (pushedFields info [] false false line).2 = false ∧
        Accepts n (pushedFields info [] false false line).1 row := by
  have hread : readLine info n linenr line =
      ((pushAll n linenr (pushedFields info [] false false line).1 {}).map
        (outcome · (pushedFields info [] false false line).2)).bind (finishLine n linenr) := by
    rw [← readChars_eq info n linenr line {}, readLine]
    cases readChars info n linenr {} line <;> rfl
  have hpush := pushAll_eq_ok_iff linenr (pushedFields info [] false false line).1
    (show ({} : LineState).column ≤ n from Nat.zero_le n) row
  simp only [nil_append, Nat.zero_add] at hpush
  rw [Accepts, ← hpush, hread]
  cases pushAll n linenr (pushedFields info [] false false line).1 {} with
  | error e => simp [Except.bind, Except.map]
  | ok s => simp [Except.bind, Except.map, finishLine_eq_ok_iff, outcome]

section Chars

variable (info)

variable {rest : List Char}

theorem pushedFields_plain {text : List Char} (htext : text ≠ [])
    (hdelim : info.delimiter ∉ text ∨ info.delimiter = info.quote) (field : List Char)
    (hfield : field ≠ [] ∨ text.head? ≠ some info.quote) :
    pushedFields info field false false text =
      if text.getLast? = some info.quote then ([], false) else ([field ++ text], false) := by
  induction text generalizing field with
  | nil => exact absurd rfl htext
  | cons c rest ih =>
    have hrest : info.delimiter ∉ rest ∨ info.delimiter = info.quote :=
      hdelim.imp (fun h h' => h (mem_cons_of_mem c h')) id
    have hnext (h : rest ≠ []) := ih h hrest (field ++ [c]) (.inl (by simp))
    by_cases hc : c = info.quote
    · have hne : field ≠ [] := hfield.resolve_right fun h => h (by rw [hc, head?_cons])
      cases rest with
      | nil => simp [pushedFields, hc, hne]
      | cons c' rest =>
        rw [getLast?_cons_cons, append_cons, ← hnext (cons_ne_nil _ _)]
        simp only [pushedFields, hc, hne, ne_eq, not_false_eq_true, if_true, Bool.not_false,
          Bool.false_eq_true, if_false]
    · have hd : c ≠ info.delimiter := by
        rintro rfl
        exact hdelim.elim (fun h => h mem_cons_self) hc
      cases rest with
      | nil => simp [pushedFields, hc, hd]
      | cons c' rest =>
        rw [getLast?_cons_cons, append_cons, ← hnext (cons_ne_nil _ _)]
        rw [pushedFields]
        simp [hc, hd]

/-- The characters of a field that did not begin with a quote, up to the delimiter. -/
theorem pushedFields_plainNext (hne : info.delimiter ≠ info.quote) {text : List Char}
    (hdelim : info.delimiter ∉ text) (field rest : List Char)
    (hfield : field ≠ [] ∨ (text ++ [info.delimiter]).head? ≠ some info.quote) :
    pushedFields info field false false (text ++ info.delimiter :: rest) = consField (field ++ text)
        (if rest = [] then ([[]], false) else pushedFields info [] false false rest) := by
  induction text generalizing field with
  | nil =>
    rw [nil_append, pushedFields]
    by_cases hrest : rest = [] <;> simp [hne, hrest, consField]
  | cons c text ih =>
    have hnext := ih (fun h => hdelim (mem_cons_of_mem c h)) (field ++ [c]) (.inl (by simp))
    rw [append_assoc, singleton_append] at hnext
    rw [cons_append, ← hnext, pushedFields]
    by_cases hc : c = info.quote
    · have hfield' : field ≠ [] := hfield.resolve_right fun h => h (by simp [hc])
      simp [hc, hfield']
    · have hd : c ≠ info.delimiter := fun h => hdelim (by simp [h])
      simp [hc, hd]

theorem pair_infix_cons_iff {a b c : Char} {l : List Char} :
    [a, b] <:+: c :: l ↔ (c = a ∧ l.head? = some b) ∨ [a, b] <:+: l := by
  rw [infix_cons_iff]
  refine or_congr_left ?_
  rw [cons_prefix_cons]
  cases l with
  | nil => simp
  | cons d l => simp [eq_comm]

/-- A quote inside of a field is part of it if more than one character follows and no delimiter
does. -/
theorem pushedFields_inside {c : Char}
    (hc : c = info.quote → rest.head? ≠ some info.delimiter ∧ 1 < rest.length) (field : List Char) :
    pushedFields info field true false (c :: rest) =
      pushedFields info (field ++ [c]) true false rest := by
  rw [pushedFields]
  by_cases hq : c = info.quote
  · obtain ⟨hhead, hlength⟩ := hc hq
    have hend : endOfField info rest = false := by
      simp [endOfField, hhead, hlength]
    simp [hq, hend]
  · simp [hq]

theorem pushedFields_open : pushedFields info [] false false (info.quote :: rest) =
      pushedFields info [] true false rest := by
  rw [pushedFields]
  simp

theorem pushedFields_close (h : rest.head? = some info.delimiter ∨ rest.length ≤ 1)
    (field : List Char) : pushedFields info field true false (info.quote :: rest) =
      consField field (pushedFields info [] false false rest.tail) := by
  have hend : endOfField info rest = true := by
    simp [endOfField, h.symm]
  rw [pushedFields]
  cases rest with
  | nil | cons c rest => simp [hend, pushedFields]

theorem pushedFields_quoted {text : List Char}
    (htext : ¬[info.quote, info.delimiter] <:+: text ++ [info.quote]) (field : List Char) :
    pushedFields info field true false (text ++ [info.quote]) =
      if text.getLast? = some info.quote then ([field ++ text.dropLast], false)
      else ([field ++ text], false) := by
  induction text generalizing field with
  | nil =>
    rw [nil_append, pushedFields_close info (.inr (by simp))]
    simp [consField, pushedFields]
  | cons c text ih =>
    rw [cons_append, pair_infix_cons_iff, not_or] at htext
    have hnext := ih htext.2 (field ++ [c])
    cases text with
    | nil =>
      by_cases hc : c = info.quote
      · -- the last quote inside counts as the closing one
        subst hc
        rw [cons_append, nil_append, pushedFields_close info (.inr (by simp))]
        simp [consField, pushedFields]
      · rw [cons_append, pushedFields_inside info (fun h => absurd h hc), hnext]
        simp [hc]
    | cons c' text =>
      rw [cons_append, pushedFields_inside info (fun h => ⟨fun h' => htext.1 ⟨h, h'⟩, ?_⟩),
        hnext, getLast?_cons_cons, dropLast_cons_cons, append_assoc,
        append_assoc, singleton_append, singleton_append]
      simp

theorem pushedFields_quotedNext {text : List Char}
    (htext : ¬[info.quote, info.delimiter] <:+: text ++ [info.quote]) (field : List Char) :
    pushedFields info field true false (text ++ info.quote :: info.delimiter :: rest) =
      consField (field ++ text) (pushedFields info [] false false rest) := by
  induction text generalizing field with
  | nil =>
    rw [nil_append, pushedFields_close info (.inl rfl), append_nil, tail_cons]
  | cons c text ih =>
    rw [cons_append, pair_infix_cons_iff, not_or] at htext
    have hhead : (text ++ info.quote :: info.delimiter :: rest).head? =
        (text ++ [info.quote]).head? := by
      cases text <;> rfl
    rw [cons_append, pushedFields_inside info fun h => ⟨fun h' => htext.1 ⟨h, hhead ▸ h'⟩, ?_⟩,
      ih htext.2, append_assoc, singleton_append]
    rw [length_append, length_cons, length_cons]
    omega

end Chars

/-! ### Which lines are read field by field -/

variable {line text : List Char} {split : Split} {fields : List Field}
  {unterminated : Option (List Char)}

/-- The fields that are pushed are those of the line. -/
def Agrees (pushed : List (List Char) × Bool) (split : Split) : Prop :=
  pushed.2 = split.unterminated.isSome ∧ (pushed.2 = false → pushed.1 = split.fields.map Field.text)

theorem Splits.fields_ne_nil (h : Splits info line split) (hnone : split.unterminated = none) :
    split.fields ≠ [] := by
  cases h with
  | unterminated => cases hnone
  | _ => exact cons_ne_nil _ _

theorem exists_first_pair (q d : Char) (rest : List Char) :
    (∃ text line, rest = text ++ q :: d :: line ∧ ¬[q, d] <:+: text ++ [q]) ∨
      ¬[q, d] <:+: rest := by
  induction rest with
  | nil => exact .inr (by simp)
  | cons c rest ih =>
    rw [pair_infix_cons_iff]
    by_cases hc : c = q ∧ rest.head? = some d
    · obtain ⟨rfl, hhead⟩ := hc
      obtain ⟨line, rfl⟩ := head?_eq_some_iff.mp hhead
      refine .inl ⟨[], line, rfl, fun h => ?_⟩
      have hlength := h.length_le
      simp at hlength
    · obtain ⟨text, line, rfl, htext⟩ | hno := ih
      · refine .inl ⟨c :: text, line, rfl, ?_⟩
        rw [cons_append, pair_infix_cons_iff]
        rintro (⟨hcq, hhead⟩ | h)
        · refine hc ⟨hcq, ?_⟩
          cases text with
          | nil | cons c' text => exact hhead
        · exact htext h
      · exact .inr (fun h => h.elim hc hno)

theorem lineOf_cons (h : unterminated = none → fields ≠ []) {field : Field} :
    lineOf info (field :: fields) unterminated =
      field.chars info ++ info.delimiter :: lineOf info fields unterminated := by
  cases fields with
  | cons field' fields =>
    rw [lineOf]
    simp
  | nil =>
    cases unterminated with
    | none => exact absurd rfl (h rfl)
    | some rest => rfl

theorem Splits.line_eq (h : Splits info line split) : split.line info = line := by
  induction h with
  | plain _ _ | quoted _ | unterminated _ _ => rfl
  | plainNext _ _ h ih =>
    rw [Split.line, Split.cons, lineOf_cons h.fields_ne_nil]
    exact congrArg _ (congrArg _ ih)
  | @quotedNext text line split _ h ih =>
    have ih : lineOf info split.fields split.unterminated = line := ih
    rw [Split.line, Split.cons, lineOf_cons h.fields_ne_nil, ih]
    simp [Field.chars]

theorem not_pair_infix_of_notMem {q d : Char} (h : q ∉ text) : ¬[q, d] <:+: text ++ [q] := by
  induction text with
  | nil =>
    intro hpair
    have hlength := hpair.length_le
    simp at hlength
  | cons c text ih =>
    rw [mem_cons, not_or] at h
    rw [cons_append, pair_infix_cons_iff]
    rintro (⟨rfl, -⟩ | hpair)
    · exact h.1 rfl
    · exact ih h.2 hpair

/-- A field that is put in quotes is a field of the new line. -/
theorem Splits.quote (h : Splits info line split)
    (hfields : split.fields = pre ++ .plain text :: post) (hquote : info.quote ∉ text) :
    Splits info (lineOf info (pre ++ .quoted text :: post) split.unterminated)
      ⟨pre ++ .quoted text :: post, split.unterminated⟩ := by
  induction h generalizing pre with
  | @plain text' _ _ =>
    cases pre with
    | nil =>
      obtain ⟨heq, rfl⟩ := cons.inj hfields
      obtain rfl := Field.plain.inj heq
      exact .quoted (not_pair_infix_of_notMem hquote)
    | cons field pre => simp at hfields
  | quoted _ =>
    cases pre with
    | nil => cases (cons.inj hfields).1
    | cons field pre => simp at hfields
  | unterminated _ _ => simp at hfields
  | @plainNext text' line split hdelim hhead h ih =>
    cases pre with
    | nil =>
      obtain ⟨heq, rfl⟩ := cons.inj hfields
      obtain rfl := Field.plain.inj heq
      have hline := h.line_eq
      rw [Split.line] at hline
      have hnext := Splits.quotedNext (not_pair_infix_of_notMem (d := info.delimiter) hquote) h
      rw [nil_append, Split.cons, lineOf_cons h.fields_ne_nil, hline]
      simpa [Field.chars, Split.cons] using hnext
    | cons field pre =>
      obtain ⟨rfl, hrest⟩ := cons.inj hfields
      rw [cons_append, Split.cons, lineOf_cons (fun _ => by simp)]
      exact .plainNext hdelim hhead (ih hrest)
  | @quotedNext text' line split htext h ih =>
    cases pre with
    | nil => cases (cons.inj hfields).1
    | cons field pre =>
      obtain ⟨rfl, hrest⟩ := cons.inj hfields
      have hnext := Splits.quotedNext htext (ih hrest)
      rw [cons_append, Split.cons, lineOf_cons (fun _ => by simp)]
      simpa [Field.chars, Split.cons] using hnext

/-- A text that is stored as it is: UTF-8 without NUL. -/
def Storable (text : List Char) : Prop :=
  Value.isUTF8String (some (text.map Char.toUInt8 ++ [0])) = some true ∧ Char.ofUInt8 0 ∉ text

end DuckDB.PhysicalCopy
