import DuckDB.Execution.Equiv.CsvFields
import Mathlib.Order.Basic
import Mathlib.Order.Nat

/-!
# When COPY FROM reads what COPY TO wrote

The writer puts a string in quotes if it contains the delimiter, but does nothing about quotes
inside the string; it writes NULL as the word `NULL`, and the reader takes empty fields as NULL.

* `readLine_writeLine_iff`: exactly the `Readable` rows are read back from the line that is written
  for them.
* `copyFrom_copyTo_iff`: a table survives COPY TO and COPY FROM exactly if all its rows are readable
  and no line is broken.
-/

namespace DuckDB.PhysicalCopy

open List

/-! ### Conditions -/

/-- A string that is read back from its field; `last` says whether it is the last field of the line.

Strings with the delimiter are in quotes: they must not have a quote that looks like the closing
one. The other ones must not begin with a quote, nor end with one at the end of the line. -/
def ReadableField (info : CopyInformation) (last : Prop) (str : List Char) : Prop :=
  str ≠ [] ∧
    if info.delimiter ∈ str then
      ¬[info.quote, info.delimiter] <:+: str ∧
        (last ∨ info.delimiter = info.quote → str.getLast? ≠ some info.quote)
    else
      str.head? ≠ some info.quote ∧ (¬last → info.delimiter ≠ info.quote) ∧
        (last → str.getLast? ≠ some info.quote)

/-- A row that is read back from its line. NULL is read as the word `NULL`, unless the quote is `N`
and the delimiter is `U`: then `NNULLN` is an empty field with `LLN` behind it. -/
def Readable (info : CopyInformation) : List (Option (List Char)) → Prop
  | [] => True
  | some str :: rest => ReadableField info (rest = []) str ∧ Readable info rest
  | none :: rest => info.quote = 'N' ∧ info.delimiter = 'U' ∧ ∀ v ∈ rest, v = some ['L', 'L', 'N']

/-- Nothing in the line that is written for the strings is a line break. -/
def Unbroken (info : CopyInformation) (strs : List (List Char)) : Prop :=
  (2 ≤ strs.length → info.delimiter ≠ '\n') ∧
    ∀ str ∈ strs, '\n' ∉ str ∧ (info.delimiter ∈ str → info.quote ≠ '\n')

variable {info : CopyInformation} {n linenr : ℕ}

/-! ### The row of the fields that are pushed -/

section Pushed

variable {f : List Char} {texts : List (List Char)} {pushed : List (List Char) × Bool}
  {v : Option (List Char)} {row : List (Option (List Char))}

/-- The line ends outside of quotes, and a table of the width of the row accepts its fields. -/
def Returns (pushed : List (List Char) × Bool) (row : List (Option (List Char))) : Prop :=
  pushed.2 = false ∧ Accepts row.length pushed.1 row

theorem eq_of_valueOf_eq_some {s : List Char} (h : valueOf f = some s) : f = s := by
  unfold valueOf at h
  split_ifs at h
  exact Option.some.inj h

theorem valueOf_of_ne_nil (hf : f ≠ []) : valueOf f = some f :=
  if_neg hf

theorem accepts_cons :
    Accepts (n + 1) (f :: texts) (v :: row) ↔ v = valueOf f ∧ Accepts n texts row := by
  have hlast : texts.length = n + 1 → (f :: texts).getLast? = texts.getLast? ∧
      (f :: texts).dropLast = f :: texts.dropLast := by
    intro hlength
    cases texts with
    | nil => simp at hlength
    | cons text texts => exact ⟨getLast?_cons_cons, dropLast_cons_cons⟩
  simp only [Accepts, length_cons, Nat.add_right_cancel_iff, map_cons, List.cons.injEq]
  constructor
  · rintro (⟨hlength, hv, hrow⟩ | ⟨hlength, hempty, hrow⟩)
    · exact ⟨hv, .inl ⟨hlength, hrow⟩⟩
    · rw [(hlast hlength).1] at hempty
      rw [(hlast hlength).2, map_cons, List.cons.injEq] at hrow
      exact ⟨hrow.1, .inr ⟨hlength, hempty, hrow.2⟩⟩
  · rintro ⟨hv, ⟨hlength, hrow⟩ | ⟨hlength, hempty, hrow⟩⟩
    · exact .inl ⟨hlength, hv, hrow⟩
    · refine .inr ⟨hlength, (hlast hlength).1.trans hempty, ?_⟩
      rw [(hlast hlength).2, map_cons, hv, hrow]

theorem returns_consField :
    Returns (consField f pushed) (v :: row) ↔ v = valueOf f ∧ Returns pushed row := by
  rw [Returns, consField, length_cons, accepts_cons, and_left_comm]
  rfl

theorem returns_nil : Returns ([], false) [] :=
  ⟨rfl, .inl ⟨rfl, rfl⟩⟩

theorem returns_singleton (hf : f ≠ []) : Returns ([f], false) [some f] :=
  returns_consField.2 ⟨(valueOf_of_ne_nil hf).symm, returns_nil⟩

/-- Empty strings are never pushed. -/
theorem Returns.nonempty (h : Returns pushed row) : some [] ∉ row := by
  have hvalue : ∀ f : List Char, valueOf f ≠ some [] := by
    intro f hf
    obtain rfl := eq_of_valueOf_eq_some hf
    simp [valueOf] at hf
  have hmap : ∀ texts : List (List Char), some [] ∉ texts.map valueOf := fun texts hmem => by
    obtain ⟨f, -, hf⟩ := mem_map.1 hmem
    exact hvalue f hf
  obtain ⟨-, ⟨-, rfl⟩ | ⟨-, -, rfl⟩⟩ := h <;> exact hmap _

/-- A row with a NULL at the front begins with an empty field. -/
theorem Returns.head?_eq (h : Returns pushed (none :: row)) : pushed.1.head? = some [] := by
  obtain ⟨fields, inQuotes⟩ := pushed
  cases fields with
  | nil =>
    obtain ⟨-, ⟨hlength, -⟩ | ⟨hlength, -⟩⟩ := h <;> simp at hlength
  | cons f fields =>
    have hvalue := (@returns_consField f (fields, inQuotes) none row).1 h |>.1
    by_contra hne
    rw [valueOf_of_ne_nil (by simpa using hne)] at hvalue
    cases hvalue

end Pushed

/-! ### Fields -/

section Fields

variable {f s : List Char}

/-- The characters of a field belong to the value that is pushed for it. -/
theorem head?_pushedFields (cs : List Char) (inQuotes : Bool) (hf : f ≠ []) :
    (pushedFields info f inQuotes false cs).1.head? ≠ some [] := by
  induction cs generalizing f inQuotes with
  | nil => simp [pushedFields]
  | cons c rest ih =>
    have happend : f ++ [c] ≠ [] := by simp
    simp only [pushedFields, consField, Bool.false_eq_true, if_false, ne_eq, hf, not_false_eq_true,
      if_true]
    split_ifs
    · exact ih _ happend
    · exact ih _ happend
    · simpa using hf
    · exact ih _ happend
    · simpa using hf
    · simpa using hf
    · simp
    · exact ih _ happend

/-- **Inside quotes** the field that is pushed ends before a quote. -/
theorem pushedFields_quotes (cs f : List Char) :
    (pushedFields info f true false cs).2 = true ∨ ∃ a b pushed, cs = a ++ info.quote :: b ∧
      pushedFields info f true false cs = consField (f ++ a) pushed := by
  induction cs generalizing f with
  | nil => exact .inl rfl
  | cons c cs ih =>
    by_cases hclose : c = info.quote ∧ endOfField info cs = true
    · obtain ⟨rfl, hend⟩ := hclose
      refine .inr ⟨[], cs, pushedFields info [] false true cs, rfl, ?_⟩
      rw [append_nil, pushedFields]
      simp [hend]
    · have hinside (hc : c = info.quote) : cs.head? ≠ some info.delimiter ∧ 1 < cs.length := by
        simpa [hc, endOfField, and_comm] using hclose
      rw [pushedFields_inside info hinside]
      rcases ih (f ++ [c]) with hin | ⟨a, b, pushed, rfl, hpushed⟩
      · exact .inl hin
      · exact .inr ⟨c :: a, b, pushed, rfl, by rw [hpushed]; simp⟩

theorem pair_infix_concat_iff {q d : Char} :
    [q, d] <:+: s ++ [q] ↔ [q, d] <:+: s ∨ d = q ∧ s.getLast? = some q := by
  induction s with
  | nil =>
    refine iff_of_false (fun h => ?_) (by simp)
    have hlength := h.length_le
    simp at hlength
  | cons c s ih =>
    rw [cons_append, pair_infix_cons_iff, ih, pair_infix_cons_iff]
    cases s with
    | nil =>
      have hsymm : d = q ↔ q = d := eq_comm
      simp [hsymm, and_comm]
    | cons c' s => simp [or_assoc]

end Fields

/-! ### Rows -/

/-- What follows a field: nothing, or the delimiter and the other fields. -/
def afterField (info : CopyInformation) (rest : List (Option (List Char))) : List Char :=
  if rest = [] then [] else info.delimiter :: writeLine info (rest.map valueToString)

section Rows

variable {rest : List (Option (List Char))} {s : List Char}

theorem writeLine_cons {v : Option (List Char)} : writeLine info ((v :: rest).map valueToString) =
      writeQuotedString info (valueToString v) ++ afterField info rest := by
  cases rest with
  | nil | cons w rest => simp [writeLine, afterField]

theorem writeLine_ne_nil {row : List (Option (List Char))} (hrow : row ≠ [])
    (hempty : some [] ∉ row) : writeLine info (row.map valueToString) ≠ [] := by
  obtain ⟨v, rest, rfl⟩ := exists_cons_of_ne_nil hrow
  rw [writeLine_cons]
  intro hnil
  have hwritten := (append_eq_nil_iff.1 hnil).1
  unfold writeQuotedString at hwritten
  split_ifs at hwritten
  cases v with
  | none => simp [valueToString] at hwritten
  | some s => exact hempty (by simp [valueToString] at hwritten; simp [hwritten])

theorem not_mem_of_readable {row : List (Option (List Char))} (h : Readable info row) :
    some [] ∉ row := by
  induction row with
  | nil => simp
  | cons v rest ih =>
    cases v with
    | none =>
      intro hmem
      rcases mem_cons.1 hmem with hmem | hmem
      · simp at hmem
      · simpa using h.2.2 _ hmem
    | some s =>
      intro hmem
      rcases mem_cons.1 hmem with hmem | hmem
      · exact h.1.1 (Option.some.inj hmem).symm
      · exact ih h.2 hmem

/-- The line of a row, read from the beginning of a field. -/
def ReadsRow (info : CopyInformation) (row : List (Option (List Char))) : Prop :=
  Returns (pushedFields info [] false false (writeLine info (row.map valueToString))) row

/-- A string without the delimiter that begins with a quote is lost. -/
theorem not_returns_quoted (hd : info.delimiter ∉ info.quote :: s) :
    ¬Returns (pushedFields info [] false false (info.quote :: s ++ afterField info rest))
      (some (info.quote :: s) :: rest) := by
  rw [cons_append, pushedFields_open]
  rcases @pushedFields_quotes info (s ++ afterField info rest) [] with hin |
    ⟨a, b, pushed, hsplit, hpushed⟩
  · -- the quotes are never closed
    exact fun h => by simp [h.1] at hin
  · rw [hpushed, returns_consField, nil_append]
    rintro ⟨hvalue, -⟩
    obtain rfl := eq_of_valueOf_eq_some hvalue.symm
    -- the delimiter behind the string would belong to it
    have hget := congrArg (·[s.length]?) hsplit
    simp only [getElem?_append_right le_rfl, Nat.sub_self] at hget
    rw [getElem?_append_left (by simp)] at hget
    unfold afterField at hget
    split_ifs at hget
    · simp at hget
    · exact hd (mem_of_getElem? (hget.symm.trans rfl))

theorem returns_plain (hd : info.delimiter ∉ s) (hs : s ≠ []) (hempty : some [] ∉ rest)
    (ih : rest ≠ [] → (ReadsRow info rest ↔ Readable info rest)) :
    Returns (pushedFields info [] false false (s ++ afterField info rest)) (some s :: rest) ↔
      ReadableField info (rest = []) s ∧ Readable info rest := by
  by_cases hhead : s.head? = some info.quote
  · -- a quote at the beginning
    obtain ⟨s', rfl⟩ := head?_eq_some_iff.1 hhead
    exact iff_of_false (not_returns_quoted hd) fun h => by simp [ReadableField, hd] at h
  · have hfield : ReadableField info (rest = []) s ↔
        (rest ≠ [] → info.delimiter ≠ info.quote) ∧ (rest = [] → s.getLast? ≠ some info.quote) := by
      simp [ReadableField, hd, hs, hhead]
    rw [hfield]
    by_cases hrest : rest = []
    · -- the last field is not pushed if it ends with a quote
      subst hrest
      rw [afterField, if_pos rfl, append_nil,
        pushedFields_plain info hs (.inl hd) [] (.inr hhead), nil_append]
      split_ifs with hquote
      · exact iff_of_false (fun h => by simp [Returns, Accepts] at h) fun h => h.1.2 rfl hquote
      · simp [returns_singleton hs, hquote, Readable]
    · rw [afterField, if_neg hrest]
      by_cases hne : info.delimiter = info.quote
      · -- the delimiter is taken as a quote in the middle of the field
        refine iff_of_false (fun hreturns => ?_) fun h => h.1.1 hrest hne
        have hline : s ++ info.delimiter :: writeLine info (rest.map valueToString) ≠ [] := by simp
        have hhead' : (s ++ info.delimiter :: writeLine info (rest.map valueToString)).head? ≠
            some info.quote := by rwa [head?_append_of_ne_nil _ hs]
        rw [pushedFields_plain info hline (.inr hne) [] (.inr hhead')] at hreturns
        split_ifs at hreturns
        · simp [Returns, Accepts] at hreturns
        · have hvalue := ((@returns_consField _ ([], false) _ _).1 hreturns).1
          have hlength := congrArg List.length (eq_of_valueOf_eq_some hvalue.symm)
          simp at hlength
      · have hhead' : (s ++ [info.delimiter]).head? ≠ some info.quote := by
          rwa [head?_append_of_ne_nil _ hs]
        rw [pushedFields_plainNext info hne hd [] _ (.inr hhead'), nil_append,
          if_neg (writeLine_ne_nil hrest hempty), returns_consField, valueOf_of_ne_nil hs]
        simp only [true_and, hne, hrest, not_false_eq_true, ne_eq, implies_true, false_implies]
        exact ih hrest

theorem returns_quoted (hd : info.delimiter ∈ s)
    (ih : rest ≠ [] → (ReadsRow info rest ↔ Readable info rest)) :
    Returns (pushedFields info [] false false
        (info.quote :: (s ++ [info.quote]) ++ afterField info rest)) (some s :: rest) ↔
      ReadableField info (rest = []) s ∧ Readable info rest := by
  have hs : s ≠ [] := ne_nil_of_mem hd
  have hfield : ReadableField info (rest = []) s ↔
      ¬[info.quote, info.delimiter] <:+: s ++ [info.quote] ∧
        (rest = [] → s.getLast? ≠ some info.quote) := by
    rw [ReadableField, if_pos hd, and_iff_right hs, pair_infix_concat_iff]
    tauto
  rw [hfield, cons_append, pushedFields_open]
  rcases exists_first_pair info.quote info.delimiter (s ++ [info.quote]) with
    ⟨text, line, hsplit, htext⟩ | hpair
  · -- a quote inside looks like the closing one
    have hinfix : [info.quote, info.delimiter] <:+: s ++ [info.quote] := by
      rw [hsplit]
      exact ⟨text, line, by simp⟩
    refine iff_of_false ?_ fun h => h.1.1 hinfix
    rw [hsplit, append_assoc, cons_append, cons_append, pushedFields_quotedNext info htext,
      returns_consField, nil_append]
    rintro ⟨hvalue, -⟩
    have hlength := congrArg List.length hsplit
    rw [eq_of_valueOf_eq_some hvalue.symm] at hlength
    simp at hlength
  · rw [and_iff_right hpair]
    by_cases hrest : rest = []
    · subst hrest
      rw [afterField, if_pos rfl, append_nil, pushedFields_quoted info hpair, nil_append]
      split_ifs with hlast
      · refine iff_of_false (fun hreturns => ?_) fun h => h.1 rfl hlast
        have hvalue := ((@returns_consField _ ([], false) _ _).1 hreturns).1
        have hlength := congrArg List.length (eq_of_valueOf_eq_some hvalue.symm)
        have hpos := length_pos_iff.2 hs
        rw [length_dropLast] at hlength
        omega
      · simp [returns_singleton hs, hlast, Readable]
    · rw [afterField, if_neg hrest, append_assoc, singleton_append,
        pushedFields_quotedNext info hpair, returns_consField, nil_append, valueOf_of_ne_nil hs]
      simp only [true_and, hrest, false_implies]
      exact ih hrest

/-- The fields behind a NULL that was read from `NNULLN`: each of them is read one place too late.
-/
theorem returns_shifted (hq : info.quote = 'N') (hd : info.delimiter = 'U')
    (hempty : some [] ∉ rest) :
    Returns (pushedFields info [] false false (['L', 'L', 'N'] ++ afterField info rest)) rest ↔
      ∀ v ∈ rest, v = some ['L', 'L', 'N'] := by
  have hdelim : info.delimiter ∉ ['L', 'L', 'N'] := by rw [hd]; decide
  have hhead : ['L', 'L', 'N'].head? ≠ some info.quote := by rw [hq]; decide
  induction rest with
  | nil =>
    rw [afterField, if_pos rfl, append_nil,
      pushedFields_plain info (by simp) (.inl hdelim) [] (.inr hhead), if_pos (by rw [hq]; rfl)]
    exact iff_of_true returns_nil (by simp)
  | cons v rest ih =>
    have hne : info.delimiter ≠ info.quote := by rw [hq, hd]; decide
    rw [afterField, if_neg (cons_ne_nil v rest),
      pushedFields_plainNext info hne hdelim [] _ (.inr hhead), nil_append,
      if_neg (writeLine_ne_nil (cons_ne_nil v rest) hempty), returns_consField,
      valueOf_of_ne_nil (by simp), forall_mem_cons]
    refine and_congr_right ?_
    rintro rfl
    rw [writeLine_cons, valueToString, writeQuotedString, if_neg hdelim]
    exact ih fun hmem => hempty (mem_cons_of_mem _ hmem)

/-- NULL, in quotes or not. -/
theorem returns_null (hempty : some [] ∉ rest) :
    Returns (pushedFields info [] false false
        (writeQuotedString info ['N', 'U', 'L', 'L'] ++ afterField info rest)) (none :: rest) ↔
      Readable info (none :: rest) := by
  by_cases hnames : info.quote = 'N' ∧ info.delimiter = 'U'
  · -- the quote and the `N` behind it are an empty field
    obtain ⟨hq, hd⟩ := hnames
    have hwritten : writeQuotedString info ['N', 'U', 'L', 'L'] ++ afterField info rest =
        info.quote :: info.quote :: info.delimiter :: (['L', 'L', 'N'] ++ afterField info rest) := by
      simp [writeQuotedString, hq, hd]
    rw [hwritten, pushedFields_open, pushedFields_close info (.inl rfl), returns_consField,
      tail_cons, returns_shifted hq hd hempty]
    simp [Readable, hq, hd, valueOf]
  · refine iff_of_false (fun hreturns => ?_) fun h => hnames ⟨h.1, h.2.1⟩
    -- a character gets into the field
    suffices ∃ c cs inQuotes, pushedFields info [] false false
        (writeQuotedString info ['N', 'U', 'L', 'L'] ++ afterField info rest) =
          pushedFields info [c] inQuotes false cs by
      obtain ⟨c, cs, inQuotes, hfield⟩ := this
      exact head?_pushedFields cs inQuotes (cons_ne_nil c []) (hfield ▸ hreturns.head?_eq)
    unfold writeQuotedString
    split_ifs with hd
    · have hinside : 'N' = info.quote →
          (['U', 'L', 'L', info.quote] ++ afterField info rest).head? ≠ some info.delimiter ∧
            1 < (['U', 'L', 'L', info.quote] ++ afterField info rest).length := fun hq =>
        ⟨fun hhead => hnames ⟨hq.symm, (Option.some.inj hhead).symm⟩, by simp⟩
      rw [cons_append, pushedFields_open]
      exact ⟨_, _, _, pushedFields_inside info hinside []⟩
    · by_cases hq : info.quote = 'N'
      · rw [← hq, cons_append, pushedFields_open]
        exact ⟨_, _, _, pushedFields_inside info (fun hu => absurd (hu.trans hq) (by decide)) []⟩
      · have hne : 'N' ≠ info.delimiter := fun h => hd (by simp [← h])
        refine ⟨'N', ['U', 'L', 'L'] ++ afterField info rest, false, ?_⟩
        rw [cons_append, pushedFields]
        simp [Ne.symm hq, hne]

/-- **A row** is read back from its line exactly if it is readable. -/
theorem readsRow_iff {row : List (Option (List Char))} (hrow : row ≠ []) :
    ReadsRow info row ↔ Readable info row := by
  induction row with
  | nil => exact absurd rfl hrow
  | cons v rest ih =>
    by_cases hempty : some [] ∈ v :: rest
    · exact iff_of_false (fun hreads => hreads.nonempty hempty) fun h =>
        not_mem_of_readable h hempty
    · rw [mem_cons, not_or] at hempty
      rw [ReadsRow, writeLine_cons]
      cases v with
      | none => exact returns_null hempty.2
      | some s =>
        have hs : s ≠ [] := fun hnil => hempty.1 (by rw [hnil])
        rw [valueToString, writeQuotedString]
        split_ifs with hd
        · exact returns_quoted hd ih
        · exact returns_plain hd hs hempty.2 ih

end Rows

theorem readLine_writeLine_iff {row : List (Option (List Char))} :
    readLine info row.length linenr (writeLine info (row.map valueToString)) = .ok row ↔
      Readable info row := by
  by_cases hrow : row = []
  · subst hrow
    simp [readLine, writeLine, readChars, Except.bind, finishLine, Readable]
  · rw [readLine_eq_ok_iff]
    exact readsRow_iff hrow

/-! ### Files -/

theorem getLinesFrom_append {line acc : List Char} (h : '\n' ∉ line) {rest : List Char} :
    getLinesFrom acc (line ++ '\n' :: rest) = (acc ++ line) :: getLinesFrom [] rest := by
  induction line generalizing acc with
  | nil => simp [getLinesFrom]
  | cons c line ih =>
    rw [mem_cons, not_or] at h
    rw [cons_append, getLinesFrom, if_neg (Ne.symm h.1), ih h.2]
    simp

theorem count_le_length_getLinesFrom (cs acc : List Char) :
    cs.count '\n' ≤ (getLinesFrom acc cs).length := by
  induction cs generalizing acc with
  | nil => simp
  | cons c cs ih =>
    rw [getLinesFrom]
    split_ifs with hc
    · simpa [hc] using ih []
    · simpa [hc] using ih (acc ++ [c])

theorem getLines_eq {lines : List (List Char)} (h : ∀ line ∈ lines, '\n' ∉ line) :
    getLines (lines.flatMap (· ++ ['\n'])) = lines := by
  induction lines with
  | nil => simp [getLines, getLinesFrom]
  | cons line lines ih =>
    rw [forall_mem_cons] at h
    have hlines := ih h.2
    unfold getLines at hlines ⊢
    rw [flatMap_cons, append_assoc, singleton_append, getLinesFrom_append h.1, hlines, nil_append]

/-- There is a line break for each line, and those inside the lines. -/
theorem length_add_count_le (lines : List (List Char)) :
    lines.length + lines.flatten.count '\n' ≤ (getLines (lines.flatMap (· ++ ['\n']))).length := by
  have hcount : (lines.flatMap (· ++ ['\n'])).count '\n' =
      lines.length + lines.flatten.count '\n' := by
    induction lines with
    | nil => rfl
    | cons line lines ih =>
      rw [flatMap_cons, count_append, ih, count_append, flatten_cons,
        count_append, length_cons, count_singleton_self]
      omega
  exact hcount ▸ count_le_length_getLinesFrom _ []

/-- A line break inside a line makes too many lines. -/
theorem length_getLines_eq_iff {lines : List (List Char)} :
    (getLines (lines.flatMap (· ++ ['\n']))).length = lines.length ↔
      ∀ line ∈ lines, '\n' ∉ line := by
  refine ⟨fun hlength => ?_, fun h => by rw [getLines_eq h]⟩
  have hle := length_add_count_le lines
  have hzero : lines.flatten.count '\n' = 0 := by omega
  intro line hline hmem
  exact count_eq_zero.1 hzero (mem_flatten.2 ⟨line, hline, hmem⟩)

theorem not_mem_writeLine_iff {strs : List (List Char)} :
    '\n' ∉ writeLine info strs ↔ Unbroken info strs := by
  have hquoted : ∀ str, '\n' ∉ writeQuotedString info str ↔
      '\n' ∉ str ∧ (info.delimiter ∈ str → info.quote ≠ '\n') := by
    intro str
    unfold writeQuotedString
    split_ifs with hd
    · simp [hd, eq_comm, and_comm]
    · simp [hd]
  induction strs with
  | nil => simp [writeLine, Unbroken]
  | cons str strs ih =>
    cases strs with
    | nil => simp [writeLine, Unbroken, hquoted]
    | cons str' strs =>
      rw [writeLine, mem_append, mem_cons, not_or, not_or, hquoted]
      · simp only [ih, Unbroken, length_cons, forall_mem_cons]
        constructor
        · rintro ⟨hstr, hd, -, hstrs⟩
          exact ⟨fun _ => Ne.symm hd, hstr, hstrs⟩
        · rintro ⟨hd, hstr, hstrs⟩
          have hne := hd (by omega)
          exact ⟨hstr, Ne.symm hne, fun _ => hne, hstrs⟩
      · simp

/-- The rows of the lines, without the chunks. -/
def readAll (info : CopyInformation) (n : ℕ) : ℕ → List (List Char) →
    Except Exception (List (List (Option (List Char))))
  | _, [] => .ok []
  | linenr, line :: lines =>
    match readLine info n linenr line with
    | .error e => .error e
    | .ok row => (readAll info n (linenr + 1) lines).map (row :: ·)

theorem flatten_readLines (lines : List (List Char)) (linenr : ℕ)
    (chunk : List (List (Option (List Char)))) :
    (readLines info n linenr chunk lines).map List.flatten =
      (readAll info n linenr lines).map (chunk ++ ·) := by
  induction lines generalizing linenr chunk with
  | nil =>
    rw [readLines, readAll]
    split_ifs with hchunk <;> simp [Except.map, hchunk]
  | cons line lines ih =>
    rw [readLines, readAll]
    cases readLine info n linenr line with
    | error e => rfl
    | ok row =>
      dsimp only
      split_ifs
      · have hnext := ih (linenr + 1) []
        cases hlines : readLines info n (linenr + 1) [] lines <;>
          cases hall : readAll info n (linenr + 1) lines <;>
          simp_all [Except.map]
      · rw [ih]
        cases readAll info n (linenr + 1) lines <;> simp [Except.map]

theorem length_readAll {lines : List (List Char)} {rows : List (List (Option (List Char)))}
    (h : readAll info n linenr lines = .ok rows) : rows.length = lines.length := by
  induction lines generalizing linenr rows with
  | nil =>
    obtain rfl := Except.ok.inj h
    rfl
  | cons line lines ih =>
    rw [readAll] at h
    cases hline : readLine info n linenr line with
    | error e => simp [hline] at h
    | ok row =>
      cases hlines : readAll info n (linenr + 1) lines with
      | error e => simp [hline, hlines, Except.map] at h
      | ok rows' =>
        simp only [hline, hlines, Except.map, Except.ok.injEq] at h
        rw [← h, length_cons, length_cons, ih hlines]

theorem readAll_eq_ok_iff {rows : List (List (Option (List Char)))}
    (hwidth : ∀ row ∈ rows, row.length = n) :
    readAll info n linenr (rows.map fun row => writeLine info (row.map valueToString)) = .ok rows ↔
      ∀ row ∈ rows, Readable info row := by
  induction rows generalizing linenr with
  | nil => simp [readAll]
  | cons row rows ih =>
    rw [forall_mem_cons] at hwidth ⊢
    obtain ⟨rfl, hrows⟩ := hwidth
    rw [← @ih (linenr + 1) hrows, ← @readLine_writeLine_iff info linenr row, map_cons, readAll]
    cases readLine info row.length linenr (writeLine info (row.map valueToString)) with
    | error e => simp
    | ok row' =>
      cases readAll info row.length (linenr + 1)
          (rows.map fun row => writeLine info (row.map valueToString)) with
      | error e => simp [Except.map]
      | ok rows' => simp [Except.map]

/-- The result of a query over VARCHAR columns. -/
structure VarcharTable where
  names : List (List Char)
  rows : List (List (Option (List Char)))
  width : ∀ row ∈ rows, row.length = names.length

/-- The lines that COPY TO writes. -/
def VarcharTable.lines (info : CopyInformation) (table : VarcharTable) : List (List Char) :=
  (if info.header then [writeLine info table.names] else []) ++
    table.rows.map fun row => writeLine info (row.map valueToString)

theorem copyTo_eq_flatMap {table : VarcharTable} :
    copyTo info table.names table.rows = (table.lines info).flatMap (· ++ ['\n']) := by
  unfold copyTo VarcharTable.lines
  split_ifs <;> simp [flatMap_map]

theorem copyFrom_eq_readAll {content : List Char} : copyFrom info n content =
      if info.header then readAll info n 1 (getLines content).tail
      else readAll info n 0 (getLines content) := by
  unfold copyFrom
  have hmap : ∀ result : Except Exception (List (List (Option (List Char)))),
      result.map ([] ++ ·) = result := fun result => by cases result <;> rfl
  split_ifs <;> simp only [flatten_readLines, hmap]

/-- **COPY TO and COPY FROM**: a table is read back exactly if no line is broken and all rows are
readable. -/
theorem copyFrom_copyTo_iff (info : CopyInformation) (table : VarcharTable) :
    copyFrom info table.names.length (copyTo info table.names table.rows) = .ok table.rows ↔
      (info.header = true → Unbroken info table.names) ∧
        ∀ row ∈ table.rows, Unbroken info (row.map valueToString) ∧ Readable info row := by
  have hlines : (∀ line ∈ table.lines info, '\n' ∉ line) ↔
      (info.header = true → Unbroken info table.names) ∧
        ∀ row ∈ table.rows, Unbroken info (row.map valueToString) := by
    unfold VarcharTable.lines
    split_ifs with hheader <;> simp [hheader, not_mem_writeLine_iff]
  rw [copyTo_eq_flatMap, copyFrom_eq_readAll]
  by_cases hbroken : ∀ line ∈ table.lines info, '\n' ∉ line
  · have hconditions := hlines.1 hbroken
    rw [getLines_eq hbroken, VarcharTable.lines]
    have hread := fun linenr => @readAll_eq_ok_iff info _ linenr _ table.width
    split_ifs with hheader
    all_goals
      simp only [singleton_append, tail_cons, nil_append, hread]
      exact ⟨fun h => ⟨hconditions.1, fun row hrow => ⟨hconditions.2 row hrow, h row hrow⟩⟩,
        fun h row hrow => (h.2 row hrow).2⟩
  · refine iff_of_false (fun hread => hbroken ?_) fun h => hbroken (hlines.2 ⟨h.1, fun row hrow =>
      (h.2 row hrow).1⟩)
    -- the number of rows is the number of lines
    rw [← length_getLines_eq_iff]
    have hle := length_add_count_le (table.lines info)
    unfold VarcharTable.lines at hle ⊢
    split_ifs at hread hle ⊢ with hheader
    · have hlength := length_readAll hread
      rw [VarcharTable.lines, if_pos hheader, length_tail] at hlength
      simp only [length_append, length_singleton, length_map] at hle ⊢
      omega
    · have hlength := length_readAll hread
      rw [VarcharTable.lines, if_neg hheader] at hlength
      rw [← hlength]
      simp

/-- A NULL comes back as the word `NULL`. -/
theorem copyFrom_copyTo_null : copyFrom {} 1 (copyTo {} [['a']] [[none]]) ≠ .ok [[none]] := by
  decide

end DuckDB.PhysicalCopy
