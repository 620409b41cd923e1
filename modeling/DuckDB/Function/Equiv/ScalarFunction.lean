import DuckDB.Common.Equiv.Value
import DuckDB.Common.Equiv.VectorOperations
import DuckDB.Function.ScalarFunction

/-!
# What the functions on strings compute

Both functions take the null mask of the result from the entries of their inputs at the position of
the row. A constant has its value at 0, so its null bit is not the one they look at; and
`SUBSTRING` looks at the null mask of the string only.

## Main results

- `concatFunction_iff` — when the result holds the strings of the rows one after the other
- `substringFunction_iff` — when the result holds the parts of the strings
-/

open List DuckDB.Vector

namespace DuckDB

/-- The string in row `k`, unless it is NULL. -/
def Vector.text (v : Vector (Option (List UInt8))) (k : ℕ) : Option (List UInt8) :=
  (v.value k).join

/-- The rows of the vector that are not NULL hold strings. -/
def Vector.Readable (v : Vector (Option (List UInt8))) (count : ℕ) : Prop :=
  ∀ k < count, v.value k ≠ some none

variable {input input1 input2 result : Vector (Option (List UInt8))} {offset length : Vector (BitVec 32)}

/-! ### Concatenation -/

/-- The null bits that `concat_function` looks at are the ones of the row. -/
def ConcatMask (input1 input2 : Vector (Option (List UInt8))) (i : ℕ) : Prop :=
  (input1.nullmask i || input2.nullmask i) =
    (input1.nullmask (input1.mul * i) || input2.nullmask (input2.mul * i))

theorem concat_entry {d1 d2 d : Option (List UInt8)} {m1 m2 m : Bool}
    (h1 : ofEntry (d1, m1) ≠ some none) (h2 : ofEntry (d2, m2) ≠ some none) :
    (∃ e, (if m then some (d, m)
        else do
          let string1 ← d1
          let string2 ← d2
          return (some (string1 ++ string2), m)) = some e ∧
      ofEntry e = (ofEntry (d1, m1)).join.bind fun s =>
        (ofEntry (d2, m2)).join.map fun t => some (s ++ t)) ↔ m = (m1 || m2) := by
  cases m <;> cases m1 <;> cases m2 <;> cases d1 <;> cases d2 <;> simp_all [ofEntry]

/-- Row `k` of the result is NULL exactly if one of the operands is, and otherwise the left string
followed by the right one, if these null bits are right in all rows. -/
theorem concatFunction_iff (input1 input2 result : Vector (Option (List UInt8)))
    (h : Shape.Aligned [input1.shape, input2.shape]) {shape : Shape}
    (hshape : shape = Shape.ofInputs [input1.shape, input2.shape])
    (h1 : input1.Readable shape.count) (h2 : input2.Readable shape.count) :
    (∃ r, concatFunction input1 input2 result = some r ∧ r.shape = shape ∧
      ∀ k < shape.count, r.row k =
        (input1.text k).bind fun s => (input2.text k).map fun t => some (s ++ t)) ↔
    ∀ k < shape.count, ConcatMask input1 input2 (position shape.selVector k) := by
  subst hshape
  unfold concatFunction binaryExec
  refine (exists_forRows_iff ?_ shape_setShape fun k row => row = _).trans
    (forall₂_congr fun k hk => ?_)
  · rintro i ⟨d, m⟩ e he
    simp only [Option.bind_eq_bind, Option.pure_def] at he ⊢
    grind
  · have hread1 := h1 k hk
    have hread2 := h2 k hk
    simp only [text, value_eq (h input1.shape (by simp)), value_eq (h input2.shape (by simp))] at *
    exact concat_entry hread1 hread2

/-- The strings `a` and `b`, with a constant behind them. -/
theorem concatFunction_selected :
    ∃ r, concatFunction (selected fun i => some [if i = 1 then 0x61 else 0x62])
        (constant (some [0x63])) (constant none) = some r ∧
      r.row 0 = some (some [0x61, 0x63]) ∧ r.row 1 = some (some [0x62, 0x63]) := by
  obtain ⟨r, hr, -, hrow⟩ := (concatFunction_iff
    (selected fun i => some [if i = 1 then 0x61 else 0x62]) (constant (some [0x63])) (constant none)
    (by simp [Shape.Aligned, Shape.Follows, selected, constant, Shape.ofInputs_pair, Vector.shape,
      Shape.isConstant]) rfl (fun _ _ h => by cases h) (fun _ _ h => by cases h)).2 fun _ _ => rfl
  exact ⟨r, hr, hrow 0 (by decide), hrow 1 (by decide)⟩

/-- A constant NULL and two strings: the second row is the string and not NULL. -/
theorem concatFunction_null :
    ∃ r, concatFunction { data := fun _ => some [], nullmask := (· = 0), count := 1 }
        { data := fun i => some [if i = 0 then 0x61 else 0x62], count := 2 }
        { data := fun _ => none } = some r ∧
      Vector.text { data := fun _ => some [], nullmask := (· = 0), count := 1 } 1 = none ∧
        r.row 1 = some (some [0x62]) :=
  ⟨_, rfl, rfl, rfl⟩

/-! ### Parts of strings -/

/-- A group of bytes is a first byte and bytes that continue it. -/
theorem Value.Group.exists_eq {group : List UInt8} (h : Value.Group group) :
    ∃ c rest, group = c :: rest ∧ c ≠ 0 ∧ c &&& 0xC0 ≠ 0x80 ∧ ∀ b ∈ rest, b &&& 0xC0 = 0x80 := by
  have hlead : ∀ c : UInt8, c &&& 0xC0 = 0xC0 → c ≠ 0 ∧ c &&& 0xC0 ≠ 0x80 := fun c hc =>
    ⟨Value.ne_zero_of_and (by rw [hc]; decide), by rw [hc]; decide⟩
  cases h with
  | one hc hmask =>
    refine ⟨_, _, rfl, hc, fun h80 => ?_, by simp⟩
    have hbit : _ &&& (0x80 : UInt8) = _ := Value.and_of_and h80 rfl
    rw [hmask] at hbit
    cases hbit
  | two hmask h1 | three hmask h1 h2 | four hmask h1 h2 h3 =>
    have hc := hlead _ (Value.and_of_and hmask rfl)
    exact ⟨_, _, rfl, hc.1, hc.2, by simp [*]⟩

section Loop

variable {o l n : ℕ} (hlt : o + l < 18446744073709551616)

include hlt

theorem substringLoop_continued {bytes rest : List UInt8} (hn : n ≤ o + l)
    (h : ∀ b ∈ bytes, b &&& 0xC0 = 0x80) : substringLoop o l n (bytes ++ rest) =
      (substringLoop o l n rest).map ((if n > o then bytes else []) ++ ·) := by
  induction bytes with
  | nil => simp
  | cons b bytes ih =>
    rw [forall_mem_cons] at h
    have hb : b ≠ 0 := Value.ne_zero_of_and (by rw [h.1]; decide)
    rw [cons_append, substringLoop, if_neg hb]
    simp only [h.1, ne_eq, not_true_eq_false, if_false, Nat.mod_eq_of_lt hlt, not_lt.2 hn, ih h.2]
    split_ifs <;> simp [Function.comp_def]

theorem substringLoop_group {group rest : List UInt8} (h : Value.Group group) :
    substringLoop o l n (group ++ rest) = if n + 1 > o + l then some []
      else (substringLoop o l (n + 1) rest).map ((if n + 1 > o then group else []) ++ ·) := by
  obtain ⟨c, bytes, rfl, hc, hlead, hbytes⟩ := h.exists_eq
  rw [cons_append, substringLoop, if_neg hc]
  simp only [hlead, ne_eq, not_false_eq_true, if_true, Nat.mod_eq_of_lt hlt]
  by_cases hn : n + 1 > o + l
  · rw [if_pos hn, if_pos hn]
  · rw [if_neg hn, if_neg hn, substringLoop_continued hlt (not_lt.1 hn) hbytes]
    split_ifs <;> simp [Function.comp_def]

/-- The loop over a string gives the groups from the offset on. -/
theorem substringLoop_groups {groups : List (List UInt8)} (h : ∀ group ∈ groups, Value.Group group)
    (hn : n ≤ o + l) : substringLoop o l n (groups.flatten ++ [0]) =
      some ((groups.take (o + l - n)).drop (o - n)).flatten := by
  induction groups generalizing n with
  | nil => simp [substringLoop]
  | cons group groups ih =>
    rw [forall_mem_cons] at h
    rw [flatten_cons, append_assoc, substringLoop_group hlt h.1]
    by_cases hend : n + 1 > o + l
    · rw [if_pos hend, show o + l - n = 0 by omega]
      simp
    · rw [if_neg hend, ih h.2 (by omega), show o + l - n = o + l - (n + 1) + 1 by omega, take_succ_cons]
      by_cases hstart : n + 1 > o
      · simp [hstart, show o - n = 0 by omega, show o - (n + 1) = 0 by omega]
      · simp [hstart, show o - n = o - (n + 1) + 1 by omega]

end Loop

/-- What a row of the result should hold. -/
def SubstringRow (row : Option (Option (List UInt8))) :
    Option (List UInt8) → Option (BitVec 32) → Option (BitVec 32) → Prop
  | some s, some offset, some length =>
    ∀ groups : List (List UInt8), (∀ group ∈ groups, Value.Group group) → groups.flatten = s →
      row = some (some ((groups.drop (offset.toInt.toNat - 1)).take length.toInt.toNat).flatten)
  | _, _, _ => row = none

/-- The arguments of a row are an error. -/
def SubstringError : Option (List UInt8) → Option (BitVec 32) → Option (BitVec 32) → Prop
  | some _, some offset, some length => offset.toInt < 1 ∨ length.toInt < 0
  | _, _, _ => False

theorem toNat_signExtend {v : BitVec 32} (h : 0 ≤ v.toInt) :
    (v.signExtend 64).toNat = v.toInt.toNat := by
  have hlt := v.isLt
  rw [BitVec.toInt_eq_toNat_cond] at h
  have hmsb : v.msb = false := by
    rw [BitVec.msb_eq_decide]
    split_ifs at h <;> simp <;> omega
  rw [BitVec.signExtend_eq_setWidth_of_msb_false hmsb, BitVec.toInt_eq_toNat_cond]
  split_ifs at h ⊢ <;> simp <;> omega

theorem toInt_sub_one {v : BitVec 32} (h : 1 ≤ v.toInt) : (v - 1).toInt = v.toInt - 1 := by
  have hlt := v.isLt
  rw [BitVec.toInt_eq_toNat_cond] at *
  rw [BitVec.toInt_eq_toNat_cond, BitVec.toNat_sub]
  split_ifs at * <;> simp at * <;> omega

theorem substringLoop_eq {offset length : BitVec 32} (hoffset : 1 ≤ offset.toInt)
    (hlength : 0 ≤ length.toInt) {groups : List (List UInt8)}
    (h : ∀ group ∈ groups, Value.Group group) :
    substringLoop ((offset - 1).signExtend 64).toNat (length.signExtend 64).toNat 0
        (groups.flatten ++ [0]) =
      some ((groups.drop (offset.toInt.toNat - 1)).take length.toInt.toNat).flatten := by
  have hsub := toInt_sub_one hoffset
  have hlt := BitVec.toInt_lt (x := offset)
  have hlt' := BitVec.toInt_lt (x := length)
  rw [toNat_signExtend hlength, toNat_signExtend (by omega), hsub,
    substringLoop_groups (by omega) h (by omega), drop_take]
  simp only [Nat.sub_zero, Nat.add_sub_cancel_left, Int.pred_toNat]

theorem exists_substringLoop (o l n : ℕ) (bytes : List UInt8) :
    ∃ output, substringLoop o l n (bytes ++ [0]) = some output := by
  induction bytes generalizing n with
  | nil => exact ⟨[], rfl⟩
  | cons b bytes ih =>
    rw [cons_append, substringLoop]
    dsimp only
    generalize (if b &&& 0xC0 ≠ 0x80 then n + 1 else n) = n'
    obtain ⟨output, houtput⟩ := ih n'
    rw [houtput]
    split_ifs
    · exact ⟨_, rfl⟩
    · exact ⟨_, rfl⟩
    · exact ⟨_, rfl⟩
    · exact ⟨_, rfl⟩

theorem settles_substringEntry {input : ℕ → Option (List UInt8) × Bool}
    {offset length : ℕ → BitVec 32} :
    Settles fun i => substringEntry (input i) (offset i) (length i) := by
  intro i e e' he
  simp only [substringEntry, Option.bind_eq_bind, Option.pure_def] at he ⊢
  split_ifs at he ⊢
  · rfl
  · simp only [Option.bind_eq_some_iff] at he ⊢
    obtain ⟨s, hs, output, houtput, rfl⟩ := by simpa using he
    exact ⟨s, hs, output, houtput, rfl⟩

theorem exists_substringEntry (s : List UInt8) (offset length : BitVec 32)
    (e : Option (List UInt8) × Bool) :
    ∃ output, substringLoop ((offset - 1).signExtend 64).toNat (length.signExtend 64).toNat 0
        (s ++ [0]) = some output ∧
      substringEntry (some s, false) offset length e = some (some output, e.2) := by
  obtain ⟨output, houtput⟩ := exists_substringLoop ((offset - 1).signExtend 64).toNat
    (length.signExtend 64).toNat 0 s
  refine ⟨output, houtput, ?_⟩
  simp only [substringEntry, Bool.false_eq_true, if_false, Nat.not_lt_zero, decide_false,
    Bool.or_self, Option.bind_eq_bind, Option.bind_some, houtput, Option.pure_def]

theorem entry_cases {input : Option (List UInt8) × Bool} (h : ofEntry input ≠ some none) :
    input.2 = true ∨ ∃ s, input = (some s, false) := by
  obtain ⟨_ | s, _ | _⟩ := input
  · exact absurd rfl h
  · exact .inl rfl
  · exact .inr ⟨s, rfl⟩
  · exact .inl rfl

/-- One row: the null bit of the result tells whether it is right, if the arguments are no error. -/
theorem substring_entry (input e : Option (List UInt8) × Bool) (offset length : BitVec 32 × Bool)
    (hread : ofEntry input ≠ some none) (hvalid : ∀ s ∈ (ofEntry input).join, Value.WellFormed s)
    (herror : ¬SubstringError (ofEntry input).join (ofEntry offset) (ofEntry length)) :
    (∃ e', substringEntry input offset.1 length.1 e = some e' ∧
      SubstringRow (ofEntry e') (ofEntry input).join (ofEntry offset) (ofEntry length)) ↔
      e.2 = (input.2 || offset.2 || length.2) := by
  rcases entry_cases hread with hnull | ⟨s, rfl⟩
  · simp [substringEntry, SubstringRow, ofEntry, hnull]
  · obtain ⟨output, houtput, hbody⟩ := exists_substringEntry s offset.1 length.1 e
    rw [hbody]
    obtain ⟨offset, mo⟩ := offset
    obtain ⟨length, ml⟩ := length
    obtain ⟨groups, hgroups, rfl⟩ := hvalid s rfl
    cases mo <;> cases ml
    · -- all arguments are there
      have hbounds : 1 ≤ offset.toInt ∧ 0 ≤ length.toInt := by
        simpa [SubstringError, ofEntry] using herror
      have hrow : SubstringRow (ofEntry (some output, e.2)) (some groups.flatten) (some offset)
          (some length) ↔ ofEntry (some output, e.2) = some (some output) := by
        constructor
        · intro h
          have hloop := substringLoop_eq hbounds.1 hbounds.2 hgroups
          rw [h groups hgroups rfl, Option.some.inj (houtput.symm.trans hloop)]
        · intro h groups' hgroups' heq
          have hloop := substringLoop_eq hbounds.1 hbounds.2 hgroups'
          rw [heq] at hloop
          rw [h, Option.some.inj (houtput.symm.trans hloop)]
      simp only [Option.some_inj, exists_eq_left']
      exact hrow.trans (by cases e.2 <;> simp [ofEntry])
    all_goals simp [SubstringRow, ofEntry]

theorem exists_substringFunction_iff (input result : Vector (Option (List UInt8)))
    (offset length : Vector (BitVec 32)) {shape : Shape}
    (hshape : shape = Shape.ofInputs [input.shape, offset.shape, length.shape])
    (P : ℕ → Option (Option (List UInt8)) → Prop) :
    (∃ r, substringFunction input offset length result = some r ∧ r.shape = shape ∧
      ∀ k < shape.count, P k (r.row k)) ↔
    ∀ k < shape.count, let i := position shape.selVector k
      ∃ e, substringEntry (input.entry (input.mul * i)) (offset.data (offset.mul * i))
        (length.data (length.mul * i)) (result.data i, input.nullmask i) = some e ∧
          P k (ofEntry e) := by
  subst hshape
  exact exists_forRows_iff settles_substringEntry shape_setShape P

/-- Row `k` of the result is NULL if one of the arguments is, and an error if the offset is below 1
or the length negative; otherwise it holds the code points from the offset on, up to the length.
This is so if there is no error, and the null bit of the string at the position of the row tells
whether an argument is NULL. -/
theorem substringFunction_iff (input result : Vector (Option (List UInt8)))
    (offset length : Vector (BitVec 32)) {shape : Shape}
    (h : Shape.Aligned [input.shape, offset.shape, length.shape])
    (hshape : shape = Shape.ofInputs [input.shape, offset.shape, length.shape])
    (hread : input.Readable shape.count)
    (hvalid : ∀ k < shape.count, ∀ s ∈ input.text k, Value.WellFormed s) :
    (((∃ k < shape.count, SubstringError (input.text k) (offset.value k) (length.value k)) →
      substringFunction input offset length result = none) ∧
    ((∀ k < shape.count, ¬SubstringError (input.text k) (offset.value k) (length.value k)) →
      ∃ r, substringFunction input offset length result = some r ∧ r.shape = shape ∧
        ∀ k < shape.count,
          SubstringRow (r.row k) (input.text k) (offset.value k) (length.value k))) ↔
    ∀ k < shape.count, ¬SubstringError (input.text k) (offset.value k) (length.value k) ∧
      input.nullmask (position shape.selVector k) =
        ((input.value k).isNone || (offset.value k).isNone || (length.value k).isNone) := by
  have hrows := exists_substringFunction_iff input result offset length hshape
  have hinput := value_eq (hshape ▸ h input.shape (by simp) : shape.Follows input.shape)
  have hoffset := value_eq (hshape ▸ h offset.shape (by simp) : shape.Follows offset.shape)
  have hlength := value_eq (hshape ▸ h length.shape (by simp) : shape.Follows length.shape)
  have hnull : ∀ {α : Type} (e : α × Bool), e.2 = (ofEntry e).isNone := by
    rintro α ⟨a, _ | _⟩ <;> rfl
  by_cases herror : ∀ k < shape.count,
      ¬SubstringError (input.text k) (offset.value k) (length.value k)
  · rw [and_iff_right fun ⟨k, hk, he⟩ => absurd he (herror k hk), forall_prop_of_true herror]
    refine (hrows fun k row => SubstringRow row _ _ _).trans (forall₂_congr fun k hk => ?_)
    have hread := hread k hk
    have hvalid := hvalid k hk
    have herror := herror k hk
    rw [and_iff_right herror]
    simp only [text, hinput, hoffset, hlength, ← hnull] at *
    exact substring_entry (input.entry _) (result.data _, input.nullmask _) (offset.entry _)
      (length.entry _) hread hvalid herror
  · -- the source computes a result
    obtain ⟨r, hr, -⟩ := (hrows fun _ _ => True).2 fun k hk => by
      rcases entry_cases (hinput k ▸ hread k hk) with hnull | ⟨s, hs⟩
      · exact ⟨_, if_pos hnull, trivial⟩
      · obtain ⟨output, -, hbody⟩ := exists_substringEntry s (offset.data _) (length.data _) _
        exact ⟨_, hs ▸ hbody, trivial⟩
    simp only [not_forall, not_not] at herror
    obtain ⟨k, hk, he⟩ := herror
    constructor
    · intro hclaim
      cases hr.symm.trans (hclaim.1 ⟨k, hk, he⟩)
    · exact fun hright => absurd he (hright k hk).1

/-- The first characters of two strings. -/
theorem substringFunction_selected :
    ∃ r, substringFunction (selected fun i => some [0xC3, 0xA9, if i = 1 then 0x61 else 0x62])
        (constant 1) (constant 1) (constant none) = some r ∧
      r.row 0 = some (some [0xC3, 0xA9]) ∧ r.row 1 = some (some [0xC3, 0xA9]) := by
  have hgroups (c : UInt8) (hc : c = 0x61 ∨ c = 0x62) :
      ∀ group ∈ [[0xC3, 0xA9], [c]], Value.Group group := by
    simp only [mem_cons, not_mem_nil, or_false, forall_eq_or_imp, forall_eq]
    obtain rfl | rfl := hc <;> exact ⟨.two (by decide) (by decide), .one (by decide) (by decide)⟩
  have herror (s : Option (List UInt8)) : ¬SubstringError s (some 1) (some 1) := by
    cases s with
    | none => exact id
    | some s => rintro (h | h) <;> exact absurd h (by decide)
  have hchar (k : ℕ) : (if k = 1 then 0x61 else 0x62 : UInt8) = 0x61 ∨
      (if k = 1 then 0x61 else 0x62 : UInt8) = 0x62 := by
    split_ifs <;> simp
  obtain ⟨r, hr, -, hrow⟩ := ((substringFunction_iff
    (selected fun i => some [0xC3, 0xA9, if i = 1 then 0x61 else 0x62])
    (constant none) (constant 1) (constant 1)
    (by simp [Shape.Aligned, Shape.Follows, selected, constant, Shape.ofInputs, Vector.shape,
      Shape.isConstant]) rfl (fun _ _ h => by cases h)
    (fun k _ s hs => by cases hs; exact ⟨_, hgroups _ (hchar _), rfl⟩)).2 fun k hk =>
      ⟨by simpa using herror _, rfl⟩).2 fun k hk => by simpa using herror _
  exact ⟨r, hr, hrow 0 (by decide) _ (hgroups _ (.inl rfl)) rfl,
    hrow 1 (by decide) _ (hgroups _ (.inr rfl)) rfl⟩

/-- The offset is NULL and the row is not; an offset of 0 is no error. -/
theorem substringFunction_null :
    (∃ r, substringFunction (constant (some [0x61]))
        { data := fun _ => 1, nullmask := fun _ => true, count := 1 } (constant 1)
        (constant none) = some r ∧ r.row 0 = some (some [0x61])) ∧
    ∃ r, substringFunction (constant (some [0x61])) (constant 0) (constant 1) (constant none) =
      some r ∧ (r.row 0).isSome :=
  ⟨⟨_, rfl, rfl⟩, _, rfl, rfl⟩

end DuckDB
