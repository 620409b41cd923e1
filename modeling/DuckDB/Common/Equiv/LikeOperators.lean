import DuckDB.Common.LikeOperators

/-!
# What `LIKE` matches

A pattern is read as a list of wildcards and characters, or has no meaning if it ends in the escape
character; `Matches` says which strings it stands for.

`Like::Operation` looks for a last `%` when the string has ended, but for only one and without
regard to the escape character. So two of them at the end of a pattern ask for one byte more, and
an escape character `%` at the end stands for nothing.

## Main results

- `Like.operation_iff_satisfies` — the tokens that `Like::Operation` works with
- `Like.operation_iff_iff` — when they are the ones of the pattern
-/

namespace DuckDB.Like

open List

variable {escape : Option UInt8} {c d : UInt8} {p s t : List UInt8}

/-! ### Patterns -/

/-- What a part of a pattern stands for. -/
inductive Token where
  | any
  | one
  | char (c : UInt8)
deriving DecidableEq, Repr

/-- What a character that is not escaped stands for. -/
def token (c : UInt8) : Token :=
  if c = underscore then .one else if c = percent then .any else .char c

/-- The parts of a pattern. There has to be a character behind the escape character. -/
def tokens (escape : Option UInt8) : List UInt8 → Option (List Token)
  | [] => some []
  | [c] => if escape = some c then none else some [token c]
  | c :: d :: p =>
    if escape = some c then (tokens escape p).map (.char d :: ·)
    else (tokens escape (d :: p)).map (token c :: ·)

/-- The strings that a token stands for. -/
def Token.Stands : Token → List UInt8 → Prop
  | any, _ => True
  | one, s => s.length = 1
  | char c, s => s = [c]

/-- The strings that a pattern stands for. -/
def Matches : List Token → List UInt8 → Prop
  | [], s => s = []
  | a :: ts, s => ∃ t u, s = t ++ u ∧ a.Stands t ∧ Matches ts u

/-- The string matches the pattern. -/
def IsLike (escape : Option UInt8) (pattern s : List UInt8) : Prop :=
  ∃ ts, tokens escape pattern = some ts ∧ Matches ts s

variable {ts : List Token}

@[simp] theorem matches_any : Matches (.any :: ts) s ↔ ∃ t, t <:+ s ∧ Matches ts t := by
  constructor
  · rintro ⟨t, u, rfl, -, hu⟩
    exact ⟨u, ⟨t, rfl⟩, hu⟩
  · rintro ⟨u, ⟨t, rfl⟩, hu⟩
    exact ⟨t, u, rfl, trivial, hu⟩

@[simp] theorem matches_one : Matches (.one :: ts) s ↔ ∃ c t, s = c :: t ∧ Matches ts t := by
  simp only [Matches, Token.Stands, length_eq_one_iff]
  constructor
  · rintro ⟨-, u, rfl, ⟨c, rfl⟩, hu⟩
    exact ⟨c, u, rfl, hu⟩
  · rintro ⟨c, u, rfl, hu⟩
    exact ⟨[c], u, rfl, ⟨c, rfl⟩, hu⟩

@[simp] theorem matches_char : Matches (.char c :: ts) s ↔ ∃ t, s = c :: t ∧ Matches ts t := by
  simp [Matches, Token.Stands]

/-! ### What the source makes of a pattern -/

/-- Two wildcards `%` at the end ask for one byte. -/
def relaxed : List Token → List Token
  | [.any, .any] => [.one, .any]
  | t :: ts => t :: relaxed ts
  | [] => []

/-- The tokens that `Like::Operation` works with. -/
def accepted (escape : Option UInt8) (pattern : List UInt8) : Option (List Token) :=
  match tokens escape pattern with
  | some ts => some (relaxed ts)
  | none => if escape = some percent then tokens escape pattern.dropLast else none

/-- The string matches them. -/
def Satisfies (escape : Option UInt8) (pattern s : List UInt8) : Prop :=
  ∃ ts, accepted escape pattern = some ts ∧ Matches ts s

theorem tokens_cons (h : escape ≠ some c) :
    tokens escape (c :: p) = (tokens escape p).map (token c :: ·) := by
  cases p <;> simp [tokens, h]

theorem tokens_escape (h : escape = some c) :
    tokens escape (c :: d :: p) = (tokens escape p).map (.char d :: ·) := by
  simp [tokens, h]

theorem relaxed_cons {a : Token} (h : ¬(a = .any ∧ ts = [.any])) :
    relaxed (a :: ts) = a :: relaxed ts := by
  rw [relaxed]
  rintro rfl rfl
  exact h ⟨rfl, rfl⟩

theorem satisfies_append {q : List UInt8} {a : Token}
    (htokens : ∀ p, tokens escape (q ++ p) = (tokens escape p).map (a :: ·))
    (h : ¬(a = .any ∧ tokens escape p = some [.any])) :
    Satisfies escape (q ++ p) s ↔ ∃ ts, accepted escape p = some ts ∧ Matches (a :: ts) s := by
  have haccepted : accepted escape (q ++ p) = (accepted escape p).map (a :: ·) := by
    unfold accepted
    rw [htokens]
    cases hp : tokens escape p with
    | some ts =>
      rw [hp, Option.some_inj] at h
      simp only [Option.map_some, relaxed_cons h]
    | none =>
      have hne : p ≠ [] := by
        rintro rfl
        cases hp
      simp only [Option.map_none]
      rw [dropLast_append_of_ne_nil hne, htokens]
      split_ifs <;> rfl
  simp [Satisfies, haccepted]

theorem satisfies_nil : Satisfies escape [] s ↔ s = [] := by
  simp [Satisfies, accepted, tokens, relaxed, Matches]

theorem satisfies_escape (h : escape = some c) : Satisfies escape [c] s ↔ c = percent ∧ s = [] := by
  simp [Satisfies, accepted, tokens, h, Matches]

theorem satisfies_escaped (h : escape = some c) :
    Satisfies escape (c :: d :: p) s ↔ ∃ t, s = d :: t ∧ Satisfies escape p t := by
  rw [show c :: d :: p = [c, d] ++ p from rfl,
    satisfies_append (a := .char d) (fun p => tokens_escape h) (by simp)]
  simp only [Satisfies, matches_char]
  tauto

theorem satisfies_cons (h : escape ≠ some c)
    (hany : ¬(token c = .any ∧ tokens escape p = some [.any])) : Satisfies escape (c :: p) s ↔
      ∃ ts, accepted escape p = some ts ∧ Matches (token c :: ts) s := by
  rw [show c :: p = [c] ++ p from rfl, satisfies_append (fun p => tokens_cons h) hany]

theorem satisfies_underscore (h : escape ≠ some underscore) :
    Satisfies escape (underscore :: p) s ↔ ∃ c t, s = c :: t ∧ Satisfies escape p t := by
  rw [satisfies_cons h (by simp [token])]
  simp only [token, if_true, Satisfies, matches_one]
  tauto

theorem satisfies_char (h : escape ≠ some c) (hone : c ≠ underscore) (hany : c ≠ percent) :
    Satisfies escape (c :: p) s ↔ ∃ t, s = c :: t ∧ Satisfies escape p t := by
  have htoken : token c = .char c := by simp [token, hone, hany]
  rw [satisfies_cons h (by simp [htoken])]
  simp only [htoken, Satisfies, matches_char]
  tauto

theorem token_eq_any (h : token c = .any) : c = percent := by
  unfold token at h
  split_ifs at h with hone hany
  exact hany

theorem tokens_ne_nil : tokens escape (c :: p) ≠ some [] := by
  cases p <;> rw [tokens] <;> split_ifs <;> simp

theorem eq_percent_of_tokens (h : tokens escape p = some [.any]) : p = [percent] := by
  rcases p with - | ⟨c, - | ⟨d, p⟩⟩
  · cases h
  · rw [tokens] at h
    split_ifs at h
    obtain rfl := token_eq_any (c := c) (by simpa using h)
    rfl
  · rw [tokens] at h
    split_ifs at h
    · simp at h
    · exact absurd (by simpa using h : _ ∧ _).1 tokens_ne_nil

section

variable (h : escape ≠ some percent)

include h

theorem satisfies_percent_cons (hp : p ≠ [percent]) :
    Satisfies escape (percent :: p) s ↔ ∃ t, t <:+ s ∧ Satisfies escape p t := by
  have htoken : token percent = .any := rfl
  rw [satisfies_cons h (fun hany => hp (eq_percent_of_tokens hany.2))]
  simp only [htoken, Satisfies, matches_any]
  exact ⟨fun ⟨ts, hts, t, ht, hm⟩ => ⟨t, ht, ts, hts, hm⟩,
    fun ⟨t, ht, ts, hts, hm⟩ => ⟨ts, hts, t, ht, hm⟩⟩

theorem satisfies_percent_percent : Satisfies escape [percent, percent] s ↔ s ≠ [] := by
  have htokens : tokens escape [percent, percent] = some [.any, .any] := by
    rw [tokens_cons h, tokens_cons h]
    rfl
  simp only [Satisfies, accepted, htokens, relaxed, Option.some_inj, exists_eq_left', matches_one,
    matches_any]
  constructor
  · rintro ⟨c, t, rfl, -⟩
    simp
  · intro hs
    obtain ⟨c, t, rfl⟩ := exists_cons_of_ne_nil hs
    exact ⟨c, t, rfl, [], nil_suffix, rfl⟩

theorem satisfies_percents (hp : p.dropWhile (· = percent) = []) (hs : s ≠ []) :
    Satisfies escape (percent :: p) s := by
  induction p with
  | nil =>
    rw [satisfies_percent_cons h (by simp)]
    exact ⟨[], nil_suffix, satisfies_nil.2 rfl⟩
  | cons d p ih =>
    obtain ⟨rfl, hp⟩ : d = percent ∧ p.dropWhile (· = percent) = [] := by
      rw [dropWhile_cons] at hp
      split_ifs at hp with hd
      exact ⟨by simpa using hd, hp⟩
    by_cases hnil : p = []
    · rw [hnil, satisfies_percent_percent h]
      exact hs
    · rw [satisfies_percent_cons h (by simpa using hnil)]
      exact ⟨s, suffix_rfl, ih hp⟩

theorem satisfies_percent (hp : p.dropWhile (· = percent) ≠ []) :
    Satisfies escape (percent :: p) s ↔
      ∃ t, t <:+ s ∧ Satisfies escape (p.dropWhile (· = percent)) t := by
  induction p generalizing s with
  | nil => exact absurd rfl hp
  | cons d p ih =>
    rw [satisfies_percent_cons h (by rintro ⟨⟩; exact hp rfl)]
    by_cases hd : d = percent
    · subst hd
      simp only [dropWhile_cons, decide_true, if_true] at hp ⊢
      constructor
      · rintro ⟨t, ht, hsat⟩
        obtain ⟨u, hu, hsat⟩ := (ih hp).1 hsat
        exact ⟨u, hu.trans ht, hsat⟩
      · rintro ⟨u, hu, hsat⟩
        exact ⟨s, suffix_rfl, (ih hp).2 ⟨u, hu, hsat⟩⟩
    · rw [dropWhile_cons_of_neg (by simpa using hd)]

end

theorem satisfies_cons_nil : Satisfies escape (c :: p) [] ↔ c = percent ∧ p = [] := by
  induction p generalizing c with
  | nil =>
    by_cases hescape : escape = some c
    · simp [satisfies_escape hescape]
    · by_cases hany : c = percent
      · subst hany
        simp [satisfies_percent_cons hescape, satisfies_nil]
      · rw [satisfies_cons hescape fun h => hany (token_eq_any h.1), token]
        split_ifs <;> simp [hany]
  | cons d p ih =>
    by_cases hescape : escape = some c
    · simp [satisfies_escaped hescape]
    · by_cases hany : c = percent
      · subst hany
        by_cases hp : d :: p = [percent]
        · simp [hp, satisfies_percent_percent hescape]
        · simpa [satisfies_percent_cons hescape hp, ih] using hp
      · rw [satisfies_cons hescape fun h => hany (token_eq_any h.1), token]
        split_ifs <;> simp [hany]

/-- **The tokens that `Like::Operation` works with.** -/
theorem operation_iff_satisfies {pattern : List UInt8} :
    operation escape s pattern = true ↔ Satisfies escape pattern s := by
  fun_induction operation escape s pattern with
  | case1 t => rw [satisfies_nil, List.isEmpty_iff]
  | case2 c p => simp [satisfies_cons_nil]
  | case3 c x t hescape => simp [satisfies_escape hescape]
  | case4 c x t hescape d p hne => simp [satisfies_escaped hescape, Ne.symm hne]
  | case5 c x t hescape d p heq ih =>
    obtain rfl := not_ne_iff.1 heq
    simp [satisfies_escaped hescape, ih]
  | case6 p x t hescape ih => simp [satisfies_underscore hescape, ih]
  | case7 p x t hp hescape => simp [satisfies_percents hescape hp]
  | case8 p x t hp hescape _ ih =>
    rw [satisfies_percent hescape hp, any_eq_true]
    simp only [mem_tails, Bool.and_eq_true, ih]
    -- the rest of the pattern asks for a byte
    refine exists_congr fun u => and_congr_right fun _ => and_iff_right_of_imp fun hu => ?_
    obtain ⟨d, q, hq⟩ := exists_cons_of_ne_nil hp
    cases u with
    | cons => rfl
    | nil =>
      rw [hq, satisfies_cons_nil] at hu
      have hhead := head_dropWhile_not (fun x => decide (x = percent)) hp
      simp [hq, hu.1] at hhead
  | case9 p x t hescape hone hany ih => simp [satisfies_char hescape hone hany, ih]
  | case10 c p x t hescape hone hany hne =>
    simp [satisfies_char hescape hone hany, Ne.symm hne]

/-! ### When that is what the pattern stands for -/

theorem matches_append {us : List Token} :
    Matches (ts ++ us) s ↔ ∃ t u, s = t ++ u ∧ Matches ts t ∧ Matches us u := by
  induction ts generalizing s with
  | nil => simp [Matches]
  | cons a ts ih =>
    simp only [cons_append, Matches, ih]
    constructor
    · rintro ⟨v, -, rfl, hv, t, u, rfl, ht, hu⟩
      exact ⟨v ++ t, u, by simp, ⟨v, t, rfl, hv, ht⟩, hu⟩
    · rintro ⟨-, u, rfl, ⟨v, t, rfl, hv, ht⟩, hu⟩
      exact ⟨v, t ++ u, by simp, hv, t, u, rfl, ht, hu⟩

theorem matches_any_any :
    Matches (ts ++ [.any, .any]) s ↔ Matches ts s ∨ Matches (ts ++ [.one, .any]) s := by
  simp only [matches_append, matches_one, matches_any]
  constructor
  · rintro ⟨t, u, rfl, ht, -⟩
    cases u with
    | nil => exact .inl (by simpa using ht)
    | cons c u => exact .inr ⟨t, c :: u, rfl, ht, c, u, rfl, [], nil_suffix, rfl⟩
  · rintro (hs | ⟨t, u, rfl, ht, -⟩)
    · exact ⟨s, [], by simp, hs, [], suffix_rfl, [], suffix_rfl, rfl⟩
    · exact ⟨t, u, rfl, ht, u, suffix_rfl, [], nil_suffix, rfl⟩

theorem relaxed_append : relaxed (ts ++ [.any, .any]) = ts ++ [.one, .any] := by
  induction ts with
  | nil => rfl
  | cons a ts ih =>
    rw [cons_append, relaxed_cons, ih, cons_append]
    rintro ⟨-, heq⟩
    simpa using congrArg length heq

theorem relaxed_eq_self (h : ∀ us, ts ≠ us ++ [.any, .any]) : relaxed ts = ts := by
  induction ts with
  | nil => rfl
  | cons a ts ih =>
    rw [relaxed_cons, ih fun us heq => h (a :: us) (by rw [heq, cons_append])]
    rintro ⟨rfl, rfl⟩
    exact h [] rfl

/-- The patterns and strings that `Like::Operation` treats right. Two wildcards `%` at the end of
the pattern may stand for a byte, if what is before them matches; and no `%` is left over as an
escape character, after a part that matches. -/
structure Right (escape : Option UInt8) (pattern s : List UInt8) : Prop where
  trailing : ∀ ts, tokens escape pattern = some (ts ++ [.any, .any]) → Matches ts s →
    Matches (ts ++ [.one, .any]) s
  dangling : ∀ ts, escape = some percent → tokens escape pattern = none →
    tokens escape pattern.dropLast = some ts → ¬Matches ts s

/-- `Like::Operation` returns, and its result says whether the string matches the pattern, exactly
for these patterns and strings. -/
theorem operation_iff_iff (escape : Option UInt8) (s pattern : List UInt8) :
    (operation escape s pattern = true ↔ IsLike escape pattern s) ↔ Right escape pattern s := by
  rw [operation_iff_satisfies]
  cases htokens : tokens escape pattern with
  | none =>
    have hlike : ¬IsLike escape pattern s := by simp [IsLike, htokens]
    rw [iff_false_right hlike]
    constructor
    · intro hsat
      refine ⟨by simp [htokens], fun ts hescape _ hts hm => hsat ⟨ts, ?_, hm⟩⟩
      simp only [accepted, htokens, if_pos hescape, hts]
    · rintro hright ⟨ts, hts, hm⟩
      simp only [accepted, htokens] at hts
      split_ifs at hts with hescape
      exact hright.dangling ts hescape htokens hts hm
  | some ts =>
    have hsat : Satisfies escape pattern s ↔ Matches (relaxed ts) s := by
      simp [Satisfies, accepted, htokens]
    have hlike : IsLike escape pattern s ↔ Matches ts s := by simp [IsLike, htokens]
    rw [hsat, hlike]
    by_cases hend : ∃ us, ts = us ++ [.any, .any]
    · obtain ⟨us, rfl⟩ := hend
      rw [relaxed_append, matches_any_any]
      constructor
      · intro hiff
        refine ⟨fun vs hvs hm => ?_, by simp [htokens]⟩
        obtain rfl := append_cancel_right (Option.some.inj (htokens.symm.trans hvs))
        exact hiff.2 (.inl hm)
      · exact fun hright => ⟨.inr, fun hor => hor.elim (hright.trailing us htokens) id⟩
    · rw [relaxed_eq_self fun us heq => hend ⟨us, heq⟩]
      refine iff_of_true Iff.rfl ⟨fun us hus => ?_, by simp [htokens]⟩
      exact absurd ⟨us, Option.some.inj (htokens.symm.trans hus)⟩ hend

/-- The string `a` matches the pattern `a%%`, and `Like::Operation` says that it does not. -/
theorem operation_two_percents :
    operation none [0x61] [0x61, percent, percent] = false ∧
      IsLike none [0x61, percent, percent] [0x61] := by
  refine ⟨by simp [operation, percent, underscore], [.char 0x61, .any, .any], rfl, ?_⟩
  simp only [matches_char, matches_any]
  exact ⟨[], rfl, [], suffix_rfl, [], suffix_rfl, rfl⟩

end DuckDB.Like
