import DuckDB.Execution.PlanFilter
import Mathlib.Data.List.Perm.Basic

/-!
# Index scans and the filters they replace

A filter is replaced correctly if the filters that are erased are those whose comparisons bound the
scan. The loop keeps the last lower bound and the last upper bound before the first equality. The
erasures are right if an equality comes first, since it is then the only bound, or if there is no
equality and the last upper bound comes before the last lower one: the lower bound is erased first,
which moves all filters behind it. In all other cases they are wrong, and with an equality behind
other bounds the scan does not even look at the equality.

## Main results

- `collectBounds_cases` — what the loop over the filters finds
- `rewriteCorrect_iff` — when the rewrite is correct
-/

namespace DuckDB

open List PhysicalIndexScan ComparisonType

variable {V F : Type*} [DecidableEq V] [DecidableEq F]
  {e : Expression V F} {c : IndexComparison V} {kind : ComparisonType → Bool}

/-! ### What a match means -/

variable {indexed : Expression V F} {index : TableIndex V F} {filters : List (Expression V F)}
  {bounds : IndexBounds V}
  {bound : Option (BoundAt V)} {α : Type*}

theorem matchIndex_isIndexComparison (h : matchIndex indexed e = some c) :
    c.type.isIndexComparison = true := by
  cases e with
  | comparison type left right =>
    rw [matchIndex] at h
    split at h
    next htype =>
      split at h
      · cases h
        exact htype
      · split at h
        · obtain ⟨flipped, hflip, rfl⟩ := Option.map_eq_some_iff.mp h
          cases type <;> cases hflip <;> first | rfl | cases htype
        · cases h
    next => cases h
  | _ => cases h

namespace ComparisonType

/-- Only `=`. -/
def isEquality : ComparisonType → Bool
  | .equal => true
  | _ => false

/-- "smaller than means this is an upper bound". -/
def isUpperBound : ComparisonType → Bool
  | .lessThan | .lessThanOrEqualTo => true
  | _ => false

variable {type : ComparisonType}

theorem isEquality_iff : type.isEquality = true ↔ type = .equal := by
  cases type <;> simp [isEquality]

/-- A comparison that bounds a scan is an equality, a lower or an upper bound. -/
theorem isUpperBound_eq (hindex : type.isIndexComparison = true) (hequal : type.isEquality = false)
    (hlow : type.isLowerBound = false) : type.isUpperBound = true := by
  cases type <;> simp_all [isIndexComparison, isEquality, isLowerBound, isUpperBound]

theorem not_isUpperBound (hlow : type.isLowerBound = true) : type.isUpperBound = false := by
  cases type <;> first | rfl | cases hlow

end ComparisonType

section Passes

variable {V F : Type*} [Payload V] (ctx : Context V F) (row : Row V) {binding : ColumnBinding}

theorem compareValues_flip {type flipped : ComparisonType} (h : type.flip = some flipped)
    {b : Option V} (a : Option V) :
    Expression.compareValues ctx type a b = Expression.compareValues ctx flipped b a := by
  cases a <;> cases b <;> cases type <;> cases h <;>
    simp [Expression.compareValues, holds, eq_comm]

variable [DecidableEq F]

theorem eq_of_equals_columnRef {depth : ℕ} {e : Expression V F}
    (h : (Expression.columnRef binding depth).equals e = true) : e = .columnRef binding depth := by
  cases e with
  | columnRef binding' depth' =>
    obtain ⟨hbinding, hdepth⟩ := Bool.and_eq_true_iff.1 h
    rw [beq_iff_eq.1 hbinding, beq_iff_eq.1 hdepth]
  | _ => exact absurd h Bool.false_ne_true

theorem matchSides_eq_some {side other : Expression V F} {value : Option V}
    (h : matchSides (.columnRef binding 0) side other = some value) :
    side = .columnRef binding 0 ∧ other = .constant value := by
  rw [matchSides] at h
  split at h
  next hside =>
    refine ⟨eq_of_equals_columnRef hside, ?_⟩
    cases other <;> cases h
    rfl
  next => cases h

theorem passes_iff_of_matchIndex {e : Expression V F} {c : IndexComparison V}
    (h : matchIndex (.columnRef binding 0) e = some c) :
    e.passes ctx row ↔ Expression.compareValues ctx c.type (row binding) c.value = some true := by
  cases e with
  | comparison type left right =>
    rw [matchIndex] at h
    split at h
    next =>
      split at h
      next value hsides =>
        obtain ⟨rfl, rfl⟩ := matchSides_eq_some hsides
        cases h
        simp [Expression.passes, Expression.eval]
      next =>
        split at h
        next value hsides =>
          obtain ⟨rfl, rfl⟩ := matchSides_eq_some hsides
          obtain ⟨flipped, hflip, rfl⟩ := Option.map_eq_some_iff.mp h
          simp [Expression.passes, Expression.eval, compareValues_flip ctx hflip]
        next => cases h
    next => cases h
  | _ => cases h

end Passes

/-! ### What the loop finds -/

/-- No filter of the list has a comparison of the kind. -/
def NoBound (indexed : Expression V F) (kind : ComparisonType → Bool)
    (filters : List (Expression V F)) : Prop :=
  ∀ e ∈ filters, ∀ c, matchIndex indexed e = some c → kind c.type = false

/-- The bound is the last one of its kind, at its position. -/
def LastBound (indexed : Expression V F) (kind : ComparisonType → Bool)
    (filters : List (Expression V F)) : Option (BoundAt V) → Prop
  | none => NoBound indexed kind filters
  | some (i, c) => ∃ before e after, filters = before ++ e :: after ∧ before.length = i ∧
      matchIndex indexed e = some c ∧ kind c.type = true ∧ NoBound indexed kind after

theorem NoBound.append (h : NoBound indexed kind filters)
    (he : ∀ c, matchIndex indexed e = some c → kind c.type = false) :
    NoBound indexed kind (filters ++ [e]) := by
  intro e' he' c hc
  rcases mem_append.mp he' with hmem | hmem
  · exact h e' hmem c hc
  · rw [mem_singleton] at hmem
    exact he c (hmem ▸ hc)

theorem LastBound.skip (h : LastBound indexed kind filters bound)
    (he : ∀ c, matchIndex indexed e = some c → kind c.type = false) :
    LastBound indexed kind (filters ++ [e]) bound := by
  match bound, h with
  | none, h => exact NoBound.append h he
  | some (i, c), ⟨before, e', after, heq, hi, hc, hkind, hafter⟩ =>
    exact ⟨before, e', after ++ [e], by rw [heq, append_assoc, cons_append], hi, hc, hkind,
      hafter.append he⟩

theorem LastBound.found (hc : matchIndex indexed e = some c) (hkind : kind c.type = true) :
    LastBound indexed kind (filters ++ [e]) (some (filters.length, c)) :=
  ⟨filters, e, [], rfl, rfl, hc, hkind, fun _ h => absurd h not_mem_nil⟩

/-- What is known of the filters the loop has passed. -/
structure Passed (indexed : Expression V F) (filters : List (Expression V F))
    (bounds : IndexBounds V) : Prop where
  equal : NoBound indexed isEquality filters
  low : LastBound indexed isLowerBound filters bounds.low
  high : LastBound indexed isUpperBound filters bounds.high

theorem Passed.unmatched (h : Passed indexed filters bounds) (he : matchIndex indexed e = none) :
    Passed indexed (filters ++ [e]) bounds := by
  have hnone : ∀ (kind : ComparisonType → Bool) c, matchIndex indexed e = some c →
      kind c.type = false := fun _ c hc => by rw [he] at hc; cases hc
  exact ⟨h.equal.append (hnone _), h.low.skip (hnone _), h.high.skip (hnone _)⟩

theorem Passed.matched (h : Passed indexed filters bounds) (he : matchIndex indexed e = some c)
    (hequal : c.type.isEquality = false) :
    Passed indexed (filters ++ [e])
      (if c.type.isLowerBound then { bounds with low := some (filters.length, c) }
        else { bounds with high := some (filters.length, c) }) := by
  have honly : ∀ {kind : ComparisonType → Bool}, kind c.type = false →
      ∀ c', matchIndex indexed e = some c' → kind c'.type = false := by
    intro kind hkind c' hc'
    obtain rfl := Option.some.inj (he.symm.trans hc')
    exact hkind
  refine ⟨h.equal.append (honly hequal), ?_, ?_⟩
  · split
    next hlow => exact LastBound.found he hlow
    next hlow => exact h.low.skip (honly (Bool.eq_false_of_not_eq_true hlow))
  · split
    next hlow => exact h.high.skip (honly (not_isUpperBound hlow))
    next hlow =>
      exact LastBound.found he (isUpperBound_eq (matchIndex_isIndexComparison he)
        hequal (Bool.eq_false_of_not_eq_true hlow))

theorem collectBounds_cases (indexed : Expression V F) (filters : List (Expression V F)) :
    (∃ before e after c, filters = before ++ e :: after ∧ matchIndex indexed e = some c ∧
      c.type = .equal ∧
      (collectBounds indexed filters 0 {}).equal = some (before.length, c) ∧
      Passed indexed before (collectBounds indexed filters 0 {})) ∨
    ((collectBounds indexed filters 0 {}).equal = none ∧
      Passed indexed filters (collectBounds indexed filters 0 {})) := by
  -- the filters are split into those the loop has passed and the rest
  suffices h : ∀ (rest passed : List (Expression V F)) (bounds : IndexBounds V),
      bounds.equal = none → Passed indexed passed bounds →
      (∃ before e after c, passed ++ rest = before ++ e :: after ∧ matchIndex indexed e = some c ∧
        c.type = .equal ∧
        (collectBounds indexed rest passed.length bounds).equal = some (before.length, c) ∧
        Passed indexed before (collectBounds indexed rest passed.length bounds)) ∨
      ((collectBounds indexed rest passed.length bounds).equal = none ∧
        Passed indexed (passed ++ rest) (collectBounds indexed rest passed.length bounds)) by
    exact h filters [] {} rfl ⟨fun _ h => absurd h not_mem_nil, fun _ h => absurd h not_mem_nil,
        fun _ h => absurd h not_mem_nil⟩
  intro rest
  induction rest with
  | nil =>
    intro passed bounds hequal hpassed
    rw [collectBounds, append_nil]
    exact .inr ⟨hequal, hpassed⟩
  | cons e rest ih =>
    intro passed bounds hequal hpassed
    rw [collectBounds]
    cases he : matchIndex indexed e with
    | none =>
      have hih := ih (passed ++ [e]) bounds hequal (hpassed.unmatched he)
      rwa [length_append, append_assoc] at hih
    | some c =>
      by_cases hc : c.type = .equal
      · left
        simp only [if_pos hc]
        exact ⟨passed, e, rest, c, rfl, he, hc, rfl, hpassed.equal, hpassed.low, hpassed.high⟩
      · have hmatched := hpassed.matched he (Bool.eq_false_of_not_eq_true (mt isEquality_iff.mp hc))
        simp only [if_neg hc]
        split
        next hlow =>
          rw [if_pos hlow] at hmatched
          have hih := ih (passed ++ [e]) { bounds with low := some (passed.length, c) } hequal hmatched
          rwa [length_append, append_assoc] at hih
        next hlow =>
          rw [if_neg hlow] at hmatched
          have hih := ih (passed ++ [e]) { bounds with high := some (passed.length, c) } hequal hmatched
          rwa [length_append, append_assoc] at hih

theorem filterMap_matchIndex_eq_nil (hequal : NoBound indexed isEquality filters)
    (hlow : NoBound indexed isLowerBound filters) (hhigh : NoBound indexed isUpperBound filters) :
    filters.filterMap (matchIndex indexed) = [] := by
  refine filterMap_eq_nil_iff.mpr fun e he => ?_
  cases hc : matchIndex indexed e with
  | none => rfl
  | some c =>
    have hupper := isUpperBound_eq (matchIndex_isIndexComparison hc) (hequal e he c hc)
      (hlow e he c hc)
    rw [hhigh e he c hc] at hupper
    cases hupper

/-! ### Erasing the bounds -/

/-- The erased filters are the comparisons that bound the scan. -/
def Enforces (filters : List (Expression V F)) (scan : PhysicalIndexScan V F)
    (remaining : List (Expression V F)) : Prop :=
  ∃ removed : List (Expression V F), (removed ++ remaining).Perm filters ∧
    removed.map (matchIndex scan.index.expression) = scan.predicates.map some

/-- The erased filters of a result are the comparisons that bound its scan. -/
def IndexScanResult.Enforces (filters : List (Expression V F)) : IndexScanResult V F → Prop
  | .unchanged => True
  | .replaced scan remaining => DuckDB.Enforces filters scan remaining
  | .erasedPastEnd => False

/-- The comparisons with the indexed expression, in the order of the filters, come in an order that
the erasures can deal with: an equality comes first; or there is none, and if an upper bound comes
last then there are only upper bounds. -/
def Enforceable (comparisons : List (IndexComparison V)) : Prop :=
  (∃ c, comparisons.head? = some c ∧ c.type.isEquality = true) ∨
  (∀ c ∈ comparisons, c.type.isEquality = false) ∧
    ∀ c, comparisons.getLast? = some c → c.type.isUpperBound = true →
      ∀ c' ∈ comparisons, c'.type.isUpperBound = true

omit [DecidableEq V] [DecidableEq F] in
theorem eraseBound_append {before after : List α} {e : α} {i : ℕ} (hi : before.length = i)
    (c : IndexComparison V) :
    eraseBound (some (i, c)) (before ++ e :: after) = some (before ++ after) := by
  subst hi
  rw [eraseBound, if_pos (by simp), eraseIdx_append_of_length_le le_rfl, Nat.sub_self,
    eraseIdx_cons_zero]

omit [DecidableEq V] in
theorem length_eraseBound {expressions erased : List α}
    (h : eraseBound bound expressions = some erased) :
    erased.length + bound.toList.length = expressions.length := by
  match bound with
  | none =>
    cases h
    rfl
  | some (i, c) =>
    rw [eraseBound] at h
    split at h
    next hi =>
      cases h
      rw [length_eraseIdx_of_lt hi]
      simp only [Option.toList_some, length_singleton]
      omega
    next => cases h

omit [DecidableEq V] [DecidableEq F] in
theorem replaceFilters_eq {filters afterEqual afterLow remaining : List (Expression V F)}
    (hequal : eraseBound bounds.equal filters = some afterEqual)
    (hlow : eraseBound bounds.low afterEqual = some afterLow)
    (hhigh : eraseBound bounds.high afterLow = some remaining) :
    replaceFilters index bounds filters =
      .replaced ⟨index, bounds.equal.map (·.2), bounds.low.map (·.2), bounds.high.map (·.2)⟩
        remaining := by
  simp only [replaceFilters, hequal, hlow, hhigh, Option.bind_eq_bind, Option.bind_some]

omit [DecidableEq V] [DecidableEq F] in
theorem PhysicalIndexScan.length_predicates (scan : PhysicalIndexScan V F)
    (h : scan.low.isSome = true ∨ scan.high.isSome = true) :
    scan.predicates.length = scan.low.toList.length + scan.high.toList.length := by
  obtain ⟨index, equal, low, high⟩ := scan
  cases low <;> cases high <;> first | rfl | simp at h

/-- An equality behind another bound is erased although the scan does not look at it. -/
theorem not_enforces_of_equal (hequal : bounds.equal.isSome = true)
    (hbound : bounds.low.isSome = true ∨ bounds.high.isSome = true) :
    ¬(replaceFilters index bounds filters).Enforces filters := by
  intro h
  rw [replaceFilters] at h
  split at h
  · exact h
  next remaining heq =>
    simp only [Option.bind_eq_bind, Option.bind_eq_some_iff] at heq
    obtain ⟨afterEqual, h₁, afterLow, h₂, h₃⟩ := heq
    obtain ⟨removed, hperm, hmap⟩ := h
    have hremoved := congrArg List.length hmap
    have hlength := hperm.length_eq
    rw [length_append] at hlength
    have := length_eraseBound h₁
    have := length_eraseBound h₂
    have := length_eraseBound h₃
    have hpredicates := length_predicates
      ⟨index, bounds.equal.map (·.2), bounds.low.map (·.2), bounds.high.map (·.2)⟩
      (by simpa using hbound)
    obtain ⟨equal, hequal⟩ := Option.isSome_iff_exists.mp hequal
    simp only [length_map, hpredicates, Option.toList_map] at hremoved
    simp only [hequal, Option.toList_some, length_singleton] at *
    omega

/-- A lower bound before the upper one is erased first, so that the filter behind the upper bound is
erased next. -/
theorem not_enforces_of_low_high {el eh : Expression V F} {low high : IndexComparison V}
    {before between after : List (Expression V F)} (hlow : low.type.isLowerBound = true)
    (hhigh : high.type.isUpperBound = true)
    (hlast : NoBound index.expression isLowerBound (between ++ eh :: after))
    (hlast' : NoBound index.expression isUpperBound after) :
    ¬(replaceFilters index
        ⟨none, some (before.length, low), some ((before ++ el :: between).length, high)⟩
        (before ++ el :: (between ++ eh :: after))).Enforces
      (before ++ el :: (between ++ eh :: after)) := by
  have hlength : (before ++ between ++ [eh]).length = (before ++ el :: between).length := by
    simp only [length_append, length_cons, length_nil]
    omega
  rw [replaceFilters]
  simp only [eraseBound_append rfl, Option.bind_eq_bind, Option.bind_some,
    show ∀ l : List (Expression V F), eraseBound (none : Option (BoundAt V)) l = some l from
      fun _ => rfl]
  cases after with
  | nil =>
    rw [eraseBound, if_neg]
    · exact fun h => h
    · simp only [length_append, length_cons, length_nil]
      omega
  | cons e after =>
    have hsplit : before ++ (between ++ eh :: e :: after) =
        (before ++ between ++ [eh]) ++ e :: after := by
      simp only [append_assoc, cons_append, nil_append]
    rw [hsplit, eraseBound_append hlength]
    rintro ⟨removed, hperm, hmap⟩
    -- the lower bound and the filter behind the upper bound were erased
    have hremoved : removed.Perm [el, e] := by
      refine (perm_append_right_iff (before ++ between ++ [eh] ++ after)).mp (hperm.trans ?_)
      refine perm_middle.trans (.cons el ?_)
      rw [← append_assoc, ← singleton_append, ← append_assoc]
      exact perm_middle
    have hmem : matchIndex index.expression e ∈ removed.map (matchIndex index.expression) :=
      mem_map_of_mem (hremoved.mem_iff.mpr (by simp))
    have hmatch : matchIndex index.expression e = some low ∨
        matchIndex index.expression e = some high := by
      rw [hmap] at hmem
      simpa [predicates] using hmem
    rcases hmatch with hmatch | hmatch
    · rw [hlast e (by simp) low hmatch] at hlow
      cases hlow
    · rw [hlast' e (by simp) high hmatch] at hhigh
      cases hhigh

/-! ### When the erasures are right -/

section Enforceable

variable {before after : List (Expression V F)}

theorem LastBound.exists_match {bound : Option (BoundAt V)}
    (h : LastBound indexed kind filters bound) (hbound : bound.isSome = true) :
    ∃ e ∈ filters, (matchIndex indexed e).isSome = true := by
  obtain ⟨⟨i, c⟩, rfl⟩ := Option.isSome_iff_exists.mp hbound
  obtain ⟨before, e, after, rfl, -, hc, -⟩ := h
  exact ⟨e, by simp, by rw [hc]; rfl⟩

theorem NoBound.mem (h : NoBound indexed kind filters)
    (hc : c ∈ filters.filterMap (matchIndex indexed)) : kind c.type = false := by
  obtain ⟨e, he, hec⟩ := mem_filterMap.mp hc
  exact h e he c hec

theorem enforces_iff_of_equal (he : matchIndex index.expression e = some c)
    (hc : c.type.isEquality = true) (hequal : bounds.equal = some (before.length, c))
    (hpassed : Passed index.expression before bounds) :
    (replaceFilters index bounds (before ++ e :: after)).Enforces (before ++ e :: after) ↔
      Enforceable ((before ++ e :: after).filterMap (matchIndex index.expression)) := by
  rw [filterMap_append, filterMap_cons_some he]
  by_cases hbound : bounds.low.isSome = true ∨ bounds.high.isSome = true
  · refine iff_of_false (not_enforces_of_equal (by rw [hequal]; rfl) hbound) ?_
    rintro (⟨c', hhead, hc'⟩ | ⟨hnone, -⟩)
    · -- the first comparison is before the equality
      cases hcomparisons : before.filterMap (matchIndex index.expression) with
      | nil =>
        obtain ⟨e, he, hmatch⟩ := hbound.elim hpassed.low.exists_match hpassed.high.exists_match
        rw [filterMap_eq_nil_iff.mp hcomparisons e he] at hmatch
        cases hmatch
      | cons first rest =>
        rw [hcomparisons, cons_append, head?_cons, Option.some.injEq] at hhead
        subst hhead
        rw [hpassed.equal.mem (by rw [hcomparisons]; exact mem_cons_self)] at hc'
        cases hc'
    · rw [hnone c (by simp)] at hc
      cases hc
  · have hlow : bounds.low = none := by
      rw [← Option.not_isSome_iff_eq_none]
      exact fun h => hbound (.inl h)
    have hhigh : bounds.high = none := by
      rw [← Option.not_isSome_iff_eq_none]
      exact fun h => hbound (.inr h)
    have hnoLow := hpassed.low
    have hnoHigh := hpassed.high
    rw [hlow] at hnoLow
    rw [hhigh] at hnoHigh
    refine iff_of_true ?_ (.inl ⟨c, ?_, hc⟩)
    · have h₁ : eraseBound bounds.equal (before ++ e :: after) = some (before ++ after) := by
        rw [hequal]
        exact eraseBound_append rfl c
      have h₂ : eraseBound bounds.low (before ++ after) = some (before ++ after) := by
        rw [hlow]
        rfl
      have h₃ : eraseBound bounds.high (before ++ after) = some (before ++ after) := by
        rw [hhigh]
        rfl
      rw [replaceFilters_eq h₁ h₂ h₃]
      refine ⟨[e], by rw [singleton_append]; exact perm_middle.symm, ?_⟩
      rw [hequal, hlow, hhigh]
      simp [predicates, he]
    · rw [filterMap_matchIndex_eq_nil hpassed.equal hnoLow hnoHigh]
      rfl

theorem getLast?_comparisons (he : matchIndex indexed e = some c)
    (hafter : after.filterMap (matchIndex indexed) = []) :
    ((before ++ e :: after).filterMap (matchIndex indexed)).getLast? = some c := by
  rw [filterMap_append, filterMap_cons_some he, hafter, getLast?_concat]

theorem enforces_of_single {i : ℕ} (hi : before.length = i)
    (he : matchIndex index.expression e = some c)
    (hbounds : bounds = ⟨none, some (i, c), none⟩ ∨ bounds = ⟨none, none, some (i, c)⟩) :
    (replaceFilters index bounds (before ++ e :: after)).Enforces (before ++ e :: after) := by
  have hremoved : ([e] ++ (before ++ after)).Perm (before ++ e :: after) := by
    rw [singleton_append]
    exact perm_middle.symm
  rcases hbounds with rfl | rfl
  · rw [replaceFilters_eq rfl (eraseBound_append hi c) rfl]
    exact ⟨[e], hremoved, by simp [predicates, he]⟩
  · rw [replaceFilters_eq rfl rfl (eraseBound_append hi c)]
    exact ⟨[e], hremoved, by simp [predicates, he]⟩

/-- An upper bound before the lower one keeps its position when that one is erased. -/
theorem enforces_of_high_low {el eh : Expression V F} {low high : IndexComparison V}
    {between : List (Expression V F)} (hlow : matchIndex index.expression el = some low)
    (hhigh : matchIndex index.expression eh = some high) :
    (replaceFilters index
        ⟨none, some ((before ++ eh :: between).length, low), some (before.length, high)⟩
        (before ++ eh :: (between ++ el :: after))).Enforces
      (before ++ eh :: (between ++ el :: after)) := by
  have hsplit : before ++ eh :: (between ++ el :: after) =
      (before ++ eh :: between) ++ el :: after := by
    rw [append_assoc, cons_append]
  have h₂ : eraseBound (some ((before ++ eh :: between).length, low))
      (before ++ eh :: (between ++ el :: after)) = some (before ++ eh :: (between ++ after)) := by
    rw [hsplit, eraseBound_append rfl, append_assoc, cons_append]
  rw [replaceFilters_eq rfl h₂ (eraseBound_append rfl high)]
  refine ⟨[el, eh], ?_, by simp [predicates, hlow, hhigh]⟩
  rw [hsplit]
  refine .trans (.cons el ?_) perm_middle.symm
  rw [append_assoc, cons_append]
  show (eh :: (before ++ (between ++ after))).Perm (before ++ eh :: (between ++ after))
  exact perm_middle.symm

theorem enforces_iff_of_none (hequal : bounds.equal = none)
    (hpassed : Passed index.expression filters bounds)
    (hbound : bounds.low.isSome = true ∨ bounds.high.isSome = true) :
    (replaceFilters index bounds filters).Enforces filters ↔
      Enforceable (filters.filterMap (matchIndex index.expression)) := by
  obtain ⟨equal, low, high⟩ := bounds
  obtain ⟨hnoEqual, hlow, hhigh⟩ := hpassed
  subst hequal
  have hnone : ∀ c ∈ filters.filterMap (matchIndex index.expression), c.type.isEquality = false :=
    fun c hc => hnoEqual.mem hc
  have hiff : Enforceable (filters.filterMap (matchIndex index.expression)) ↔
      ∀ c, (filters.filterMap (matchIndex index.expression)).getLast? = some c →
        c.type.isUpperBound = true →
        ∀ c' ∈ filters.filterMap (matchIndex index.expression), c'.type.isUpperBound = true := by
    refine ⟨?_, fun h => .inr ⟨hnone, h⟩⟩
    rintro (⟨c, hhead, hc⟩ | ⟨-, h⟩)
    · rw [hnone c (mem_of_head? hhead)] at hc
      cases hc
    · exact h
  rw [hiff]
  match low, high, hlow, hhigh with
  | none, none, _, _ => simp at hbound
  | some (i, low), none, ⟨before, el, after, hfilters, hi, hel, hlowKind, _⟩, hhigh =>
    refine iff_of_true ?_ fun c hlast hc => ?_
    · rw [hfilters]
      exact enforces_of_single hi hel (.inl rfl)
    · rw [hhigh.mem (mem_of_getLast? hlast)] at hc
      cases hc
  | none, some (i, high), hlow, ⟨before, eh, after, hfilters, hi, heh, hhighKind, _⟩ =>
    refine iff_of_true ?_ fun c _ _ c' hc' => ?_
    · rw [hfilters]
      exact enforces_of_single hi heh (.inr rfl)
    · obtain ⟨e, -, he⟩ := mem_filterMap.mp hc'
      exact isUpperBound_eq (matchIndex_isIndexComparison he) (hnone c' hc') (hlow.mem hc')
  | some (i, low), some (j, high), ⟨before, el, after, hfilters, hi, hel, hlowKind, hlowLast⟩,
      ⟨before', eh, after', hfilters', hj, heh, hhighKind, hhighLast⟩ =>
    have hne : el ≠ eh := by
      rintro rfl
      obtain rfl := Option.some.inj (hel.symm.trans heh)
      rw [not_isUpperBound hlowKind] at hhighKind
      cases hhighKind
    rcases append_eq_append_iff.mp (hfilters.symm.trans hfilters') with
      ⟨between, hbefore, hrest⟩ | ⟨between, hbefore, hrest⟩
    · -- the lower bound comes first
      cases between with
      | nil => exact absurd (List.cons.inj hrest).1 hne
      | cons e between =>
        obtain ⟨rfl, hafter⟩ := List.cons.inj hrest
        subst hi hj
        subst hbefore
        rw [hafter] at hfilters hlowLast
        refine iff_of_false ?_ fun h => ?_
        · rw [hfilters]
          exact not_enforces_of_low_high hlowKind hhighKind hlowLast hhighLast
        · -- the last comparison is the upper bound
          have hnil : after'.filterMap (matchIndex index.expression) = [] :=
            filterMap_matchIndex_eq_nil (fun e he => hnoEqual e (by rw [hfilters]; simp [he]))
              (fun e he => hlowLast e (by simp [he])) hhighLast
          have hlast : (filters.filterMap (matchIndex index.expression)).getLast? = some high := by
            rw [hfilters']
            exact getLast?_comparisons heh hnil
          have hupper := h high hlast hhighKind low
            (mem_filterMap.mpr ⟨el, by rw [hfilters]; simp, hel⟩)
          rw [not_isUpperBound hlowKind] at hupper
          cases hupper
    · cases between with
      | nil => exact absurd (List.cons.inj hrest).1.symm hne
      | cons e between =>
        obtain ⟨rfl, hafter⟩ := List.cons.inj hrest
        subst hi hj
        subst hbefore
        rw [hafter] at hfilters' hhighLast
        refine iff_of_true ?_ fun c hlast hc => ?_
        · rw [hfilters']
          exact enforces_of_high_low hel heh
        · -- the last comparison is the lower bound
          have hnil : after.filterMap (matchIndex index.expression) = [] :=
            filterMap_matchIndex_eq_nil
              (fun e he => hnoEqual e (by rw [hfilters']; simp [he])) hlowLast
              (fun e he => hhighLast e (by simp [he]))
          rw [hfilters, getLast?_comparisons hel hnil] at hlast
          obtain rfl := Option.some.inj hlast
          rw [not_isUpperBound hlowKind] at hc
          cases hc

/-- No filter compares the indexed expression with a constant exactly if the loop finds nothing. -/
theorem collectBounds_isSome_iff :
    ((collectBounds indexed filters 0 {}).equal.isSome ||
      (collectBounds indexed filters 0 {}).low.isSome ||
      (collectBounds indexed filters 0 {}).high.isSome) =
    filters.any fun e => (matchIndex indexed e).isSome := by
  rw [Bool.eq_iff_iff, any_eq_true]
  simp only [Bool.or_eq_true]
  rcases collectBounds_cases indexed filters with
    ⟨before, e, after, c, hfilters, he, -, hequal, -⟩ | ⟨hequal, hpassed⟩
  · refine iff_of_true (.inl (.inl (by rw [hequal]; rfl))) ⟨e, ?_, by rw [he]; rfl⟩
    rw [hfilters]
    simp
  · rw [hequal, Option.isSome_none]
    constructor
    · rintro ((h | h) | h)
      · cases h
      · exact hpassed.low.exists_match h
      · exact hpassed.high.exists_match h
    · rintro ⟨e, he, hc⟩
      by_contra hnone
      have hlow : (collectBounds indexed filters 0 {}).low = none :=
        Option.not_isSome_iff_eq_none.mp fun h => hnone (.inl (.inr h))
      have hhigh : (collectBounds indexed filters 0 {}).high = none :=
        Option.not_isSome_iff_eq_none.mp fun h => hnone (.inr h)
      have hnoLow := hpassed.low
      have hnoHigh := hpassed.high
      rw [hlow] at hnoLow
      rw [hhigh] at hnoHigh
      have hnil := filterMap_matchIndex_eq_nil hpassed.equal hnoLow hnoHigh
      rw [filterMap_eq_nil_iff.mp hnil e he] at hc
      cases hc

/-- The erasures for the index that is used. -/
theorem enforces_iff (h : filters.any (fun e => (matchIndex index.expression e).isSome) = true) :
    (replaceFilters index (collectBounds index.expression filters 0 {}) filters).Enforces filters ↔
      Enforceable (filters.filterMap (matchIndex index.expression)) := by
  rcases collectBounds_cases index.expression filters with
    ⟨before, e, after, c, hfilters, he, hc, hequal, hpassed⟩ | ⟨hequal, hpassed⟩
  · generalize collectBounds index.expression filters 0 {} = bounds at *
    subst hfilters
    exact enforces_iff_of_equal he (isEquality_iff.mpr hc) hequal hpassed
  · rw [← collectBounds_isSome_iff, hequal] at h
    exact enforces_iff_of_none hequal hpassed (by simpa using h)

end Enforceable

/-! ### The rewrite -/

section Rewrite

variable {V F : Type*} [Payload V] [DecidableEq F]

/-- The column of the table at the position of the indexed column is the same for the scan and for
the index. -/
def SameColumn (columnIds : List ℕ) : IndexScanResult V F → Prop
  | .replaced scan _ => columnIds[0]? = scan.index.columnIds[0]?
  | _ => True

/-- The erased filters are the comparisons that bound the scan, on the same column of the table, and
a row of the table passes all filters exactly if the scan returns it and it passes the remaining
ones. -/
def RewriteCorrect (columnIds : List ℕ) (filters : List (Expression V F))
    (result : IndexScanResult V F) : Prop :=
  result.Enforces filters ∧ SameColumn columnIds result ∧
    ∀ scan remaining, result = .replaced scan remaining →
      ∀ (ctx : Context V F) (tuple : ℕ → Option V),
        (scan.passes ctx tuple ∧ ∀ e ∈ remaining, e.passes ctx (chunkRow columnIds tuple)) ↔
          ∀ e ∈ filters, e.passes ctx (chunkRow columnIds tuple)

variable {scan : PhysicalIndexScan V F} {columnIds : List ℕ}

/-- If the right filters were erased then the scan and the remaining ones are equivalent to all. -/
theorem passes_iff_of_enforces {column : ℕ} {filters remaining : List (Expression V F)}
    (hindex : scan.index = .onColumn column) (hcolumn : columnIds[0]? = some column)
    (h : Enforces filters scan remaining) (ctx : Context V F) (tuple : ℕ → Option V) :
    (scan.passes ctx tuple ∧ ∀ e ∈ remaining, e.passes ctx (chunkRow columnIds tuple)) ↔
      ∀ e ∈ filters, e.passes ctx (chunkRow columnIds tuple) := by
  obtain ⟨removed, hperm, hmap⟩ := h
  rw [hindex] at hmap
  -- the index and the filters read the same column
  have hvalue : scan.index.expression.eval ctx (chunkRow scan.index.columnIds tuple) =
      chunkRow columnIds tuple ⟨0, 0⟩ := by
    simp [hindex, TableIndex.onColumn, Expression.reference, Expression.eval, chunkRow, hcolumn]
  have hscan : scan.passes ctx tuple ↔ ∀ e ∈ removed, e.passes ctx (chunkRow columnIds tuple) := by
    rw [passes, hvalue]
    constructor
    · intro hpasses e he
      have hmem : matchIndex (.reference 0) e ∈ scan.predicates.map some := by
        rw [← hmap]
        exact mem_map_of_mem he
      obtain ⟨c, hc, hmatch⟩ := mem_map.mp hmem
      exact (passes_iff_of_matchIndex ctx _ hmatch.symm).mpr (hpasses c hc)
    · intro hpasses c hc
      have hmem : some c ∈ removed.map (matchIndex (.reference 0)) := by
        rw [show removed.map (matchIndex (.reference 0)) = _ from hmap]
        exact mem_map_of_mem hc
      obtain ⟨e, he, hmatch⟩ := mem_map.mp hmem
      exact (passes_iff_of_matchIndex ctx _ hmatch).mp (hpasses e he)
  rw [hscan, ← forall_mem_append]
  exact forall_congr' fun e => by rw [hperm.mem_iff]

/-- All indexes on columns have the same expression: the first one is used if a filter matches. -/
theorem createIndexScan_onColumn {columns : List ℕ} {filters : List (Expression V F)} :
    createIndexScan (columns.map .onColumn) filters =
      match columns.head?, filters.any fun e => (matchIndex (.reference 0) e).isSome with
      | some column, true =>
        replaceFilters (.onColumn column) (collectBounds (.reference 0) filters 0 {}) filters
      | _, _ => .unchanged := by
  induction columns with
  | nil => rfl
  | cons column columns ih =>
    rw [map_cons, createIndexScan]
    simp only [collectBounds_isSome_iff, head?_cons]
    rw [show (TableIndex.onColumn column : TableIndex V F).expression = .reference 0 from rfl]
    cases hany : filters.any fun e => (matchIndex (.reference 0) e).isSome with
    | true => rfl
    | false =>
      rw [if_neg Bool.false_ne_true, ih, hany]
      cases columns <;> rfl

omit [Payload V] [DecidableEq F] in
theorem index_of_replaceFilters {index : TableIndex V F} {bounds : IndexBounds V}
    {filters remaining : List (Expression V F)}
    (h : replaceFilters index bounds filters = .replaced scan remaining) :
    scan.index = index := by
  rw [replaceFilters] at h
  split at h
  · cases h
  · cases h
    rfl

/-- **Filters as index scans**: with indexes on columns, the rewrite is correct exactly if the first
index is not used, or if it is an index on the column that the scan reads first and the comparisons
of the filters with that column come in a suitable order. -/
theorem rewriteCorrect_iff (columns columnIds : List ℕ) (filters : List (Expression V F)) :
    RewriteCorrect columnIds filters (createIndexScan (columns.map .onColumn) filters) ↔
      ∀ column, columns.head? = some column →
        filters.any (fun e => (matchIndex (.reference 0) e).isSome) = true →
        columnIds[0]? = some column ∧
          Enforceable (filters.filterMap (matchIndex (.reference 0))) := by
  rw [createIndexScan_onColumn]
  cases hhead : columns.head? with
  | none => exact iff_of_true ⟨trivial, trivial, fun _ _ h => by cases h⟩ fun _ h => by cases h
  | some column =>
    cases hany : filters.any fun e => (matchIndex (.reference 0) e).isSome with
    | false => exact iff_of_true ⟨trivial, trivial, fun _ _ h => by cases h⟩ fun _ _ h => by cases h
    | true =>
      have henforces : (replaceFilters (.onColumn column)
          (collectBounds (.reference 0) filters 0 {}) filters).Enforces filters ↔
          Enforceable (filters.filterMap (matchIndex (.reference 0))) :=
        enforces_iff hany
      simp only [Option.some.injEq, forall_eq', forall_const]
      rw [← henforces]
      constructor
      · rintro ⟨h, hsame, -⟩
        refine ⟨?_, h⟩
        cases hresult : replaceFilters (.onColumn column)
            (collectBounds (.reference 0) filters 0 {}) filters with
        | replaced scan remaining =>
          rw [hresult] at hsame
          rw [hsame, index_of_replaceFilters hresult]
          rfl
        | unchanged =>
          rw [replaceFilters] at hresult
          split at hresult <;> cases hresult
        | erasedPastEnd =>
          rw [hresult] at h
          exact h.elim
      · rintro ⟨hcolumn, h⟩
        refine ⟨h, ?_, fun scan remaining heq => ?_⟩
        · cases hresult : replaceFilters (.onColumn column)
              (collectBounds (.reference 0) filters 0 {}) filters with
          | replaced scan remaining =>
            rw [SameColumn, index_of_replaceFilters hresult, hcolumn]
            rfl
          | _ => trivial
        · rw [heq] at h
          exact passes_iff_of_enforces (index_of_replaceFilters heq) hcolumn h

/-- Three filters on the columns 0 and 1: a lower bound and an upper bound of the indexed column 0,
then an equality on the other column. -/
def rangeFilters : List (Expression ℤ Empty) :=
  [.comparison .greaterThan (.reference 0) (.constant (some 1)),
   .comparison .lessThan (.reference 0) (.constant (some 5)),
   .comparison .equal (.reference 1) (.constant (some 7))]

/-- The filter on the other column is erased in place of the upper bound. A scan that reads the
column 1 first uses the index on the column 0 for its filters. -/
theorem not_rewriteCorrect_rangeFilters :
    ¬RewriteCorrect [0, 1] rangeFilters (createIndexScan [.onColumn 0] rangeFilters) ∧
      ¬RewriteCorrect [1] (rangeFilters.take 1)
        (createIndexScan [.onColumn 0] (rangeFilters.take 1)) := by
  let ctx : Context ℤ Empty := ⟨fun _ => none, fun _ _ => none, nofun, fun _ _ => some, fun _ _ => true,
    fun _ _ _ => none⟩
  constructor
  · rintro ⟨-, -, h⟩
    -- the row has the value 2 in both columns
    have hrow := (h _ _ rfl ctx fun _ => some 2).mp
    have hall := hrow ⟨by decide, by decide⟩
    exact absurd (hall (.comparison .equal (.reference 1) (.constant (some 7)))
      (by simp [rangeFilters])) (by decide)
  · rintro ⟨-, -, h⟩
    -- the row has the value 2 in the column 0 and the value 0 in the column 1
    have hrow := (h _ _ rfl ctx fun column => if column = 0 then some 2 else some 0).mp
    have hall := hrow ⟨by decide, by decide⟩
    exact absurd (hall (.comparison .greaterThan (.reference 0) (.constant (some 1)))
      (by simp [rangeFilters])) (by decide)

end Rewrite

end DuckDB
