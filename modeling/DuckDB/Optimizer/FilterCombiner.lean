import DuckDB.Planner.Expression

/-!
# Pruning constant comparisons

`FilterCombiner` keeps a list of the comparisons of one expression with constants; a comparison that
follows from another one is left out (`optimizer/filter_combiner.cpp`).

* `sound_compareValueInformation`: what is pruned follows from what is kept.
* `addConstantComparisons_spec`: the list that is kept says the same as all comparisons.
-/

namespace DuckDB.FilterCombiner

open ComparisonType List

/-- `enum class ValueComparisonResult`. -/
inductive ValueComparisonResult where
  | pruneLeft
  | pruneRight
  | unsatisfiableCondition
  | pruneNothing

/-- `enum class FilterResult`, without UNSUPPORTED. -/
inductive FilterResult where
  | unsatisfiable
  | success

variable {V : Type*}

/-- `struct ExpressionValueInformation`: the asserts of the source leave six comparisons. -/
structure ExpressionValueInformation (V : Type*) where
  constant : V
  comparisonType : ComparisonType
  isOrder : comparisonType.isOrder = true

/-- `InvertValueComparisonResult`. -/
def ValueComparisonResult.invert : ValueComparisonResult → ValueComparisonResult
  | .pruneRight => .pruneLeft
  | .pruneLeft => .pruneRight
  | result => result

def isGreaterThan (type : ComparisonType) : Bool :=
  type = .greaterThan ∨ type = .greaterThanOrEqualTo

def isLessThan (type : ComparisonType) : Bool :=
  type = .lessThan ∨ type = .lessThanOrEqualTo

/-- What a result says about the values that satisfy both sides. -/
def ValueComparisonResult.Sound (p q : V → Prop) : ValueComparisonResult → Prop
  | .pruneLeft => ∀ v, q v → p v
  | .pruneRight => ∀ v, p v → q v
  | .unsatisfiableCondition => ∀ v, p v → ¬q v
  | .pruneNothing => True

theorem ValueComparisonResult.Sound.invert {p q : V → Prop} {result : ValueComparisonResult}
    (h : result.Sound p q) : result.invert.Sound q p := by
  cases result with
  | unsatisfiableCondition => exact fun v hq hp => h v hp hq
  | _ => exact h

variable [LinearOrder V]

/-- The comparison with the constant. -/
def ExpressionValueInformation.Holds (info : ExpressionValueInformation V) (v : V) : Prop :=
  match info.comparisonType with
  | .equal => v = info.constant
  | .notEqual => v ≠ info.constant
  | .lessThan => v < info.constant
  | .greaterThan => info.constant < v
  | .lessThanOrEqualTo => v ≤ info.constant
  | _ => info.constant ≤ v

/-- The left side is COMPARE_EQUAL. -/
def compareEqual (left right : ExpressionValueInformation V) : ValueComparisonResult :=
  let pruneRightSide : Bool :=
    match right.comparisonType with
    | .lessThan => left.constant < right.constant
    | .lessThanOrEqualTo => left.constant ≤ right.constant
    | .greaterThan => right.constant < left.constant
    | .greaterThanOrEqualTo => right.constant ≤ left.constant
    | .notEqual => left.constant ≠ right.constant
    | _ => left.constant = right.constant
  if pruneRightSide then .pruneRight else .unsatisfiableCondition

/-- The left side is COMPARE_NOTEQUAL. -/
def compareNotEqual (left right : ExpressionValueInformation V) : ValueComparisonResult :=
  let pruneLeftSide : Bool :=
    match right.comparisonType with
    | .lessThan => right.constant ≤ left.constant
    | .lessThanOrEqualTo => right.constant < left.constant
    | .greaterThan => left.constant ≤ right.constant
    | .greaterThanOrEqualTo => left.constant < right.constant
    | _ => left.constant = right.constant
  if pruneLeftSide then .pruneLeft else .pruneNothing

/-- `[<]` or `[<=]` on the left side, `[>]` or `[>=]` on the right side. -/
def compareLessGreater (left right : ExpressionValueInformation V) : ValueComparisonResult :=
  if right.constant ≤ left.constant then .pruneNothing else .unsatisfiableCondition

/-- `CompareValueInformation`; a call with the sides swapped ends in one of the three branches
above. -/
def compareValueInformation (left right : ExpressionValueInformation V) : ValueComparisonResult :=
  if left.comparisonType = .equal then compareEqual left right
  else if right.comparisonType = .equal then (compareEqual right left).invert
  else if left.comparisonType = .notEqual then compareNotEqual left right
  else if right.comparisonType = .notEqual then (compareNotEqual right left).invert
  else if isGreaterThan left.comparisonType ∧ isGreaterThan right.comparisonType then
    if right.constant < left.constant then .pruneRight
    else if left.constant < right.constant then .pruneLeft
    else if left.comparisonType = .greaterThanOrEqualTo then .pruneLeft
    else .pruneRight
  else if isLessThan left.comparisonType ∧ isLessThan right.comparisonType then
    if left.constant < right.constant then .pruneRight
    else if right.constant < left.constant then .pruneLeft
    else if left.comparisonType = .lessThanOrEqualTo then .pruneLeft
    else .pruneRight
  else if isLessThan left.comparisonType then compareLessGreater left right
  else (compareLessGreater right left).invert

/-- The loop of `AddConstantComparison`: the entries of the list that it has passed and kept, and
those in front of it. -/
def addLoop (info : ExpressionValueInformation V) :
    List (ExpressionValueInformation V) → List (ExpressionValueInformation V) →
      FilterResult × List (ExpressionValueInformation V)
  | passed, [] => (.success, passed ++ [info])
  | passed, entry :: rest =>
    match compareValueInformation entry info with
    | .pruneLeft => addLoop info passed rest
    | .pruneRight => (.success, passed ++ entry :: rest)
    | .unsatisfiableCondition => (.unsatisfiable, passed ++ entry :: rest)
    | .pruneNothing => addLoop info (passed ++ [entry]) rest

/-- `AddConstantComparison` for one comparison after the other. -/
def addConstantComparisons : List (ExpressionValueInformation V) →
    List (ExpressionValueInformation V) → FilterResult × List (ExpressionValueInformation V)
  | infoList, [] => (.success, infoList)
  | infoList, info :: infos =>
    match addLoop info [] infoList with
    | (.success, infoList) => addConstantComparisons infoList infos
    | (.unsatisfiable, infoList) => (.unsatisfiable, infoList)

/-! ### What is pruned -/

variable {left right : ExpressionValueInformation V}

open ExpressionValueInformation ValueComparisonResult

theorem sound_compareEqual (h : left.comparisonType = .equal) :
    (compareEqual left right).Sound left.Holds right.Holds := by
  obtain ⟨c, type, horder⟩ := right
  unfold compareEqual
  cases type with
  | like | notLike | distinctFrom => exact absurd horder (by decide)
  | _ =>
    dsimp only
    split_ifs <;> simp_all [Sound, Holds]

theorem sound_compareNotEqual (h : left.comparisonType = .notEqual)
    (hne : right.comparisonType ≠ .equal) :
    (compareNotEqual left right).Sound left.Holds right.Holds := by
  obtain ⟨c, type, horder⟩ := right
  unfold compareNotEqual
  cases type with
  | like | notLike | distinctFrom => exact absurd horder (by decide)
  | equal => exact absurd rfl hne
  | _ =>
    dsimp only
    split_ifs
    · simp_all only [Sound, Holds, decide_eq_true_eq]
      grind
    · trivial

theorem holds_iff_of_isGreaterThan (h : isGreaterThan left.comparisonType) {v : V} : left.Holds v ↔
      left.constant < v ∨ left.comparisonType = .greaterThanOrEqualTo ∧ left.constant = v := by
  simp only [isGreaterThan, decide_eq_true_eq] at h
  rcases h with h | h
  · simp [Holds, h]
  · simp [Holds, h, le_iff_lt_or_eq]

theorem holds_iff_of_isLessThan (h : isLessThan left.comparisonType) {v : V} : left.Holds v ↔
      v < left.constant ∨ left.comparisonType = .lessThanOrEqualTo ∧ v = left.constant := by
  simp only [isLessThan, decide_eq_true_eq] at h
  rcases h with h | h
  · simp [Holds, h]
  · simp [Holds, h, le_iff_lt_or_eq]

theorem sound_compareLessGreater (hleft : isLessThan left.comparisonType)
    (hright : isGreaterThan right.comparisonType) :
    (compareLessGreater left right).Sound left.Holds right.Holds := by
  unfold compareLessGreater
  split_ifs with hle
  · trivial
  · intro v
    rw [holds_iff_of_isLessThan hleft, holds_iff_of_isGreaterThan hright]
    grind

/-- A comparison that is neither `[=]` nor `[!=]` is a bound. -/
theorem isLessThan_of_not_isGreaterThan {type : ComparisonType} (horder : type.isOrder = true)
    (hequal : type ≠ .equal) (hne : type ≠ .notEqual) (h : ¬isGreaterThan type) :
    isLessThan type := by
  revert horder hequal hne h
  cases type <;> decide

/-- **What is pruned follows from what is kept.** -/
theorem sound_compareValueInformation (left right : ExpressionValueInformation V) :
    (compareValueInformation left right).Sound left.Holds right.Holds := by
  have hleft := isLessThan_of_not_isGreaterThan left.isOrder
  have hright := isLessThan_of_not_isGreaterThan right.isOrder
  unfold compareValueInformation
  split_ifs with hl hr hl' hr' hgreater _ _ _ hless _ _ _ hl''
  · exact sound_compareEqual hl
  · exact (sound_compareEqual hr).invert
  · exact sound_compareNotEqual hl' hr
  · exact (sound_compareNotEqual hr' hl).invert
  iterate 4
    · intro v
      rw [holds_iff_of_isGreaterThan hgreater.1, holds_iff_of_isGreaterThan hgreater.2]
      grind
  iterate 4
    · intro v
      rw [holds_iff_of_isLessThan hless.1, holds_iff_of_isLessThan hless.2]
      grind
  · exact sound_compareLessGreater hl'' (by grind)
  · exact (sound_compareLessGreater (by grind) (by grind)).invert

/-! ### The list -/

/-- The comparisons hold for the value. -/
def AllHold (infos : List (ExpressionValueInformation V)) (v : V) : Prop :=
  ∀ info ∈ infos, info.Holds v

/-- A result says the same as the comparisons. -/
def Says (infos : List (ExpressionValueInformation V)) :
    FilterResult × List (ExpressionValueInformation V) → Prop
  | (.success, infoList) => ∀ v, AllHold infoList v ↔ AllHold infos v
  | (.unsatisfiable, _) => ∀ v, ¬AllHold infos v

variable {infos infos' : List (ExpressionValueInformation V)}

theorem Says.congr {result : FilterResult × List (ExpressionValueInformation V)}
    (h : Says infos result) (hsame : ∀ v, AllHold infos v ↔ AllHold infos' v) :
    Says infos' result := by
  obtain ⟨_ | _, infoList⟩ := result
  · exact fun v hv => h v ((hsame v).2 hv)
  · exact fun v => (h v).trans (hsame v)

theorem says_addLoop (info : ExpressionValueInformation V)
    (passed rest : List (ExpressionValueInformation V)) :
    Says (passed ++ info :: rest) (addLoop info passed rest) := by
  induction rest generalizing passed with
  | nil => exact fun v => Iff.rfl
  | cons entry rest ih =>
    have hsound := sound_compareValueInformation entry info
    rw [addLoop]
    cases hresult : compareValueInformation entry info with
    | pruneLeft =>
      rw [hresult] at hsound
      refine (ih passed).congr fun v => ?_
      simp only [AllHold, forall_mem_append, forall_mem_cons]
      have hentry := hsound v
      tauto
    | pruneRight | unsatisfiableCondition =>
      rw [hresult] at hsound
      intro v
      simp only [AllHold, forall_mem_append, forall_mem_cons]
      have hinfo := hsound v
      tauto
    | pruneNothing =>
      refine (ih (passed ++ [entry])).congr fun v => ?_
      simp only [AllHold, forall_mem_append, forall_mem_cons]
      tauto

theorem says_addConstantComparisons (infoList infos : List (ExpressionValueInformation V)) :
    Says (infoList ++ infos) (addConstantComparisons infoList infos) := by
  induction infos generalizing infoList with
  | nil =>
    rw [append_nil]
    exact fun v => Iff.rfl
  | cons info infos ih =>
    have hloop := says_addLoop info [] infoList
    rw [addConstantComparisons]
    generalize addLoop info [] infoList = result at hloop ⊢
    obtain ⟨_ | _, infoList'⟩ := result
    · intro v hv
      refine hloop v ?_
      simp only [AllHold, forall_mem_append, forall_mem_cons, nil_append] at hv ⊢
      tauto
    · refine (ih infoList').congr fun v => ?_
      have hlist := hloop v
      simp only [AllHold, forall_mem_append, forall_mem_cons, nil_append] at hlist ⊢
      tauto

/-- **Constant comparisons**: the list that is kept holds for the values for which all comparisons
hold, and they are given up only if there is no such value. -/
theorem addConstantComparisons_spec (infos : List (ExpressionValueInformation V)) :
    Says infos (addConstantComparisons [] infos) :=
  says_addConstantComparisons [] infos

end DuckDB.FilterCombiner
