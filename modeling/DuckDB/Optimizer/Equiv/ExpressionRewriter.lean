import DuckDB.Optimizer.ExpressionRewriter

/-!
# The expression rewriter stops

Every rule that does something makes the expression lighter, at whatever node it is applied. A
constant weighs one and every other node two, so that folding a single node counts as well.

* `rewriteLoop_stops`: the loop over an expression stops, and the number of rules that it applies is
  at most the weight of the expression.
-/

namespace DuckDB

open List RewriteExpression

variable {V D : Type}

/-! ### Weights -/

/-- The weight of a node without its children. -/
def ExpressionLabel.weight : ExpressionLabel V D → ℕ
  | .constant _ => 1
  | _ => 2

namespace RewriteExpression

mutual

/-- The weight of an expression. -/
def weight : RewriteExpression V D → ℕ
  | node label _ children => label.weight + weightList children

/-- The weight of a list of expressions. -/
def weightList : List (RewriteExpression V D) → ℕ
  | [] => 0
  | e :: es => e.weight + weightList es

end

theorem weight_pos (e : RewriteExpression V D) : 0 < e.weight := by
  obtain ⟨label, returnType, children⟩ := e
  cases label <;> simp only [weight, ExpressionLabel.weight] <;> omega

variable {e : RewriteExpression V D}

theorem two_le_weight (h : e.constant? = none) : 2 ≤ e.weight := by
  obtain ⟨label, returnType, children⟩ := e
  cases label <;> simp [constant?] at h <;> simp only [weight, ExpressionLabel.weight] <;> omega

@[simp] theorem weight_ofValue {type : TypeId} {value : Option V} :
    (ofValue type value : RewriteExpression V D).weight = 1 := by
  simp [ofValue, weight, weightList, ExpressionLabel.weight]

theorem weight_le_weightList {es : List (RewriteExpression V D)} (h : e ∈ es) :
    e.weight ≤ weightList es := by
  induction es with
  | nil => simp at h
  | cons e' es ih =>
    rw [weightList]
    rcases mem_cons.1 h with rfl | hmem
    · omega
    · have := ih hmem
      omega

theorem weight_lt_of_mem {label : ExpressionLabel V D} {returnType : TypeId}
    {children : List (RewriteExpression V D)} (h : e ∈ children) :
    e.weight < (node label returnType children).weight := by
  have hle := weight_le_weightList h
  have hlabel : 0 < label.weight := by cases label <;> simp [ExpressionLabel.weight]
  rw [weight]
  omega

theorem weight_withConstant (h : e.constant?.isSome) (value : Option V) :
    (e.withConstant value).weight = e.weight := by
  obtain ⟨label, returnType, children⟩ := e
  cases label <;> simp [constant?] at h
  simp [withConstant, weight, ExpressionLabel.weight]

end RewriteExpression

namespace ExpressionRewriter

variable {entries : List (Gathered V D)} {left right : RewriteExpression V D}

/-- What a rule makes of an expression is lighter. -/
def Lighter (e : RewriteExpression V D) : RuleResult V D → Prop
  | .replaced e' => e'.weight < e.weight
  | .changed e' => e'.weight < e.weight
  | .unchanged => True

variable {ctx : RewriterContext V D} {e : RewriteExpression V D} {result : RuleResult V D}
  {type : ConjunctionType} {others others' : List (List (Gathered V D))}
  {es : List (RewriteExpression V D)}
  {arithmetic : OperatorType × List (RewriteExpression V D) × Option V}
  {child other : RewriteExpression V D} {returnType : TypeId}

theorem lighter_of_unchanged (h : (.ok .unchanged : Except Exception (RuleResult V D)) = .ok result) :
    Lighter e result :=
  Except.ok.inj h ▸ trivial

theorem lighter_of_replaced {e' : RewriteExpression V D} (hlt : e'.weight < e.weight)
    (h : (.ok (.replaced e') : Except Exception (RuleResult V D)) = .ok result) : Lighter e result :=
  Except.ok.inj h ▸ hlt

theorem lighter_constantFolding (h : constantFolding ctx e = .ok result) : Lighter e result := by
  unfold constantFolding at h
  split_ifs at h with hfoldable
  · simp only [Bool.and_eq_true, Option.isNone_iff_eq_none] at hfoldable
    have hweight := two_le_weight hfoldable.1
    split at h
    · simp at h
    · exact lighter_of_replaced (by rw [weight_ofValue]; omega) h
  · exact lighter_of_unchanged h

/-! ### Distributivity -/

/-- The weight that goes away with the INVALID expressions: each of them takes a conjunction with
it. -/
def cost : List (Gathered V D) → ℕ
  | [] => 0
  | entry :: entries => (if entry.invalid then entry.expression.weight + 2 else 0) + cost entries

theorem cost_append {a b : List (Gathered V D)} : cost (a ++ b) = cost a + cost b := by
  induction a with
  | nil => simp [cost]
  | cons entry a ih => rw [cons_append, cost, cost, ih, Nat.add_assoc]

/-- The weight of what is left of an expression. -/
def optionWeight : Option (RewriteExpression V D) → ℕ
  | none => 0
  | some e => e.weight

/-- The conjunction that does not go away if nothing is left. -/
def missing : Option (RewriteExpression V D) → ℕ
  | none => 2
  | some _ => 0

theorem optionWeight_pruneConjunction (type : ConjunctionType) (returnType : TypeId)
    (left right : Option (RewriteExpression V D)) :
    optionWeight (pruneConjunction type returnType left right) + missing left + missing right =
      optionWeight left + optionWeight right + 2 +
        missing (pruneConjunction type returnType left right) := by
  cases left <;> cases right <;>
    simp [pruneConjunction, optionWeight, missing, weight, weightList, ExpressionLabel.weight]
  omega

/-- The entries have the given expressions, whatever their flags. -/
def SameExpressions (a b : List (Gathered V D)) : Prop :=
  a.map (·.expression) = b.map (·.expression)

/-- Pruning with the flags of some entries: what it leaves, and what the INVALID entries cost, is
what was there. -/
structure Prunes (prune : List Bool → Option (RewriteExpression V D) × List Bool)
    (e : RewriteExpression V D) (entries : List (Gathered V D)) : Prop where
  rest : ∀ flags, (prune (entries.map (·.invalid) ++ flags)).2 = flags
  left : ∀ flags, (prune (entries.map (·.invalid) ++ flags)).1 = (prune (entries.map (·.invalid))).1
  weight : optionWeight (prune (entries.map (·.invalid))).1 + cost entries =
    e.weight + missing (prune (entries.map (·.invalid))).1

/-- A conjunction is pruned by pruning its children one after the other. -/
theorem Prunes.conjunction {pruneLeft pruneRight : List Bool →
      Option (RewriteExpression V D) × List Bool}
    {prune : List Bool → Option (RewriteExpression V D) × List Bool}
    {lefts rights : List (Gathered V D)} (hprune : ∀ flags, prune flags =
      (pruneConjunction type returnType (pruneLeft flags).1 (pruneRight (pruneLeft flags).2).1,
        (pruneRight (pruneLeft flags).2).2)) (hleft : Prunes pruneLeft left lefts)
    (hright : Prunes pruneRight right rights) :
    Prunes prune (node (.conjunction type) returnType [left, right]) (lefts ++ rights) := by
  have hboth : ∀ flags, prune ((lefts ++ rights).map (·.invalid) ++ flags) =
      (pruneConjunction type returnType (pruneLeft (lefts.map (·.invalid))).1
        (pruneRight (rights.map (·.invalid))).1, flags) := by
    intro flags
    rw [hprune, map_append, append_assoc, hleft.left, hleft.rest, hright.left, hright.rest]
  have hnone := hboth []
  rw [append_nil] at hnone
  refine ⟨fun flags => by rw [hboth], fun flags => by rw [hboth, hnone], ?_⟩
  rw [hnone, cost_append]
  have hconjunction := optionWeight_pruneConjunction type returnType
    (pruneLeft (lefts.map (·.invalid))).1 (pruneRight (rights.map (·.invalid))).1
  have hweightLeft := hleft.weight
  have hweightRight := hright.weight
  simp only [RewriteExpression.weight, weightList, ExpressionLabel.weight]
  omega

theorem prunes_pruneAnd (e : RewriteExpression V D)
    (h : SameExpressions entries (gatherAndExpressions e)) : Prunes (pruneAnd e) e entries := by
  fun_induction gatherAndExpressions e generalizing entries with
  | case1 returnType left right ihl ihr =>
    obtain ⟨lefts, rights, rfl, hlefts, hrights⟩ := map_eq_append_iff.1 (h.trans (map_append ..))
    exact .conjunction (fun flags => rfl) (ihl hlefts) (ihr hrights)
  | case2 e hnot =>
    obtain ⟨entry, rfl, rfl⟩ : ∃ entry, entries = [entry] ∧ entry.expression = e := by
      obtain ⟨entry, rfl, hentry⟩ := map_eq_singleton_iff.1 h
      exact ⟨entry, rfl, hentry⟩
    have hprune : ∀ flags, pruneAnd entry.expression (entry.invalid :: flags) =
        (if entry.invalid then none else some entry.expression, flags) := by
      intro flags
      rw [pruneAnd]
      exact hnot
    refine ⟨fun flags => ?_, fun flags => ?_, ?_⟩
    · rw [map_singleton, singleton_append, hprune]
    · rw [map_singleton, singleton_append, hprune, hprune]
    · rw [map_singleton, hprune]
      cases hinvalid : entry.invalid <;> simp [cost, optionWeight, missing, hinvalid]

theorem prunes_pruneOr (h : SameExpressions entries (gatherOrExpressions e).flatten) :
    Prunes (pruneOr e) e entries := by
  fun_induction gatherOrExpressions e generalizing entries with
  | case1 returnType left right ihl ihr =>
    rw [flatten_append] at h
    obtain ⟨lefts, rights, rfl, hlefts, hrights⟩ := map_eq_append_iff.1 (h.trans (map_append ..))
    exact .conjunction (fun flags => rfl) (ihl hlefts) (ihr hrights)
  | case2 e hnot =>
    have hprune : pruneOr e = pruneAnd e := by
      funext flags
      rw [pruneOr]
      exact hnot
    rw [hprune]
    exact prunes_pruneAnd e (by simpa using h)

/-- The gathered expressions are not INVALID. -/
theorem invalid_gatherAndExpressions (e : RewriteExpression V D) :
    ∀ entry ∈ gatherAndExpressions e, entry.invalid = false := by
  fun_induction gatherAndExpressions e with
  | case1 returnType left right ihl ihr =>
    intro entry hentry
    exact (mem_append.1 hentry).elim (ihl entry) (ihr entry)
  | case2 e hnot => simp

theorem invalid_gatherOrExpressions (e : RewriteExpression V D) :
    ∀ entries ∈ gatherOrExpressions e, ∀ entry ∈ entries, entry.invalid = false := by
  fun_induction gatherOrExpressions e with
  | case1 returnType left right ihl ihr =>
    intro entries hentries
    exact (mem_append.1 hentries).elim (ihl entries) (ihr entries)
  | case2 e hnot =>
    rw [forall_mem_singleton]
    exact invalid_gatherAndExpressions e

theorem gatherOrExpressions_ne_nil (e : RewriteExpression V D) : gatherOrExpressions e ≠ [] := by
  fun_induction gatherOrExpressions e with
  | case1 returnType left right ihl ihr => simp [ihl]
  | case2 e hnot => simp

theorem takeFirst_eq_some {entries' : List (Gathered V D)}
    (h : takeFirst ctx e entries = some entries') :
    SameExpressions entries' entries ∧ cost entries < cost entries' := by
  induction entries generalizing entries' with
  | nil => simp [takeFirst] at h
  | cons entry entries ih =>
    rw [takeFirst] at h
    split_ifs at h with hmatch
    · obtain rfl := Option.some.inj h
      have hvalid : entry.invalid = false := by simpa using (Bool.and_eq_true_iff.1 hmatch).1
      exact ⟨rfl, by simp [cost, hvalid]⟩
    · obtain ⟨rest, hrest, rfl⟩ := Option.map_eq_some_iff.1 h
      obtain ⟨hsame, hcost⟩ := ih hrest
      refine ⟨?_, by simpa [cost] using hcost⟩
      simpa [SameExpressions] using hsame

theorem takeAll_eq_some (h : takeAll ctx e others = some others') :
    SameExpressions others'.flatten others.flatten ∧ cost others.flatten ≤ cost others'.flatten ∧
      (others ≠ [] → cost others.flatten < cost others'.flatten) ∧ others'.length = others.length := by
  induction others generalizing others' with
  | nil =>
    obtain rfl := Option.some.inj h
    exact ⟨rfl, le_rfl, by simp, rfl⟩
  | cons entries others ih =>
    rw [takeAll] at h
    split at h
    · next entries' rest' hentries hrest =>
      obtain rfl := Option.some.inj h
      obtain ⟨hsame, hcost⟩ := takeFirst_eq_some hentries
      obtain ⟨hsameRest, hcostRest, -, hlength⟩ := ih hrest
      simp only [flatten_cons, cost_append, length_cons]
      refine ⟨?_, by omega, fun _ => by omega, by rw [hlength]⟩
      rw [SameExpressions, map_append, map_append, hsame, hsameRest]
    · simp at h

/-- What the expressions that are joined by AND weigh, with the conjunctions. -/
def matchedWeight : List (RewriteExpression V D) → ℕ
  | [] => 0
  | e :: es => e.weight + 2 + matchedWeight es

theorem extract_eq {first : List (Gathered V D)} {matched : List (RewriteExpression V D)}
    (h : extract ctx entries others = (first, others', matched))
    (hvalid : ∀ entry ∈ entries, entry.invalid = false) (hothers : others ≠ []) :
    SameExpressions first entries ∧ SameExpressions others'.flatten others.flatten ∧
      cost first = matchedWeight matched ∧
      cost others.flatten + matched.length ≤ cost others'.flatten := by
  induction entries generalizing others first others' matched with
  | nil =>
    obtain ⟨rfl, rfl, rfl⟩ : [] = first ∧ others = others' ∧ [] = matched := by
      simpa [extract] using h
    exact ⟨rfl, rfl, rfl, by simp⟩
  | cons entry entries ih =>
    rw [forall_mem_cons] at hvalid
    rw [extract] at h
    split at h
    · next taken htaken =>
      obtain ⟨hsame, -, hcost, hlength⟩ := takeAll_eq_some htaken
      have hne : taken ≠ [] := fun hnil => by
        rw [hnil, length_nil] at hlength
        exact hothers (length_eq_zero_iff.1 hlength.symm)
      rcases hextract : extract ctx entries taken with ⟨rest, remaining, found⟩
      simp only [hextract, Prod.mk.injEq] at h
      obtain ⟨rfl, rfl, rfl⟩ := h
      obtain ⟨hfirst, hrest, hmatched, hcostRest⟩ := ih hextract hvalid.2 hne
      have hlt := hcost hothers
      refine ⟨?_, hrest.trans hsame, ?_, ?_⟩
      · simpa [SameExpressions] using hfirst
      · simp [cost, matchedWeight, hmatched]
      · rw [length_cons]
        omega
    · rcases hextract : extract ctx entries others with ⟨rest, remaining, found⟩
      simp only [hextract, Prod.mk.injEq] at h
      obtain ⟨rfl, rfl, rfl⟩ := h
      obtain ⟨hfirst, hrest, hmatched, hcostRest⟩ := ih hextract hvalid.2 hothers
      refine ⟨?_, hrest, ?_, hcostRest⟩
      · simpa [SameExpressions] using hfirst
      · simpa [cost, hvalid.1] using hmatched

theorem weight_conjoin {root : RewriteExpression V D} (h : conjoin (some root) es = some e) :
    e.weight = root.weight + matchedWeight es := by
  induction es generalizing root with
  | nil =>
    obtain rfl := Option.some.inj h
    rfl
  | cons e' es ih =>
    rw [ih h, matchedWeight]
    simp only [weight, weightList, ExpressionLabel.weight]
    omega

theorem optionWeight_conjoin {root : Option (RewriteExpression V D)} (h : conjoin root es = some e)
    (hes : es ≠ []) : e.weight + missing root = optionWeight root + matchedWeight es := by
  cases root with
  | some root => exact weight_conjoin h
  | none =>
    obtain ⟨e', es, rfl⟩ := exists_cons_of_ne_nil hes
    have hrest : conjoin (some e') es = some e := h
    rw [weight_conjoin hrest, optionWeight, missing, matchedWeight]
    omega

theorem lighter_distributivity (h : distributivity ctx e = .ok result) : Lighter e result := by
  unfold distributivity at h
  split at h
  · next returnType left right =>
    split at h
    · exact lighter_of_unchanged h
    · next first others hgathered =>
      have hvalid := invalid_gatherOrExpressions (node (.conjunction .or) returnType [left, right])
      rw [hgathered, forall_mem_cons] at hvalid
      have hothers : others ≠ [] := by
        rintro rfl
        have hlength := congrArg List.length hgathered
        rw [gatherOrExpressions, length_append] at hlength
        have hleft := length_pos_iff.2 (gatherOrExpressions_ne_nil left)
        have hright := length_pos_iff.2 (gatherOrExpressions_ne_nil right)
        simp only [length_singleton] at hlength
        omega
      rcases hextract : extract ctx first others with ⟨first', others', matched⟩
      rw [hextract] at h
      obtain ⟨hfirst, hrest, hmatched, hcost⟩ := extract_eq hextract hvalid.1 hothers
      dsimp only at h
      split_ifs at h with hempty
      · exact lighter_of_unchanged h
      · split at h
        · next root hroot =>
          obtain rfl := Except.ok.inj h
          have hne : matched ≠ [] := by simpa using hempty
          have hsame : SameExpressions (first' ++ others'.flatten)
              (gatherOrExpressions (node (.conjunction .or) returnType [left, right])).flatten := by
            rw [SameExpressions, hgathered, flatten_cons, map_append, map_append, hfirst, hrest]
          have hweight := (prunes_pruneOr hsame).weight
          have hconjoin := optionWeight_conjoin hroot hne
          have hpos := length_pos_iff.2 hne
          rw [cost_append] at hweight
          rw [flatten_cons] at hconjoin
          rw [Lighter]
          omega
        · simp at h
  · exact lighter_of_unchanged h

/-! ### The other rules -/

theorem lighter_simplifyArithmetic {type : OperatorType} {constantChild : ℕ} {value : Option V}
    (hweight : 1 < e.weight) (hother : other.weight < e.weight) :
    Lighter e (simplifyArithmetic ctx type returnType constantChild value other) := by
  have hnull : Lighter e (.replaced (ofValue returnType none)) := by rwa [Lighter, weight_ofValue]
  have hsome : Lighter e (.replaced other) := hother
  have hunchanged : Lighter e .unchanged := trivial
  unfold simplifyArithmetic
  split
  · exact hnull
  · cases type <;> dsimp only <;> split_ifs <;> assumption

theorem lighter_arithmeticSimplification (h : arithmeticSimplification ctx e = .ok result) :
    Lighter e result := by
  unfold arithmeticSimplification at h
  split at h
  · next type returnType children =>
    split at h
    · split at h
      · exact lighter_of_unchanged h
      · next first second _ =>
        have hweight : 1 < (node (.operator type) returnType [first, second]).weight :=
          two_le_weight rfl
        split_ifs at h <;> obtain rfl := Except.ok.inj h <;>
          exact lighter_simplifyArithmetic hweight (weight_lt_of_mem (by simp))
      · simp at h
    · exact lighter_of_unchanged h
  · exact lighter_of_unchanged h

theorem lighter_caseSimplification (h : caseSimplification ctx e = .ok result) :
    Lighter e result := by
  unfold caseSimplification at h
  split at h
  · next returnType check resultIfTrue resultIfFalse =>
    split_ifs at h with hfoldable
    · split at h
      · simp at h
      · exact lighter_of_replaced (weight_lt_of_mem (by simp)) h
      · exact lighter_of_replaced (weight_lt_of_mem (by simp)) h
    · exact lighter_of_unchanged h
  · exact lighter_of_unchanged h

theorem lighter_simplifyConjunction {constantExpr : RewriteExpression V D}
    (h : simplifyConjunction ctx type constantExpr other = .ok result) (hweight : 1 < e.weight)
    (hother : other.weight < e.weight) : Lighter e result := by
  unfold simplifyConjunction at h
  split at h
  · simp at h
  · exact lighter_of_unchanged h
  · split at h
    · exact lighter_of_replaced (by rwa [weight_ofValue]) h
    · exact lighter_of_replaced hother h
    · exact lighter_of_replaced hother h
    · exact lighter_of_replaced (by rwa [weight_ofValue]) h

theorem lighter_conjunctionSimplification (h : conjunctionSimplification ctx e = .ok result) :
    Lighter e result := by
  unfold conjunctionSimplification at h
  split at h
  · next type returnType left right =>
    have hweight : 1 < (node (.conjunction type) returnType [left, right]).weight :=
      two_le_weight rfl
    split_ifs at h
    · exact lighter_simplifyConjunction h hweight (weight_lt_of_mem (by simp))
    · exact lighter_simplifyConjunction h hweight (weight_lt_of_mem (by simp))
    · exact lighter_of_unchanged h
  · exact lighter_of_unchanged h

theorem lighter_comparisonSimplification (h : comparisonSimplification ctx e = .ok result) :
    Lighter e result := by
  unfold comparisonSimplification at h
  split at h
  · next type returnType left right =>
    have hweight : 1 < (node (.comparison type) returnType [left, right]).weight :=
      two_le_weight rfl
    split at h
    · split at h
      · simp at h
      · exact lighter_of_replaced (by rwa [weight_ofValue]) h
      · exact lighter_of_unchanged h
    · exact lighter_of_unchanged h
  · exact lighter_of_unchanged h

theorem weight_lt_of_matchArithmetic {type : OperatorType} {inner : Option V}
    {children : List (RewriteExpression V D)} (h : matchArithmetic e = some (type, children, inner))
    (hchild : child ∈ children) : child.weight < e.weight := by
  unfold matchArithmetic at h
  split at h
  · split_ifs at h
    obtain ⟨value, -, heq⟩ := Option.map_eq_some_iff.1 h
    obtain ⟨-, rfl, -⟩ := by simpa using heq
    exact weight_lt_of_mem hchild
  · simp at h

/-- The child that takes the place of the arithmetic expression is lighter than it. -/
theorem weight_lt_of_moveFrom {comparison comparison' : ComparisonType} {outer outer' : Option V}
    (hmatch : matchConstantAndArithmetic left right = some (outer, arithmetic))
    (h : moveFrom ctx comparison outer arithmetic = .ok (some (comparison', outer', child))) :
    child.weight < right.weight ∧ (left.withConstant outer').weight = left.weight := by
  unfold matchConstantAndArithmetic at hmatch
  split at hmatch
  · next outer harithmetic houter hright =>
    obtain ⟨rfl, rfl⟩ := by simpa using hmatch
    refine ⟨?_, weight_withConstant (by rw [houter, Option.isSome_some]) outer'⟩
    obtain ⟨type, children, inner⟩ := harithmetic
    unfold moveFrom at h
    dsimp only at h
    split at h
    · simp at h
    · simp at h
    · next hchild =>
      obtain ⟨rfl, rfl, rfl⟩ := by simpa using h
      exact weight_lt_of_matchArithmetic hright (mem_of_getElem? hchild)
    · simp at h
  · simp at hmatch

theorem lighter_of_moveFrom {comparison : ComparisonType} {outer : Option V}
    (hmatch : matchConstantAndArithmetic left right = some (outer, arithmetic))
    {build : ComparisonType → RewriteExpression V D → RewriteExpression V D → RewriteExpression V D}
    (hbuild : ∀ type a b, (build type a b).weight = 2 + a.weight + b.weight)
    (he : e.weight = 2 + left.weight + right.weight)
    (h : ((moveFrom ctx comparison outer arithmetic).map fun
      | none => RuleResult.unchanged
      | some (type, outer, child) => .changed (build type (left.withConstant outer) child)) =
        .ok result) : Lighter e result := by
  cases hmove : moveFrom ctx comparison outer arithmetic with
  | error ex => simp [hmove, Except.map] at h
  | ok moved =>
    rw [hmove] at h
    obtain rfl := Except.ok.inj h
    cases moved with
    | none => trivial
    | some moved =>
      obtain ⟨hchild, hconstant⟩ := weight_lt_of_moveFrom hmatch hmove
      simp only [Lighter, hbuild, hconstant, he]
      omega

theorem lighter_moveConstants (h : moveConstants ctx e = .ok result) : Lighter e result := by
  unfold moveConstants at h
  split at h
  · next comparison returnType left right =>
    have hweight : ∀ (type : ComparisonType) (a b : RewriteExpression V D),
        (node (.comparison type) returnType [a, b]).weight = 2 + a.weight + b.weight := by
      intro type a b
      simp only [weight, weightList, ExpressionLabel.weight]
      omega
    split at h
    · next hmatch => exact lighter_of_moveFrom hmatch hweight (hweight _ _ _) h
    · next hmatch =>
      have hflipped : ∀ (type : ComparisonType) (a b : RewriteExpression V D),
          (node (.comparison type) returnType [b, a]).weight = 2 + a.weight + b.weight := by
        intro type a b
        rw [hweight]
        omega
      exact lighter_of_moveFrom hmatch hflipped (hflipped _ _ _) h
    · exact lighter_of_unchanged h
  · exact lighter_of_unchanged h

/-- **Every rule** makes the expression lighter. -/
theorem lighter_apply {rule : Rule} (h : rule.apply ctx e = .ok result) : Lighter e result := by
  cases rule with
  | constantFolding => exact lighter_constantFolding h
  | distributivity => exact lighter_distributivity h
  | arithmeticSimplification => exact lighter_arithmeticSimplification h
  | caseSimplification => exact lighter_caseSimplification h
  | conjunctionSimplification => exact lighter_conjunctionSimplification h
  | comparisonSimplification => exact lighter_comparisonSimplification h
  | moveConstants => exact lighter_moveConstants h

theorem lighter_applyFirst {rules : List Rule} (h : applyFirst ctx e rules = .ok result) :
    Lighter e result := by
  induction rules with
  | nil =>
    obtain rfl := Except.ok.inj h
    trivial
  | cons rule rest ih =>
    rw [applyFirst] at h
    split at h
    · exact ih h
    · exact lighter_apply h

/-! ### The loop -/

/-- A run returned, and the rules it applied are paid by the weight. -/
def Paid {α : Type} (weight : α → ℕ) (limit : ℕ) (run : Option (Except Exception (α × ℕ))) : Prop :=
  ∃ result, run = some result ∧ ∀ a n, result = .ok (a, n) → weight a + n ≤ limit

theorem Paid.map {α β : Type} {weight : α → ℕ} {weight' : β → ℕ} {limit limit' : ℕ}
    {run : Option (Except Exception (α × ℕ))} {f : α × ℕ → β × ℕ} (h : Paid weight limit run)
    (hf : ∀ a n, weight a + n ≤ limit → weight' (f (a, n)).1 + (f (a, n)).2 ≤ limit') :
    Paid weight' limit' (run.map fun result => result.map f) := by
  obtain ⟨result, rfl, hresult⟩ := h
  refine ⟨result.map f, rfl, fun b n hb => ?_⟩
  cases result with
  | error ex => simp [Except.map] at hb
  | ok pair =>
    have hpair := hf pair.1 pair.2 (hresult pair.1 pair.2 rfl)
    rwa [Except.ok.inj hb] at hpair

/-- With enough fuel the rules stop on an expression, and what they do does not depend on the
fuel. -/
theorem exists_applyRules (ctx : RewriterContext V D) (e : RewriteExpression V D) :
    ∃ run, Paid weight e.weight run ∧ ∀ fuel ≥ e.weight, applyRules ctx fuel e = run := by
  induction hn : e.weight using Nat.strong_induction_on generalizing e with
  | _ n ih =>
  -- the children of a node, each with the fuel that is left
  have hlist : ∀ es : List (RewriteExpression V D), weightList es < n →
      ∃ run, Paid weightList (weightList es) run ∧
        ∀ fuel ≥ weightList es, applyRulesList ctx fuel es = run := by
    intro es hes
    induction es with
    | nil =>
      exact ⟨_, ⟨.ok ([], 0), rfl, by simp [weightList]⟩, fun fuel _ => by rw [applyRulesList]⟩
    | cons e es ihes =>
      rw [weightList] at hes ⊢
      obtain ⟨_, ⟨result, rfl, hpaid⟩, hrun⟩ := ih e.weight (by omega) e rfl
      obtain ⟨_, hpaidRest, hrest⟩ := ihes (by omega)
      cases result with
      | error ex =>
        refine ⟨_, ⟨.error ex, rfl, by simp⟩, fun fuel hfuel => ?_⟩
        rw [applyRulesList, hrun fuel (by omega)]
      | ok pair =>
        have hpair := hpaid pair.1 pair.2 rfl
        refine ⟨_, hpaidRest.map (f := fun p => (pair.1 :: p.1, pair.2 + p.2))
          fun es m hm => ?_, fun fuel hfuel => ?_⟩
        · simp only [weightList]
          omega
        · rw [applyRulesList, hrun fuel (by omega), hrest fuel (by omega)]
  subst hn
  have hfuel : ∀ {run}, (∀ fuel ≥ e.weight - 1, applyRules ctx (fuel + 1) e = run) →
      ∀ fuel ≥ e.weight, applyRules ctx fuel e = run := by
    intro run h fuel hfuel
    have hpos := e.weight_pos
    obtain ⟨fuel, rfl⟩ := Nat.exists_eq_add_one.2 (by omega : 0 < fuel)
    exact h fuel (by omega)
  obtain ⟨label, returnType, children⟩ := e
  cases hfirst : applyFirst ctx (node label returnType children) rules with
  | error ex =>
    exact ⟨_, ⟨.error ex, rfl, by simp⟩, hfuel fun fuel _ => by rw [applyRules, hfirst]⟩
  | ok result =>
    have hlighter := lighter_applyFirst hfirst
    cases result with
    | replaced e' =>
      rw [Lighter] at hlighter
      obtain ⟨_, hpaid, hrun⟩ := ih e'.weight hlighter e' rfl
      refine ⟨_, hpaid.map (f := fun p => (p.1, p.2 + 1)) fun a n h => ?_, hfuel fun fuel hle => ?_⟩
      · dsimp only
        omega
      · rw [applyRules, hfirst, ← hrun fuel (by omega)]
    | changed e' =>
      rw [Lighter] at hlighter
      refine ⟨_, ⟨.ok (e', 1), rfl, fun a n h => ?_⟩, hfuel fun fuel _ => by rw [applyRules, hfirst]⟩
      obtain ⟨rfl, rfl⟩ := by simpa using h
      omega
    | unchanged =>
      have hlabel : 0 < label.weight := by cases label <;> simp [ExpressionLabel.weight]
      rw [weight] at *
      obtain ⟨_, hpaid, hrun⟩ := hlist children (by omega)
      refine ⟨_, hpaid.map (f := fun p => (node label returnType p.1, p.2))
        fun a n h => ?_, hfuel fun fuel hle => ?_⟩
      · simp only [weight]
        omega
      · rw [applyRules, hfirst, ← hrun fuel (by omega)]

theorem exists_rewriteLoop (ctx : RewriterContext V D) (e : RewriteExpression V D) :
    ∃ run, Paid weight e.weight run ∧ ∀ fuel ≥ e.weight, rewriteLoop ctx (fuel + 1) e = run := by
  induction hn : e.weight using Nat.strong_induction_on generalizing e with
  | _ n ih =>
  subst hn
  obtain ⟨_, ⟨result, rfl, hpaid⟩, hrun⟩ := exists_applyRules ctx e
  cases result with
  | error ex =>
    exact ⟨_, ⟨.error ex, rfl, by simp⟩, fun fuel hfuel => by rw [rewriteLoop, hrun fuel hfuel]⟩
  | ok pair =>
    obtain ⟨e', n⟩ := pair
    have hpair := hpaid e' n rfl
    cases n with
    | zero => exact ⟨_, ⟨_, rfl, hpaid⟩, fun fuel hfuel => by rw [rewriteLoop, hrun fuel hfuel]⟩
    | succ n =>
      obtain ⟨_, hpaid', hrun'⟩ := ih e'.weight (by omega) e' rfl
      refine ⟨_, hpaid'.map (f := fun p => (p.1, n + 1 + p.2)) fun a m h => ?_,
        fun fuel hfuel => ?_⟩
      · dsimp only
        omega
      · obtain ⟨fuel, rfl⟩ := Nat.exists_eq_add_one.2 (by omega : 0 < fuel)
        rw [rewriteLoop, hrun _ hfuel, ← hrun' fuel (by omega)]

/-- **The rewriter stops**: the loop over an expression has a result, and it applies at most as many
rules as the expression weighs. -/
theorem rewriteLoop_stops (ctx : RewriterContext V D) (e : RewriteExpression V D) :
    ∃ result, (∀ fuel > e.weight, rewriteLoop ctx fuel e = some result) ∧
      ∀ e' n, result = .ok (e', n) → e'.weight + n ≤ e.weight := by
  obtain ⟨_, ⟨result, rfl, hpaid⟩, hrun⟩ := exists_rewriteLoop ctx e
  refine ⟨result, fun fuel hfuel => ?_, hpaid⟩
  obtain ⟨fuel, rfl⟩ := Nat.exists_eq_add_one.2 (by omega : 0 < fuel)
  exact hrun fuel (by omega)

end ExpressionRewriter

end DuckDB
