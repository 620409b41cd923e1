import DuckDB.Common.Constants
import DuckDB.Planner.Expression

/-!
# The expression rewriter

`ExpressionRewriter` applies rules to the nodes of an expression until none of them changes anything
(`expression_rewriter.cpp`, `optimizer/rule/`). A `RewriteExpression` is a bound expression of any
class: a node with its label, its type and the children that `ExpressionIterator::EnumerateChildren`
visits. What a rule computes with values is in `RewriterContext`.
-/

namespace DuckDB

/-- The expression classes on which no rule looks at the node itself. -/
inductive OtherClass where
  | aggregate
  | cast
  | columnRef
  | commonSubexpression
  | default
  | function
  | parameter
  | reference
  | subquery
  | window
deriving DecidableEq, Repr

/-- What a node is; `D` is what the other classes have besides their children. -/
inductive ExpressionLabel (V D : Type) where
  | constant (value : Option V)
  | comparison (type : ComparisonType)
  | conjunction (type : ConjunctionType)
  | operator (type : OperatorType)
  | case
  | other (expressionClass : OtherClass) (data : D)

/-- A bound expression: its label, its `return_type` and its children. -/
inductive RewriteExpression (V D : Type) where
  | node (label : ExpressionLabel V D) (returnType : TypeId)
      (children : List (RewriteExpression V D))

/-- What the rules compute with values: `ExpressionExecutor::EvaluateScalar`, `Expression::Equals`,
`Value::CastAs(TypeId::BOOLEAN)`, `Value::BOOLEAN`, the comparison of a value with a number, and the
arithmetic of `ValueOperations`. -/
structure RewriterContext (V D : Type) where
  evaluateScalar : RewriteExpression V D → Except Exception (TypeId × Option V)
  equals : RewriteExpression V D → RewriteExpression V D → Bool
  castAsBoolean : V → Except Exception Bool
  ofBool : Bool → V
  isNumber : V → ℤ → Bool
  isNegative : V → Bool
  add : Option V → Option V → Except Exception (Option V)
  subtract : Option V → Option V → Except Exception (Option V)
  divide : Option V → Option V → Except Exception (Option V)
  modulo : Option V → Option V → Except Exception (Option V)

namespace ExpressionLabel

variable {V D : Type}

/-- The classes whose `IsScalar` looks at the children only. -/
def isScalar : ExpressionLabel V D → Bool
  | .other .columnRef _ | .other .commonSubexpression _ | .other .default _ | .other .reference _
  | .other .subquery _ => false
  | _ => true

def isAggregate : ExpressionLabel V D → Bool
  | .other .aggregate _ => true
  | _ => false

def isWindow : ExpressionLabel V D → Bool
  | .other .window _ => true
  | _ => false

def isParameter : ExpressionLabel V D → Bool
  | .other .parameter _ => true
  | _ => false

end ExpressionLabel

namespace RewriteExpression

variable {V D : Type}

mutual

/-- All nodes have the property. -/
def all (p : ExpressionLabel V D → Bool) : RewriteExpression V D → Bool
  | node label _ children => p label && allList p children

/-- All nodes of the expressions have the property. -/
def allList (p : ExpressionLabel V D → Bool) : List (RewriteExpression V D) → Bool
  | [] => true
  | e :: es => e.all p && allList p es

end

/-- `Expression::IsFoldable`: scalar, without aggregates, window functions and parameters. -/
def isFoldable (e : RewriteExpression V D) : Bool :=
  e.all (·.isScalar) && e.all (!·.isAggregate) && e.all (!·.isWindow) && e.all (!·.isParameter)

/-- `ConstantExpressionMatcher`. -/
def constant? : RewriteExpression V D → Option (Option V)
  | node (.constant value) _ _ => some value
  | _ => none

/-- `constant->value = value`. -/
def withConstant : RewriteExpression V D → Option V → RewriteExpression V D
  | node _ returnType children, value => node (.constant value) returnType children

/-- `make_unique<BoundConstantExpression>(value)`. -/
def ofValue (type : TypeId) (value : Option V) : RewriteExpression V D :=
  node (.constant value) type []

end RewriteExpression

namespace ExpressionRewriter

open RewriteExpression

variable {V D : Type} (ctx : RewriterContext V D)

/-- What a rule does at a node: it replaces the node, it changes the node, or it does nothing. -/
inductive RuleResult (V D : Type) where
  | replaced (e : RewriteExpression V D)
  | changed (e : RewriteExpression V D)
  | unchanged

/-- `TypeIsInteger`. -/
def typeIsInteger : TypeId → Bool
  | .tinyint | .smallint | .integer | .bigint => true
  | _ => false

/-- The comparison of a `Value` with a number. -/
def equalsNumber (value : Option V) (n : ℤ) : Bool :=
  match value with
  | none => false
  | some value => ctx.isNumber value n

/-! ### Folding -/

/-- `ConstantFoldingRule`. -/
def constantFolding (e : RewriteExpression V D) : Except Exception (RuleResult V D) :=
  if e.constant?.isNone && e.isFoldable then
    match ctx.evaluateScalar e with
    | .error ex => .error ex
    | .ok (type, value) => .ok (.replaced (ofValue type value))
  else .ok .unchanged

/-! ### Distributivity -/

/-- An expression inside the ANDs of an OR, and whether its type has been set to INVALID. -/
structure Gathered (V D : Type) where
  expression : RewriteExpression V D
  invalid : Bool := false

/-- `GatherAndExpressions`. -/
def gatherAndExpressions : RewriteExpression V D → List (Gathered V D)
  | node (.conjunction .and) _ [left, right] =>
    gatherAndExpressions left ++ gatherAndExpressions right
  | e => [{ expression := e }]

/-- `GatherOrExpressions`, for a child of an OR. -/
def gatherOrExpressions : RewriteExpression V D → List (List (Gathered V D))
  | node (.conjunction .or) _ [left, right] =>
    gatherOrExpressions left ++ gatherOrExpressions right
  | e => [gatherAndExpressions e]

/-- The first expression of the list that is equal to the given one becomes INVALID. -/
def takeFirst (e : RewriteExpression V D) : List (Gathered V D) → Option (List (Gathered V D))
  | [] => none
  | entry :: entries =>
    if !entry.invalid && ctx.equals e entry.expression then
      some ({ entry with invalid := true } :: entries)
    else (takeFirst e entries).map (entry :: ·)

/-- The same in every list; nothing happens if one list has no such expression. -/
def takeAll (e : RewriteExpression V D) :
    List (List (Gathered V D)) → Option (List (List (Gathered V D)))
  | [] => some []
  | entries :: rest =>
    match takeFirst ctx e entries, takeAll e rest with
    | some entries', some rest' => some (entries' :: rest')
    | _, _ => none

/-- The loop over the first list: the lists with their INVALID expressions, and the expressions that
occur in all of them. -/
def extract : List (Gathered V D) → List (List (Gathered V D)) →
    List (Gathered V D) × List (List (Gathered V D)) × List (RewriteExpression V D)
  | [], others => ([], others, [])
  | entry :: entries, others =>
    match takeAll ctx entry.expression others with
    | some others' =>
      let (first, others, matched) := extract entries others'
      ({ entry with invalid := true } :: first, others, entry.expression :: matched)
    | none =>
      let (first, others, matched) := extract entries others
      (entry :: first, others, matched)

/-- `Prune` of a conjunction with pruned children. -/
def pruneConjunction (type : ConjunctionType) (returnType : TypeId) :
    Option (RewriteExpression V D) → Option (RewriteExpression V D) → Option (RewriteExpression V D)
  | some left, some right => some (node (.conjunction type) returnType [left, right])
  | some left, none => some left
  | none, right => right

/-- `Prune` below an AND. The flags say which of the gathered expressions are INVALID; those that
are not used are returned. -/
def pruneAnd : RewriteExpression V D → List Bool → Option (RewriteExpression V D) × List Bool
  | node (.conjunction .and) returnType [left, right], flags =>
    let (left, flags) := pruneAnd left flags
    let (right, flags) := pruneAnd right flags
    (pruneConjunction .and returnType left right, flags)
  | e, flag :: flags => (if flag then none else some e, flags)
  | e, [] => (some e, [])

/-- `Prune` below an OR. -/
def pruneOr : RewriteExpression V D → List Bool → Option (RewriteExpression V D) × List Bool
  | node (.conjunction .or) returnType [left, right], flags =>
    let (left, flags) := pruneOr left flags
    let (right, flags) := pruneOr right flags
    (pruneConjunction .or returnType left right, flags)
  | e, flags => pruneAnd e flags

/-- The new root: the expressions that occur everywhere are joined to the OR by AND. -/
def conjoin (root : Option (RewriteExpression V D)) :
    List (RewriteExpression V D) → Option (RewriteExpression V D)
  | [] => root
  | e :: es => conjoin (pruneConjunction .and .boolean root (some e)) es

/-- `DistributivityRule`. -/
def distributivity (e : RewriteExpression V D) : Except Exception (RuleResult V D) :=
  match e with
  | node (.conjunction .or) _ [_, _] =>
    match gatherOrExpressions e with
    | [] => .ok .unchanged
    | first :: others =>
      let (first, others, matched) := extract ctx first others
      if matched.isEmpty then .ok .unchanged
      else
        let flags := ((first :: others).flatten).map (·.invalid)
        match conjoin (pruneOr e flags).1 matched with
        | some root => .ok (.replaced root)
        | none => .error .assertion
  | _ => .ok .unchanged

/-! ### Simplification -/

/-- `ArithmeticSimplificationRule`, with the index of the constant and the other child. -/
def simplifyArithmetic (type : OperatorType) (returnType : TypeId) (constantChild : ℕ)
    (value : Option V) (other : RewriteExpression V D) : RuleResult V D :=
  -- any arithmetic operator involving NULL is always NULL
  if value.isNone then .replaced (ofValue returnType none)
  else
    match type with
    | .add => if equalsNumber ctx value 0 then .replaced other else .unchanged
    | .subtract =>
      if constantChild = 1 ∧ equalsNumber ctx value 0 then .replaced other else .unchanged
    | .multiply => if equalsNumber ctx value 1 then .replaced other else .unchanged
    | _ =>
      if constantChild = 1 ∧ equalsNumber ctx value 1 then .replaced other
      else if constantChild = 1 ∧ equalsNumber ctx value 0 then
        .replaced (ofValue returnType none)
      else .unchanged

/-- `ArithmeticSimplificationRule`. -/
def arithmeticSimplification (e : RewriteExpression V D) : Except Exception (RuleResult V D) :=
  match e with
  | node (.operator type) returnType children =>
    if (type = .add ∨ type = .subtract ∨ type = .multiply ∨ type = .divide) ∧
        typeIsInteger returnType then
      match children.findSome? constant?, children with
      | none, _ => .ok .unchanged
      | some value, [first, second] =>
        if first.constant?.isSome then .ok (simplifyArithmetic ctx type returnType 0 value second)
        else .ok (simplifyArithmetic ctx type returnType 1 value first)
      | some _, _ => .error .assertion
    else .ok .unchanged
  | _ => .ok .unchanged

/-- The truth value of a foldable expression. -/
def evaluateBoolean (e : RewriteExpression V D) : Except Exception (Option Bool) :=
  match ctx.evaluateScalar e with
  | .error ex => .error ex
  | .ok (_, none) => .ok none
  | .ok (_, some value) => (ctx.castAsBoolean value).map some

/-- `CaseSimplificationRule`. -/
def caseSimplification (e : RewriteExpression V D) : Except Exception (RuleResult V D) :=
  match e with
  | node .case _ [check, resultIfTrue, resultIfFalse] =>
    if check.isFoldable then
      match evaluateBoolean ctx check with
      | .error ex => .error ex
      | .ok (some true) => .ok (.replaced resultIfTrue)
      | .ok _ => .ok (.replaced resultIfFalse)
    else .ok .unchanged
  | _ => .ok .unchanged

/-- `ConjunctionSimplificationRule`, with the constant child and the other one. -/
def simplifyConjunction (type : ConjunctionType) (constantExpr other : RewriteExpression V D) :
    Except Exception (RuleResult V D) :=
  match evaluateBoolean ctx constantExpr with
  | .error ex => .error ex
  | .ok none => .ok .unchanged
  | .ok (some value) =>
    match type, value with
    | .and, false => .ok (.replaced (ofValue .boolean (some (ctx.ofBool false))))
    | .and, true => .ok (.replaced other)
    | .or, false => .ok (.replaced other)
    | .or, true => .ok (.replaced (ofValue .boolean (some (ctx.ofBool true))))

/-- `ConjunctionSimplificationRule`. -/
def conjunctionSimplification (e : RewriteExpression V D) : Except Exception (RuleResult V D) :=
  match e with
  | node (.conjunction type) _ [left, right] =>
    if left.isFoldable then simplifyConjunction ctx type left right
    else if right.isFoldable then simplifyConjunction ctx type right left
    else .ok .unchanged
  | _ => .ok .unchanged

/-- `ComparisonSimplificationRule`. -/
def comparisonSimplification (e : RewriteExpression V D) : Except Exception (RuleResult V D) :=
  match e with
  | node (.comparison _) _ [left, right] =>
    if left.isFoldable || right.isFoldable then
      match ctx.evaluateScalar (if left.isFoldable then left else right) with
      | .error ex => .error ex
      | .ok (_, none) => .ok (.replaced (ofValue .boolean none))
      | .ok (_, some _) => .ok .unchanged
    else .ok .unchanged
  | _ => .ok .unchanged

/-! ### Moving constants -/

/-- The matcher for an addition, subtraction or multiplication of integers with a constant. -/
def matchArithmetic : RewriteExpression V D →
    Option (OperatorType × List (RewriteExpression V D) × Option V)
  | node (.operator type) returnType children =>
    if (type = .add ∨ type = .subtract ∨ type = .multiply) ∧ typeIsInteger returnType then
      (children.findSome? constant?).map fun inner => (type, children, inner)
    else none
  | _ => none

/-- `FlipComparisionExpression`. -/
def flipComparison (type : ComparisonType) : Except Exception ComparisonType :=
  match type.flip with
  | some type => .ok type
  | none => .error (.exception "Unsupported join criteria in flip")

/-- The new comparison and the new outer constant, or nothing if the constant cannot be moved. -/
def moveConstant (comparison : ComparisonType) (type : OperatorType) (childIndex : ℕ)
    (outer inner : Option V) : Except Exception (Option (ComparisonType × Option V)) := do
  match type with
  | .add => return some (comparison, ← ctx.subtract outer inner)
  | .subtract =>
    if childIndex = 0 then return some (comparison, ← ctx.add outer inner)
    else return some (← flipComparison comparison, ← ctx.subtract inner outer)
  | _ =>
    if equalsNumber ctx inner 0 then return none
    else if !equalsNumber ctx (← ctx.modulo outer inner) 0 then return none
    else if inner.elim false ctx.isNegative then
      return some (← flipComparison comparison, ← ctx.divide outer inner)
    else return some (comparison, ← ctx.divide outer inner)

/-- The constant and the arithmetic expression of a comparison. -/
def matchConstantAndArithmetic (left right : RewriteExpression V D) :
    Option (Option V × OperatorType × List (RewriteExpression V D) × Option V) :=
  match left.constant?, matchArithmetic right with
  | some outer, some arithmetic => some (outer, arithmetic)
  | _, _ => none

/-- The new comparison, the new outer constant and the child that takes the place of the arithmetic
expression. -/
def moveFrom (comparison : ComparisonType) (outer : Option V)
    (arithmetic : OperatorType × List (RewriteExpression V D) × Option V) :
    Except Exception (Option (ComparisonType × Option V × RewriteExpression V D)) :=
  let (type, children, inner) := arithmetic
  let childIndex := if (children[0]?.bind constant?).isSome then 1 else 0
  match moveConstant ctx comparison type childIndex outer inner, children[childIndex]? with
  | .error ex, _ => .error ex
  | .ok none, _ => .ok none
  | .ok (some (comparison, outer)), some child => .ok (some (comparison, outer, child))
  | .ok (some _), none => .error .assertion

/-- `MoveConstantsRule`. -/
def moveConstants (e : RewriteExpression V D) : Except Exception (RuleResult V D) :=
  match e with
  | node (.comparison comparison) returnType [left, right] =>
    match matchConstantAndArithmetic left right, matchConstantAndArithmetic right left with
    | some (outer, arithmetic), _ =>
      (moveFrom ctx comparison outer arithmetic).map fun
        | none => .unchanged
        | some (comparison, outer, child) =>
          .changed (node (.comparison comparison) returnType [left.withConstant outer, child])
    | none, some (outer, arithmetic) =>
      (moveFrom ctx comparison outer arithmetic).map fun
        | none => .unchanged
        | some (comparison, outer, child) =>
          .changed (node (.comparison comparison) returnType [child, right.withConstant outer])
    | none, none => .ok .unchanged
  | _ => .ok .unchanged

/-! ### Applying the rules -/

/-- The rules. -/
inductive Rule where
  | constantFolding
  | distributivity
  | arithmeticSimplification
  | caseSimplification
  | conjunctionSimplification
  | comparisonSimplification
  | moveConstants
deriving DecidableEq, Repr

/-- The rules that the optimizer registers, in their order. -/
def rules : List Rule :=
  [.constantFolding, .distributivity, .arithmeticSimplification, .caseSimplification,
    .conjunctionSimplification, .comparisonSimplification, .moveConstants]

/-- The matcher of a rule and its `Apply`. -/
def Rule.apply : Rule → RewriteExpression V D → Except Exception (RuleResult V D)
  | .constantFolding => ExpressionRewriter.constantFolding ctx
  | .distributivity => ExpressionRewriter.distributivity ctx
  | .arithmeticSimplification => ExpressionRewriter.arithmeticSimplification ctx
  | .caseSimplification => ExpressionRewriter.caseSimplification ctx
  | .conjunctionSimplification => ExpressionRewriter.conjunctionSimplification ctx
  | .comparisonSimplification => ExpressionRewriter.comparisonSimplification ctx
  | .moveConstants => ExpressionRewriter.moveConstants ctx

/-- The loop over the rules: the first one that does something. -/
def applyFirst (e : RewriteExpression V D) : List Rule → Except Exception (RuleResult V D)
  | [] => .ok .unchanged
  | rule :: rest =>
    match rule.apply ctx e with
    | .ok .unchanged => applyFirst e rest
    | result => result

/-- The results of a run that may be out of fuel or throw: an expression, and how many rules were
applied. -/
abbrev Applied (V D : Type) := Option (Except Exception (RewriteExpression V D × ℕ))

mutual

/-- `ApplyRules`: `changes_made` is whether a rule was applied. -/
def applyRules : ℕ → RewriteExpression V D → Applied V D
  | 0, _ => none
  | fuel + 1, e =>
    match applyFirst ctx e rules with
    | .error ex => some (.error ex)
    | .ok (.replaced e') =>
      (applyRules fuel e').map fun result => result.map fun (e', n) => (e', n + 1)
    | .ok (.changed e') => some (.ok (e', 1))
    | .ok .unchanged =>
      match e with
      | node label returnType children =>
        (applyRulesList fuel children).map fun result => result.map fun (children, n) =>
          (node label returnType children, n)

/-- `ApplyRules` on the children. -/
def applyRulesList : ℕ → List (RewriteExpression V D) →
    Option (Except Exception (List (RewriteExpression V D) × ℕ))
  | _, [] => some (.ok ([], 0))
  | fuel, e :: es =>
    match applyRules fuel e with
    | none => none
    | some (.error ex) => some (.error ex)
    | some (.ok (e, n)) =>
      (applyRulesList fuel es).map fun result => result.map fun (es, m) => (e :: es, n + m)

end

/-- The loop of `ExpressionRewriter::Apply` over one expression. -/
def rewriteLoop : ℕ → RewriteExpression V D → Applied V D
  | 0, _ => none
  | fuel + 1, e =>
    match applyRules ctx fuel e with
    | none => none
    | some (.error ex) => some (.error ex)
    | some (.ok (e', 0)) => some (.ok (e', 0))
    | some (.ok (e', n + 1)) =>
      (rewriteLoop fuel e').map fun result => result.map fun (e', m) => (e', n + 1 + m)

end ExpressionRewriter

end DuckDB
