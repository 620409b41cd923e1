import DuckDB.Parser.QueryNode
import Mathlib.Tactic.Simproc.ExistsAndEq

/-!
# Copies of query trees

A copy is equal to its original exactly if every expression of the tree is of a kind that its class
keeps: the number of a parameter is lost, and the constructors of aggregates and window functions
refuse what they could not have built.

## Main results

- `ParsedExpression.copy_eq_iff`, `TableRef.copy_eq_iff`, `QueryNode.copy_eq_iff` — when a tree is
  equal to its copy
- `copies_eq_iff` — the same for the trees of all three kinds
-/

namespace DuckDB

variable {V : Type}

/-! ### All expressions of a tree -/

section All

variable (p : ParsedExpression V → Prop)

mutual

/-- Every expression in an expression has the property. -/
def ParsedExpression.All (e : ParsedExpression V) : Prop :=
  p e ∧
    match e with
    | .aggregate _ _ child => AllOptional child
    | .case _ check resultIfTrue resultIfFalse =>
      check.All ∧ resultIfTrue.All ∧ resultIfFalse.All
    | .cast _ child _ => child.All
    | .comparison _ _ left right => left.All ∧ right.All
    | .conjunction _ _ left right => left.All ∧ right.All
    | .function _ _ _ children => AllMembers children
    | .operator _ _ children => AllMembers children
    | .subquery _ _ subquery child _ => subquery.All ∧ AllOptional child
    | .window _ _ child partitions orders _ _ startExpr endExpr offsetExpr defaultExpr =>
      AllOptional child ∧ AllMembers partitions ∧ AllOrders orders ∧ AllOptional startExpr ∧
        AllOptional endExpr ∧ AllOptional offsetExpr ∧ AllOptional defaultExpr
    | .columnRef .. | .constant .. | .default _ | .parameter .. | .star _ => True
termination_by structural e

/-- Every expression in an optional expression has the property. -/
def AllOptional : Option (ParsedExpression V) → Prop
  | none => True
  | some e => e.All
termination_by structural e => e

/-- Every expression in the members of a list has the property. -/
def AllMembers : List (ParsedExpression V) → Prop
  | [] => True
  | e :: es => e.All ∧ AllMembers es
termination_by structural es => es

/-- Every expression in an ORDER BY clause has the property. -/
def AllOrders : List (OrderType × ParsedExpression V) → Prop
  | [] => True
  | (_, e) :: orders => e.All ∧ AllOrders orders
termination_by structural orders => orders

/-- Every expression in a table reference has the property. -/
def TableRef.All : TableRef V → Prop
  | .baseTable .. => True
  | .crossProduct _ left right => left.All ∧ right.All
  | .join _ left right condition _ _ => left.All ∧ right.All ∧ condition.All
  | .subquery _ subquery _ => subquery.All
  | .tableFunction _ function => function.All
termination_by structural ref => ref

/-- Every expression in a FROM clause has the property. -/
def AllFrom : Option (TableRef V) → Prop
  | none => True
  | some ref => ref.All
termination_by structural ref => ref

/-- Every expression in a query node has the property. -/
def QueryNode.All : QueryNode V → Prop
  | .select _ limit offset orders selectList fromTable whereClause groups having =>
    AllMembers selectList ∧ AllFrom fromTable ∧ AllOptional whereClause ∧ AllMembers groups ∧
      AllOptional having ∧ AllOrders orders ∧ AllOptional limit ∧ AllOptional offset
  | .setOperation _ limit offset orders _ left right =>
    left.All ∧ right.All ∧ AllOrders orders ∧ AllOptional limit ∧ AllOptional offset
termination_by structural node => node

end

end All

/-! ### Which expressions are kept -/

/-- What the class of an expression keeps when it is copied: a parameter only the number zero, an
aggregate the child that its constructor keeps. -/
def ParsedExpression.Kept : ParsedExpression V → Prop
  | aggregate type _ child => ∃ type', makeAggregate type child = .ok (type', child)
  | parameter _ parameterNr => parameterNr = 0
  | window type .. => type ∈ windowTypes
  | _ => True

/-- The constructor of an aggregate keeps its child or drops it. -/
theorem ParsedExpression.child_of_makeAggregate {type type' : ExpressionType}
    {child child' : Option (ParsedExpression V)}
    (h : makeAggregate type child = .ok (type', child')) : child' = child ∨ child' = none := by
  unfold makeAggregate at h
  split at h
  · split at h
    · exact .inr (Prod.mk.inj (Except.ok.inj h)).2.symm
    · split_ifs at h
      · exact .inr (Prod.mk.inj (Except.ok.inj h)).2.symm
      · exact .inl (Prod.mk.inj (Except.ok.inj h)).2.symm
  all_goals first
    | exact .inl (Prod.mk.inj (Except.ok.inj h)).2.symm
    | cases h

open ParsedExpression (copy All Kept)

mutual

theorem ParsedExpression.copy_eq_iff :
    ∀ e : ParsedExpression V, e.copy = .ok e ↔ e.All ParsedExpression.Kept
  | .aggregate type name child => by
    rw [copy, All, ← copyOptional_eq_iff child]
    simp only [bind_eq_ok, return_eq_ok, ParsedExpression.aggregate.injEq, true_and, Prod.exists]
    constructor
    · rintro ⟨child', hcopy, type', child'', hmake, rfl⟩
      obtain rfl | rfl := ParsedExpression.child_of_makeAggregate hmake
      · exact ⟨⟨_, hmake⟩, hcopy⟩
      · obtain rfl := Except.ok.inj hcopy
        exact ⟨⟨_, hmake⟩, rfl⟩
    · rintro ⟨⟨type', hmake⟩, hcopy⟩
      exact ⟨child, hcopy, type', child, hmake, rfl⟩
  | .case name check resultIfTrue resultIfFalse => by
    rw [copy, All, ← ParsedExpression.copy_eq_iff check,
      ← ParsedExpression.copy_eq_iff resultIfTrue, ← ParsedExpression.copy_eq_iff resultIfFalse]
    simp [-bind_pure_comp, bind_eq_ok, return_eq_ok, Kept]
  | .cast name child castType => by
    rw [copy, All, ← ParsedExpression.copy_eq_iff child]
    simp [-bind_pure_comp, bind_eq_ok, return_eq_ok, Kept]
  | .columnRef name tableName columnName => by
    simp [copy, All, Kept, pure, Except.pure]
  | .comparison type name left right => by
    rw [copy, All, ← ParsedExpression.copy_eq_iff left, ← ParsedExpression.copy_eq_iff right]
    simp [-bind_pure_comp, bind_eq_ok, return_eq_ok, Kept]
  | .conjunction type name left right => by
    rw [copy, All, ← ParsedExpression.copy_eq_iff left, ← ParsedExpression.copy_eq_iff right]
    simp [-bind_pure_comp, bind_eq_ok, return_eq_ok, Kept]
  | .constant name value sqlType => by
    simp [copy, All, Kept, pure, Except.pure]
  | .default name => by
    simp [copy, All, Kept, pure, Except.pure]
  | .function name functionName schema children => by
    rw [copy, All, ← copyAll_eq_iff children]
    simp [-bind_pure_comp, bind_eq_ok, return_eq_ok, Kept, FunctionName.of_text]
  | .operator type name children => by
    rw [copy, All, ← copyAll_eq_iff children]
    simp [-bind_pure_comp, bind_eq_ok, return_eq_ok, Kept]
  | .parameter name parameterNr => by
    rw [copy, All, Kept, return_eq_ok, ParsedExpression.parameter.injEq]
    exact ⟨fun h => ⟨h.2.symm, trivial⟩, fun h => ⟨rfl, h.1.symm⟩⟩
  | .star name => by
    simp [copy, All, Kept, pure, Except.pure]
  | .subquery name subqueryType subquery child comparisonType => by
    rw [copy, All, ← QueryNode.copy_eq_iff subquery, ← copyOptional_eq_iff child]
    simp [-bind_pure_comp, bind_eq_ok, return_eq_ok, Kept]
  | .window type name child partitions orders first last startExpr endExpr offsetExpr
      defaultExpr => by
    rw [copy, All, ← copyOptional_eq_iff child,
      ← copyAll_eq_iff partitions, ← copyOrders_eq_iff orders, ← copyOptional_eq_iff startExpr,
      ← copyOptional_eq_iff endExpr, ← copyOptional_eq_iff offsetExpr,
      ← copyOptional_eq_iff defaultExpr]
    simp [-bind_pure_comp, bind_eq_ok, return_eq_ok, Kept, exists_checkWindow_iff, and_left_comm]
termination_by structural e => e

theorem copyOptional_eq_iff :
    ∀ e : Option (ParsedExpression V), copyOptional e = .ok e ↔ AllOptional ParsedExpression.Kept e
  | none => by simp [copyOptional, AllOptional, pure, Except.pure]
  | some e => by
    rw [copyOptional, AllOptional, ← ParsedExpression.copy_eq_iff e]
    simp [-bind_pure_comp, bind_eq_ok, return_eq_ok]
termination_by structural e => e

theorem copyAll_eq_iff :
    ∀ es : List (ParsedExpression V), copyAll es = .ok es ↔ AllMembers ParsedExpression.Kept es
  | [] => by simp [copyAll, AllMembers, pure, Except.pure]
  | e :: es => by
    rw [copyAll, AllMembers, ← ParsedExpression.copy_eq_iff e, ← copyAll_eq_iff es]
    simp [-bind_pure_comp, bind_eq_ok, return_eq_ok]
termination_by structural es => es

theorem copyOrders_eq_iff :
    ∀ orders : List (OrderType × ParsedExpression V),
      copyOrders orders = .ok orders ↔ AllOrders ParsedExpression.Kept orders
  | [] => by simp [copyOrders, AllOrders, pure, Except.pure]
  | (type, e) :: orders => by
    rw [copyOrders, AllOrders, ← ParsedExpression.copy_eq_iff e, ← copyOrders_eq_iff orders]
    simp [-bind_pure_comp, bind_eq_ok, return_eq_ok]
termination_by structural orders => orders

theorem TableRef.copy_eq_iff :
    ∀ ref : TableRef V, ref.copy = .ok ref ↔ ref.All ParsedExpression.Kept
  | .baseTable name schemaName tableName => by
    simp [TableRef.copy, TableRef.All, pure, Except.pure]
  | .crossProduct name left right => by
    rw [TableRef.copy, TableRef.All, ← TableRef.copy_eq_iff left, ← TableRef.copy_eq_iff right]
    simp [-bind_pure_comp, bind_eq_ok, return_eq_ok]
  | .join name left right condition type hiddenColumns => by
    rw [TableRef.copy, TableRef.All, ← TableRef.copy_eq_iff left, ← TableRef.copy_eq_iff right,
      ← ParsedExpression.copy_eq_iff condition]
    simp [-bind_pure_comp, bind_eq_ok, return_eq_ok]
  | .subquery name subquery columnNameAlias => by
    rw [TableRef.copy, TableRef.All, ← QueryNode.copy_eq_iff subquery]
    simp [-bind_pure_comp, bind_eq_ok, return_eq_ok]
  | .tableFunction name function => by
    rw [TableRef.copy, TableRef.All, ← ParsedExpression.copy_eq_iff function]
    simp [-bind_pure_comp, bind_eq_ok, return_eq_ok]
termination_by structural ref => ref

theorem copyFrom_eq_iff :
    ∀ ref : Option (TableRef V), copyFrom ref = .ok ref ↔ AllFrom ParsedExpression.Kept ref
  | none => by simp [copyFrom, AllFrom, pure, Except.pure]
  | some ref => by
    rw [copyFrom, AllFrom, ← TableRef.copy_eq_iff ref]
    simp [-bind_pure_comp, bind_eq_ok, return_eq_ok]
termination_by structural ref => ref

theorem QueryNode.copy_eq_iff :
    ∀ node : QueryNode V, node.copy = .ok node ↔ node.All ParsedExpression.Kept
  | .select selectDistinct limit offset orders selectList fromTable whereClause groups having => by
    rw [QueryNode.copy, QueryNode.All, ← copyAll_eq_iff selectList, ← copyFrom_eq_iff fromTable,
      ← copyOptional_eq_iff whereClause, ← copyAll_eq_iff groups, ← copyOptional_eq_iff having,
      ← copyOrders_eq_iff orders, ← copyOptional_eq_iff limit, ← copyOptional_eq_iff offset]
    simp [-bind_pure_comp, bind_eq_ok, return_eq_ok]
  | .setOperation selectDistinct limit offset orders setopType left right => by
    rw [QueryNode.copy, QueryNode.All, ← QueryNode.copy_eq_iff left, ← QueryNode.copy_eq_iff right,
      ← copyOrders_eq_iff orders, ← copyOptional_eq_iff limit, ← copyOptional_eq_iff offset]
    simp [-bind_pure_comp, bind_eq_ok, return_eq_ok]
termination_by structural node => node

end

/-- A copy is equal to its original exactly if all expressions of the tree are kept. -/
theorem copies_eq_iff :
    (∀ e : ParsedExpression V, e.copy = .ok e ↔ e.All ParsedExpression.Kept) ∧
      (∀ ref : TableRef V, ref.copy = .ok ref ↔ ref.All ParsedExpression.Kept) ∧
      ∀ node : QueryNode V, node.copy = .ok node ↔ node.All ParsedExpression.Kept :=
  ⟨ParsedExpression.copy_eq_iff, TableRef.copy_eq_iff, QueryNode.copy_eq_iff⟩

/-- The copy of `$1` is `$0`. -/
theorem copy_parameter_one :
    (ParsedExpression.parameter [] 1 : ParsedExpression Value).copy = .ok (.parameter [] 0) ∧
      (ParsedExpression.parameter [] 1 : ParsedExpression Value) ≠ .parameter [] 0 := by
  refine ⟨rfl, fun h => ?_⟩
  have hnumber := (ParsedExpression.parameter.inj h).2
  exact absurd hnumber (by decide)

end DuckDB
