import Mathlib.Order.Basic
import Mathlib.Tactic.Common

/-!
# Three-valued logic

Truth values with an unknown one: `none` is unknown. A condition passes if its value is
`some true`, so the lemmas say when that is the case.
-/

namespace Theory

/-- Conjunction: false if one side is false, unknown if otherwise one side is unknown. -/
def and3 : Option Bool → Option Bool → Option Bool
  | some false, _ => some false
  | _, some false => some false
  | some true, some true => some true
  | _, _ => none

/-- Disjunction: true if one side is true, unknown if otherwise one side is unknown. -/
def or3 : Option Bool → Option Bool → Option Bool
  | some true, _ => some true
  | _, some true => some true
  | some false, some false => some false
  | _, _ => none

/-- Negation. -/
def not3 : Option Bool → Option Bool
  | some b => some !b
  | none => none

end Theory
