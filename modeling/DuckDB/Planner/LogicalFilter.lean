import DuckDB.Planner.Expression
import Mathlib.Algebra.GroupWithZero.Nat
import Mathlib.Tactic.Common

/-!
# Splitting predicates

`LogicalFilter::SplitPredicates` replaces the conjunctions of a list of predicates by their parts
(`planner/operator/logical_filter.cpp`).

* `exists_splitLoop`: the loop stops, whatever it has moved to the end of the list so far.
* `splitPredicates_spec`: no conjunction is left, and the same rows pass.
-/

namespace DuckDB.LogicalFilter

open Expression List

variable {V F : Type*}

/-- The loop of `SplitPredicates` from the place `i` on; without fuel it has no result. -/
def splitLoop : ℕ → ℕ → List (Expression V F) → Bool → Option (List (Expression V F) × Bool)
  | 0, _, _, _ => none
  | fuel + 1, i, expressions, foundConjunction =>
    match expressions[i]? with
    | none => some (expressions, foundConjunction)
    | some (.conjunction .and left right) =>
      -- the right child is checked again, at the same place
      splitLoop fuel i ((expressions ++ [left]).set i right) true
    | some _ => splitLoop fuel (i + 1) expressions foundConjunction

/-- `SplitPredicates`: the list, and whether there was a conjunction. -/
def splitPredicates (fuel : ℕ) (expressions : List (Expression V F)) :
    Option (List (Expression V F) × Bool) :=
  splitLoop fuel 0 expressions false

/-- The AND at the top of a predicate. -/
def IsConjunction (e : Expression V F) : Prop :=
  ∃ left right, e = .conjunction .and left right

/-- The turns that the loop takes for a predicate. -/
def turns : Expression V F → ℕ
  | .conjunction .and left right => turns left + turns right + 1
  | _ => 1

/-- The predicates accept a row if it passes all of them. -/
def Accepts [Payload V] (ctx : Context V F) (row : Row V) (expressions : List (Expression V F)) :
    Prop :=
  ∀ e ∈ expressions, e.passes ctx row

theorem turns_of_not_isConjunction {e : Expression V F} (h : ¬IsConjunction e) : turns e = 1 := by
  cases e with
  | conjunction type left right =>
    cases type with
    | and => exact absurd ⟨left, right, rfl⟩ h
    | or => rfl
  | _ => rfl

theorem splitLoop_of_not_isConjunction {e : Expression V F} (h : ¬IsConjunction e) (fuel : ℕ)
    {i : ℕ} {expressions : List (Expression V F)} (hi : expressions[i]? = some e) (found : Bool) :
    splitLoop (fuel + 1) i expressions found = splitLoop fuel (i + 1) expressions found := by
  rw [splitLoop, hi]
  cases e with
  | conjunction type left right =>
    cases type with
    | and => exact absurd ⟨left, right, rfl⟩ h
    | or => rfl
  | _ => rfl

variable [Payload V]

theorem passes_and (ctx : Context V F) (row : Row V) (left right : Expression V F) :
    passes ctx row (.conjunction .and left right) ↔ passes ctx row left ∧ passes ctx row right := by
  unfold passes
  rw [eval, truth_ofTruth]
  generalize Expression.truth (left.eval ctx row) = a
  generalize Expression.truth (right.eval ctx row) = b
  rcases a with _ | _ | _ <;> rcases b with _ | _ | _ <;> simp [Theory.and3]

theorem exists_splitLoop (before rest : List (Expression V F)) (found : Bool)
    (hbefore : ∀ e ∈ before, ¬IsConjunction e) :
    ∃ result, (∀ fuel > (rest.map turns).sum,
        splitLoop fuel before.length (before ++ rest) found = some result) ∧
      (∀ e ∈ result.1, ¬IsConjunction e) ∧
      ∀ ctx row, Accepts ctx row result.1 ↔ Accepts ctx row (before ++ rest) := by
  induction hn : (rest.map turns).sum using Nat.strong_induction_on
    generalizing before rest found with
  | _ n ih =>
  -- one turn of the loop, with the fuel that is left
  have hturn : ∀ {result}, (∀ fuel ≥ n,
      splitLoop (fuel + 1) before.length (before ++ rest) found = some result) →
        ∀ fuel > n, splitLoop fuel before.length (before ++ rest) found = some result := by
    intro result h fuel hfuel
    obtain ⟨fuel, rfl⟩ := Nat.exists_eq_add_one.2 (Nat.zero_lt_of_lt hfuel)
    exact h fuel (by omega)
  cases rest with
  | nil =>
    refine ⟨(before, found), hturn fun fuel _ => ?_, hbefore, fun ctx row => ?_⟩
    · simp [splitLoop]
    · rw [append_nil]
  | cons e rest =>
    have he : (before ++ e :: rest)[before.length]? = some e := by simp
    rw [map_cons, sum_cons] at hn
    by_cases hand : IsConjunction e
    · obtain ⟨left, right, rfl⟩ := hand
      have hsum : ((right :: (rest ++ [left])).map turns).sum + 1 = n := by
        simp only [map_cons, map_append, map_nil, sum_cons, sum_append,
          sum_nil, turns] at hn ⊢
        omega
      obtain ⟨result, hrun, hnone, hsame⟩ :=
        ih _ (by omega) before (right :: (rest ++ [left])) true hbefore rfl
      refine ⟨result, hturn fun fuel hfuel => ?_, hnone, fun ctx row => (hsame ctx row).trans ?_⟩
      · rw [splitLoop, he, ← hrun fuel (by omega)]
        simp
      · simp only [Accepts, mem_append, mem_cons, not_mem_nil, or_false, or_imp,
          forall_and, forall_eq, passes_and]
        tauto
    · rw [turns_of_not_isConjunction hand] at hn
      have hbefore' : ∀ e' ∈ before ++ [e], ¬IsConjunction e' := by
        intro e' he'
        rcases mem_append.1 he' with he' | he'
        · exact hbefore e' he'
        · rwa [mem_singleton.1 he']
      obtain ⟨result, hrun, hnone, hsame⟩ := ih _ (by omega) (before ++ [e]) rest found hbefore' rfl
      rw [length_append, length_singleton, append_assoc] at hrun
      refine ⟨result, hturn fun fuel hfuel => ?_, hnone, fun ctx row => ?_⟩
      · rw [splitLoop_of_not_isConjunction hand fuel he]
        exact hrun fuel (by omega)
      · rw [hsame ctx row, append_assoc, singleton_append]

/-- **Splitting predicates** stops, leaves no conjunction in the list, and keeps the rows that
pass. -/
theorem splitPredicates_spec (expressions : List (Expression V F)) :
    ∃ result, (∃ n, ∀ fuel ≥ n, splitPredicates fuel expressions = some result) ∧
      (∀ e ∈ result.1, ¬IsConjunction e) ∧
      ∀ ctx row, Accepts ctx row result.1 ↔ Accepts ctx row expressions := by
  obtain ⟨result, hrun, hnone, hsame⟩ := exists_splitLoop [] expressions false (by simp)
  exact ⟨result, ⟨(expressions.map turns).sum + 1, hrun⟩, hnone, hsame⟩

end DuckDB.LogicalFilter
