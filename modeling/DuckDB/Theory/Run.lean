import Mathlib.Data.List.Basic

/-!
# Runs of a deterministic machine

A machine is a function `step : S → O → S`; a run folds it over a list of operations. `Meets` says
that every step of a run meets a condition on the operation and the state it is taken in, and
`trace` collects what the steps emit.

* `Meets.invariant`: a property that every admissible step preserves holds at the end of a run.
-/

namespace Theory

theorem le_foldl_min_iff {α : Type*} {f : α → ℕ} {l : List α} {m n : ℕ} :
    m ≤ l.foldl (fun lowest a => min lowest (f a)) n ↔ m ≤ n ∧ ∀ a ∈ l, m ≤ f a := by
  induction l generalizing n with
  | nil => simp
  | cons a l ih => rw [List.foldl_cons, ih, Nat.le_min, List.forall_mem_cons, and_assoc]

variable {S O A E : Type*}

/-- Every step of the run of a list of operations meets `ok` in the state it is taken in. -/
def Meets (step : S → O → S) (ok : S → O → Prop) : S → List O → Prop
  | _, [] => True
  | s, o :: os => ok s o ∧ Meets step ok (step s o) os

/-- What the steps of a run emit, in order. -/
def trace (step : S → O → S) (emit : S → O → List E) : S → List O → List E
  | _, [] => []
  | s, o :: os => emit s o ++ trace step emit (step s o) os

section Meets

variable {step : S → O → S} {ok : S → O → Prop}
  {s : S} {os : List O} {ok' : S → O → Prop} {I : S → Prop}

instance Meets.decidable [∀ s o, Decidable (ok s o)] :
    ∀ (s : S) (os : List O), Decidable (Meets step ok s os)
  | _, [] => inferInstanceAs (Decidable True)
  | s, o :: os => @instDecidableAnd _ _ _ (Meets.decidable (step s o) os)

theorem meets_append {os' : List O} :
    Meets step ok s (os ++ os') ↔ Meets step ok s os ∧ Meets step ok (os.foldl step s) os' := by
  induction os generalizing s with
  | nil => simp [Meets]
  | cons o os ih => simp [Meets, ih, and_assoc]

theorem meets_and :
    Meets step (fun s o => ok s o ∧ ok' s o) s os ↔ Meets step ok s os ∧ Meets step ok' s os := by
  induction os generalizing s with
  | nil => simp [Meets]
  | cons o os ih =>
    simp only [Meets, ih]
    exact and_and_and_comm

theorem meets_of_forall (h : ∀ o ∈ os, ∀ s, ok s o) : Meets step ok s os := by
  induction os generalizing s with
  | nil => trivial
  | cons o os ih =>
    exact ⟨h o (by simp) s, ih fun o' ho' => h o' (by simp [ho'])⟩

/-- One condition implies another one in every state the run can get to. -/
theorem Meets.imp (hI : ∀ s o, I s → ok s o → I (step s o)) (h : ∀ s o, I s → ok s o → ok' s o)
    (hs : I s) (hm : Meets step ok s os) : Meets step ok' s os := by
  induction os generalizing s with
  | nil => trivial
  | cons o os ih => exact ⟨h s o hs hm.1, ih (hI s o hs hm.1) hm.2⟩

/-- Two conditions that say the same in every state the run can get to. -/
theorem meets_congr (hI : ∀ s o, I s → ok s o → I (step s o))
    (h : ∀ s o, I s → (ok s o ↔ ok' s o)) (hs : I s) : Meets step ok s os ↔ Meets step ok' s os :=
  ⟨Meets.imp hI (fun s o hs => (h s o hs).1) hs,
    Meets.imp (fun s o hs ho => hI s o hs ((h s o hs).2 ho)) (fun s o hs => (h s o hs).2) hs⟩

/-- **Invariants**: what every admissible step preserves holds at the end of the run. -/
theorem Meets.invariant (hstep : ∀ s o, ok s o → I s → I (step s o)) (hm : Meets step ok s os)
    (hI : I s) : I (os.foldl step s) := by
  induction os generalizing s with
  | nil => exact hI
  | cons o os ih => exact ih hm.2 (hstep s o hm.1 hI)

end Meets

theorem trace_append (step : S → O → S) (emit : S → O → List E) (s : S) (os os' : List O) :
    trace step emit s (os ++ os') =
      trace step emit s os ++ trace step emit (os.foldl step s) os' := by
  induction os generalizing s with
  | nil => rfl
  | cons o os ih => simp [trace, ih]

end Theory
