import Mathlib.Data.List.Basic

/-!
# Chains of old versions

A versioned value has its current state and a chain of records, newest first. A record says which
change it belongs to (a tag) and what the state was before that change. A reader that sees some
changes and not others follows the chain until it meets a change it sees (`select`).

`Explains` relates such a chain to the history of the value, the list of all changes it went
through, newest first, of which the chain may have lost the oldest ones.
`Explains.select_eq`: if the changes a reader sees are closed under going back in the history and
the lost changes are among them, the reader gets the state those changes alone produce.
-/

namespace Theory.VersionChain

open List

variable {κ σ : Type*}

/-- What a reader sees: the state before the newest change that it does not see. -/
def select (visible : κ → Bool) : σ → List (κ × σ) → σ
  | current, [] => current
  | current, (tag, before) :: older => if visible tag then current else select visible before older

variable {visible : κ → Bool} {records : List (κ × σ)} {current : σ}

@[simp] theorem select_nil : select visible current [] = current := rfl

theorem select_cons {tag : κ} {before : σ} {older : List (κ × σ)} :
    select visible current ((tag, before) :: older) =
      if visible tag then current else select visible before older := rfl

theorem select_of_visible (current : σ) (h : ∀ r ∈ records, visible r.1) :
    select visible current records = current := by
  cases records with
  | nil => rfl
  | cons r records => rw [select, if_pos (h r (by simp))]

/-- Records of changes the reader sees can be dropped at the old end of the chain. -/
theorem select_append {oldest : List (κ × σ)} (h : ∀ r ∈ oldest, visible r.1) :
    select visible current (records ++ oldest) = select visible current records := by
  induction records generalizing current with
  | nil => exact select_of_visible current h
  | cons r records ih => rw [cons_append, select, select, ih]

/-! ### Histories -/

/-- The state a history leads to. -/
def replay (initial : σ) (history : List (κ × (σ → σ))) : σ :=
  history.foldr (fun change state => change.2 state) initial

@[simp] theorem replay_cons {initial : σ} {change : κ × (σ → σ)} {history : List (κ × (σ → σ))} :
    replay initial (change :: history) = change.2 (replay initial history) := rfl

/-- The records are those of the newest changes of the history, each with the state that the
history before its change leads to. -/
def Explains (initial : σ) : σ → List (κ × σ) → List (κ × (σ → σ)) → Prop
  | current, [], history => current = replay initial history
  | _, _ :: _, [] => False
  | current, (tag, before) :: records, change :: history =>
    tag = change.1 ∧ current = change.2 before ∧ Explains initial before records history

namespace Explains

variable {initial current before : σ} {tag : κ} {change : σ → σ}
  {records : List (κ × σ)} {history : List (κ × (σ → σ))} {oldest : List (κ × σ)} {c : κ × (σ → σ)}

theorem current_eq (h : Explains initial current records history) :
    current = replay initial history := by
  induction records generalizing current history with
  | nil => exact h
  | cons r records ih =>
    cases history with
    | nil => exact h.elim
    | cons c history => rw [replay_cons, ← ih h.2.2, h.2.1]

theorem push (h : Explains initial current records history) :
    Explains initial (change current) ((tag, current) :: records) ((tag, change) :: history) :=
  ⟨rfl, rfl, h⟩

theorem extend {further : σ → σ}
    (h : Explains initial current ((tag, before) :: records) ((tag, change) :: history)) :
    Explains initial (further current) ((tag, before) :: records)
      ((tag, further ∘ change) :: history) :=
  ⟨rfl, congrArg further h.2.1, h.2.2⟩

theorem pop (h : Explains initial current ((tag, before) :: records) (c :: history)) :
    Explains initial before records history :=
  h.2.2

/-- The oldest records can be lost. -/
theorem of_append (h : Explains initial current (records ++ oldest) history) :
    Explains initial current records history := by
  induction records generalizing current history with
  | nil => exact h.current_eq
  | cons r records ih =>
    cases history with
    | nil => exact h.elim
    | cons c history => exact ⟨h.1, h.2.1, ih h.2.2⟩

theorem retag {f : κ → κ} (h : Explains initial current records history) :
    Explains initial current (records.map (Prod.map f id)) (history.map (Prod.map f id)) := by
  induction records generalizing current history with
  | nil =>
    rw [map_nil, Explains, h.current_eq, replay, replay, foldr_map]
    rfl
  | cons r records ih =>
    cases history with
    | nil => exact h.elim
    | cons c history => exact ⟨congrArg f h.1, h.2.1, ih h.2.2⟩

theorem tags_eq (h : Explains initial current records history) :
    records.map Prod.fst = (history.take records.length).map Prod.fst := by
  induction records generalizing current history with
  | nil => simp
  | cons r records ih =>
    cases history with
    | nil => exact h.elim
    | cons c history =>
      simp only [map_cons, length_cons, take_succ_cons, ih h.2.2]
      rw [h.1]

/-- A change without record was without record before, or it has lost its record now. -/
theorem mem_drop_of_append (h : Explains initial current (records ++ oldest) history)
    (hc : c ∈ history.drop records.length) :
    c ∈ history.drop (records ++ oldest).length ∨ ∃ r ∈ oldest, r.1 = c.1 := by
  induction records generalizing current history with
  | cons r records ih =>
    cases history with
    | nil => exact h.elim
    | cons d history => exact ih h.2.2 hc
  | nil =>
    rw [nil_append] at h ⊢
    rw [length_nil, drop_zero, ← take_append_drop oldest.length history, mem_append] at hc
    refine hc.symm.imp id fun hc => ?_
    have htag : c.1 ∈ oldest.map Prod.fst := by
      rw [h.tags_eq]
      exact mem_map_of_mem hc
    obtain ⟨r, hr, heq⟩ := mem_map.1 htag
    exact ⟨r, hr, heq⟩

/-- **Reading a chain**: a reader that sees, with a change, all older ones and at least the changes
without record gets what the changes it sees produce. -/
theorem select_eq (h : Explains initial current records history)
    (hclosed : history.Pairwise fun newer older => visible newer.1 → visible older.1)
    (hlost : ∀ c ∈ history.drop records.length, visible c.1) :
    select visible current records = replay initial (history.filter (visible ·.1)) := by
  induction records generalizing current history with
  | nil =>
    have hall : history.filter (visible ·.1) = history := filter_eq_self.2 hlost
    rw [hall, select_nil, h.current_eq]
  | cons r records ih =>
    cases history with
    | nil => exact h.elim
    | cons c history =>
      obtain ⟨hc, hclosed⟩ := pairwise_cons.1 hclosed
      have htag : r.1 = c.1 := h.1
      by_cases hv : visible c.1
      · -- everything from here on is seen
        have hall : (c :: history).filter (visible ·.1) = c :: history := by
          refine filter_eq_self.2 fun d hd => ?_
          rcases mem_cons.1 hd with rfl | hd
          · exact hv
          · exact hc d hd hv
        rw [select, htag, if_pos hv, hall]
        exact h.current_eq
      · have hrest : (c :: history).filter (visible ·.1) = history.filter (visible ·.1) :=
          filter_cons_of_neg hv
        rw [select, htag, if_neg hv, hrest]
        exact ih h.2.2 hclosed hlost

end Explains

end Theory.VersionChain
