import Mathlib.Data.List.Perm.Basic
import Mathlib.Logic.Function.Basic
import Mathlib.Tactic.Common

/-!
# Hash tables with chaining

A table is a function from bucket numbers to chains. A new entry goes to the front of its chain.
`Links` represents chains by heads and pointers.
-/

namespace Theory

open List Function

variable {α : Type*}

/-- The chains of a hash table. -/
abbrev Chains (α : Type*) := ℕ → List α

namespace Chains

/-- The table without entries. -/
def empty : Chains α := fun _ => []

/-- Puts an entry in front of the chain of a bucket. -/
def insert (chains : Chains α) (bucket : ℕ) (a : α) : Chains α :=
  Function.update chains bucket (a :: chains bucket)

/-- Inserts entries with their buckets, one after the other. -/
def insertAll (chains : Chains α) (entries : List (ℕ × α)) : Chains α :=
  entries.foldl (fun chains entry => chains.insert entry.1 entry.2) chains

variable {chains : Chains α} {entries : List α} {bucket : α → ℕ}

theorem insert_apply {bucket : ℕ} {a : α} {i : ℕ} :
    chains.insert bucket a i = if bucket = i then a :: chains i else chains i := by
  rw [insert, update_apply]
  by_cases h : i = bucket
  · simp [h]
  · simp [h, Ne.symm h]

theorem insertAll_apply {entries : List (ℕ × α)} {i : ℕ} :
    chains.insertAll entries i = ((entries.filter (·.1 = i)).map (·.2)).reverse ++ chains i := by
  induction entries generalizing chains with
  | nil => rfl
  | cons entry entries ih =>
    have hstep : chains.insertAll (entry :: entries) =
        (chains.insert entry.1 entry.2).insertAll entries := rfl
    rw [hstep, ih, insert_apply]
    by_cases h : entry.1 = i <;> simp [h]

/-- The table has exactly the given entries, each in its bucket. -/
def Stores (chains : Chains α) (bucket : α → ℕ) (entries : List α) : Prop :=
  ∀ i, (chains i).Perm (entries.filter (bucket · = i))

theorem stores_empty (bucket : α → ℕ) : (empty : Chains α).Stores bucket [] :=
  fun _ => List.Perm.nil

theorem Stores.of_perm {entries' : List α} (h : chains.Stores bucket entries)
    (hperm : entries.Perm entries') : chains.Stores bucket entries' :=
  fun i => (h i).trans (hperm.filter _)

theorem Stores.insertAll (h : chains.Stores bucket entries) (new : List α) :
    (chains.insertAll (new.map fun a => (bucket a, a))).Stores bucket (entries ++ new) := by
  intro i
  rw [insertAll_apply, filter_append, filter_map, map_map]
  have hnew : (new.filter ((fun e : ℕ × α => decide (e.1 = i)) ∘ fun a => (bucket a, a))).map
      ((fun e : ℕ × α => e.2) ∘ fun a => (bucket a, a)) = new.filter (bucket · = i) := by
    simp [comp_def]
  rw [hnew]
  exact ((reverse_perm _).append (h i)).trans perm_append_comm

/-- Entries that were inserted into the empty table are in the right buckets exactly when they were
put there. -/
theorem stores_insertAll_iff {log : List (ℕ × α)} (hperm : (log.map Prod.snd).Perm entries) :
    (empty.insertAll log).Stores bucket entries ↔ ∀ x ∈ log, x.1 = bucket x.2 := by
  constructor
  · intro h x hx
    have hmem : x.2 ∈ (empty.insertAll log : Chains α) x.1 := by
      rw [insertAll_apply, mem_append, mem_reverse, mem_map]
      exact .inl ⟨x, mem_filter.2 ⟨hx, decide_eq_true rfl⟩, rfl⟩
    exact (of_decide_eq_true (mem_filter.1 ((h x.1).mem_iff.1 hmem)).2).symm
  · intro h
    have hlog : log = (log.map Prod.snd).map fun a => (bucket a, a) := by
      rw [map_map]
      exact (map_id' log).symm.trans (map_congr_left fun x hx => Prod.ext (h x hx) rfl)
    rw [hlog]
    exact ((stores_empty bucket).insertAll _).of_perm hperm

end Chains

/-! ### Pointers -/

/-- The pointers of a table: to the first entry of each bucket, and from each entry to the next. -/
structure Links (α : Type*) where
  heads : ℕ → Option α := fun _ => none
  prev : α → Option α := fun _ => none

namespace Links

/-- The pointers lead through the entries of the list and then end. -/
def Follows (links : Links α) : Option α → List α → Prop
  | start, [] => start = none
  | start, a :: chain => start = some a ∧ links.Follows (links.prev a) chain

/-- The chains that the pointers of the buckets lead through. -/
def Represents (links : Links α) (chains : Chains α) : Prop :=
  ∀ bucket, links.Follows (links.heads bucket) (chains bucket)

variable {links : Links α} {chains : Chains α} {start : Option α} {chain chain' : List α}

theorem Follows.eq (h : links.Follows start chain) (h' : links.Follows start chain') :
    chain = chain' := by
  induction chain generalizing start chain' with
  | nil => cases chain' <;> simp_all [Follows]
  | cons a chain ih => cases chain' <;> grind [Follows]

variable [DecidableEq α] {a : α}

/-- Makes an entry the first one of a bucket. -/
def insert (links : Links α) (bucket : ℕ) (a : α) : Links α where
  heads := Function.update links.heads bucket (some a)
  prev := Function.update links.prev a (links.heads bucket)

/-- Inserts entries with their buckets, one after the other. -/
def insertAll (links : Links α) (entries : List (ℕ × α)) : Links α :=
  entries.foldl (fun links entry => links.insert entry.1 entry.2) links

/-- A new entry does not change the pointers of the others. -/
theorem Follows.insert (h : links.Follows start chain) (hnew : a ∉ chain) (bucket : ℕ) :
    (links.insert bucket a).Follows start chain := by
  induction chain generalizing start with
  | nil => exact h
  | cons b chain ih =>
    obtain ⟨hne, hnew⟩ := ne_and_not_mem_of_not_mem_cons hnew
    refine ⟨h.1, ?_⟩
    rw [show (links.insert bucket a).prev b = links.prev b from update_of_ne hne.symm ..]
    exact ih h.2 hnew

theorem Represents.insert (h : links.Represents chains) (hnew : ∀ i, a ∉ chains i) (bucket : ℕ) :
    (links.insert bucket a).Represents (chains.insert bucket a) := by
  intro i
  have hrest := (h i).insert (hnew i) bucket
  rw [Chains.insert_apply]
  split_ifs with hi
  · subst hi
    refine ⟨update_self .., ?_⟩
    rwa [show (links.insert bucket a).prev a = links.heads bucket from update_self ..]
  · rwa [show (links.insert bucket a).heads i = links.heads i from
      update_of_ne (Ne.symm hi) ..]

/-- **Pointers and chains**: linking new entries one after the other gives the chains that inserting
them gives. -/
theorem Represents.insertAll {log : List (ℕ × α)} (h : links.Represents chains)
    (hnodup : (log.map Prod.snd).Nodup) (hnew : ∀ x ∈ log, ∀ i, x.2 ∉ chains i) :
    (links.insertAll log).Represents (chains.insertAll log) := by
  induction log generalizing links chains with
  | nil => exact h
  | cons x log ih =>
    obtain ⟨hx, hlog⟩ := forall_mem_cons.1 hnew
    obtain ⟨hfirst, hnodup⟩ := nodup_cons.1 hnodup
    have hfresh : ∀ y ∈ log, ∀ i, y.2 ∉ chains.insert x.1 x.2 i := by
      intro y hy i
      have hne : y.2 ≠ x.2 := fun heq => hfirst (heq ▸ mem_map_of_mem hy)
      rw [Chains.insert_apply]
      split_ifs <;> simp [hne, hlog y hy i]
    exact ih (h.insert hx x.1) hnodup hfresh

end Links

end Theory
