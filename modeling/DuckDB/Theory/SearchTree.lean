import Mathlib.Data.List.Basic
import Mathlib.Data.List.Perm.Subperm
import Mathlib.Order.Compare

/-!
# Search trees with repeated keys

A binary tree in which a new entry goes to the left of every smaller key and to the right of every
equal or greater one. The tree is never balanced, so the entries with one key all lie on the path
that a search for this key takes, in the order in which they were placed.

Every node has a label (its address); a node is removed by its label and that of its parent.

* `onPath_place`: placing an entry adds it at the end of the entries with its key and leaves the
  entries with other keys alone.
* `resetChild_place`: resetting the child of the parent of the node that was placed last takes it
  back, if all labels are different.
-/

namespace Theory

open List List.Perm

/-- A binary tree of keys with values. -/
inductive SearchTree (κ ρ : Type*) where
  | leaf
  | node (left : SearchTree κ ρ) (key : κ) (value : ρ) (right : SearchTree κ ρ)
deriving DecidableEq, Repr

namespace SearchTree

variable {κ ρ α : Type*}

/-- The values of all nodes. -/
def values : SearchTree κ ρ → List ρ
  | leaf => []
  | node left _ value right => value :: (values left ++ values right)

/-- The value at the root. -/
def rootValue? : SearchTree κ ρ → Option ρ
  | leaf => none
  | node _ _ value _ => some value

/-! ### Searching and placing -/

section Place

variable [Ord κ]

/-- Whether a search for `key` goes left at a node with the key `entry`. -/
def goesLeft (entry key : κ) : Bool :=
  compare entry key == .lt

/-- Places an entry at the end of the search path of its key. -/
def place (key : κ) (value : ρ) : SearchTree κ ρ → SearchTree κ ρ
  | leaf => node leaf key value leaf
  | node left entry v right =>
    if goesLeft entry key then node (place key value left) entry v right
    else node left entry v (place key value right)

/-- The values of the entries with an equal key on the search path. -/
def onPath (key : κ) : SearchTree κ ρ → List ρ
  | leaf => []
  | node left entry v right =>
    (if compare entry key = .eq then [v] else []) ++
      if goesLeft entry key then onPath key left else onPath key right

/-- The value of the last node on the search path of a key; `above` is the one above the tree. -/
def lastOnPath (key : κ) : Option ρ → SearchTree κ ρ → Option ρ
  | above, leaf => above
  | _, node left entry v right =>
    if goesLeft entry key then lastOnPath key (some v) left else lastOnPath key (some v) right

variable {above : Option ρ} {t : SearchTree κ ρ} {key : κ} {value : ρ}

/-- **Placing an entry** adds it to those with its key. -/
theorem onPath_place [Std.LawfulEqOrd κ] [DecidableEq κ] (key : κ) (value : ρ) (key' : κ)
    (t : SearchTree κ ρ) :
    (t.place key value).onPath key' = t.onPath key' ++ if key = key' then [value] else [] := by
  induction t with
  | leaf => simp [place, onPath]
  | node left entry v right ihl ihr =>
    by_cases hkey : key = key'
    · subst hkey
      by_cases hleft : goesLeft entry key <;> simp [place, onPath, hleft, ihl, ihr]
    · rw [if_neg hkey, append_nil] at ihl ihr ⊢
      by_cases hleft : goesLeft entry key <;> simp [place, onPath, hleft, ihl, ihr]

theorem values_place : (t.place key value).values.Perm (value :: t.values) := by
  induction t with
  | leaf => exact List.Perm.refl _
  | node left entry v right ihl ihr =>
    rw [place]
    split_ifs
    · refine (cons v (ihl.append_right right.values)).trans ?_
      exact swap value v _
    · refine (cons v (ihr.append_left left.values)).trans ?_
      refine (cons v perm_middle).trans ?_
      exact swap value v _

theorem lastOnPath_eq_none_iff : lastOnPath key above t = none ↔ above = none ∧ t = leaf := by
  induction t generalizing above with
  | leaf => simp [lastOnPath]
  | node left entry v right ihl ihr =>
    rw [lastOnPath]
    split_ifs <;> simp [ihl, ihr]

theorem mem_of_lastOnPath (h : lastOnPath key above t = some value) :
    above = some value ∨ value ∈ t.values := by
  induction t generalizing above with
  | leaf => exact .inl h
  | node left entry v right ihl ihr =>
    rw [lastOnPath] at h
    right
    rw [values, mem_cons, mem_append]
    split_ifs at h
    · exact (ihl h).imp (fun heq => (Option.some.inj heq).symm) .inl
    · exact (ihr h).imp (fun heq => (Option.some.inj heq).symm) .inr

end Place

/-! ### Removing nodes -/

section Remove

variable [DecidableEq α] (label : ρ → α)

/-- The subtree whose root has the given label. -/
def subtree? (a : α) : SearchTree κ ρ → Option (SearchTree κ ρ)
  | leaf => none
  | node left key v right =>
    if label v = a then some (node left key v right)
    else (subtree? a left).or (subtree? a right)

variable {t : SearchTree κ ρ} {child parent : α}

theorem values_subtree? {a : α} {s : SearchTree κ ρ} (h : subtree? label a t = some s) :
    s.values.Sublist t.values := by
  induction t with
  | leaf => simp [subtree?] at h
  | node left key v right ihl ihr =>
    rw [subtree?] at h
    split_ifs at h
    · cases h
      exact List.Sublist.refl _
    · rcases Option.or_eq_some_iff.1 h with h | ⟨-, h⟩
      · exact ((ihl h).trans (sublist_append_left _ _)).trans (sublist_cons_self _ _)
      · exact ((ihr h).trans (sublist_append_right _ _)).trans (sublist_cons_self _ _)

/-- Resets a child of the node with the label `parent`: the left one if it has the label `child`,
else the right one. -/
def resetChild (parent child : α) : SearchTree κ ρ → SearchTree κ ρ
  | leaf => leaf
  | node left key v right =>
    if label v = parent then
      if left.rootValue?.map label = some child then node leaf key v right
      else node left key v leaf
    else node (resetChild parent child left) key v (resetChild parent child right)

omit [DecidableEq α] in
/-- Hangs a tree below the leftmost node of another one. -/
def hangLeft (low : SearchTree κ ρ) : SearchTree κ ρ → SearchTree κ ρ
  | leaf => low
  | node left entry v right => node (hangLeft low left) entry v right

omit [DecidableEq α] in
/-- What is left of a tree when its root goes: the left child moves up, and its own right child
moves to the leftmost place of the right one. -/
def removeRoot : SearchTree κ ρ → SearchTree κ ρ
  | leaf => leaf
  | node leaf _ _ right => right
  | node left _ _ leaf => left
  | node (node left entry v low) _ _ right => node left entry v (hangLeft low right)

omit [DecidableEq α] in
theorem values_hangLeft (low t : SearchTree κ ρ) :
    (hangLeft low t).values.Perm (t.values ++ low.values) := by
  induction t with
  | leaf => exact List.Perm.refl _
  | node left entry v right ihl =>
    refine List.Perm.cons v ((ihl.append_right right.values).trans ?_)
    change (left.values ++ low.values ++ right.values).Perm
      (left.values ++ right.values ++ low.values)
    rw [append_assoc, append_assoc]
    exact append_left _ perm_append_comm

omit [DecidableEq α] in
theorem values_removeRoot (t : SearchTree κ ρ) : t.removeRoot.values.Subperm t.values := by
  fun_cases removeRoot t with
  | case1 => exact List.Subperm.refl _
  | case2 key value right => exact ((sublist_cons_self _ _)).subperm
  | case3 left key value => simpa [values] using (sublist_cons_self value left.values).subperm
  | case4 left entry v low key value right =>
    have hperm : (node left entry v (hangLeft low right)).values.Perm
        ((node left entry v low).values ++ right.values) := by
      refine cons v ?_
      change (left.values ++ (hangLeft low right).values).Perm
        (left.values ++ low.values ++ right.values)
      rw [append_assoc]
      refine append_left _ ((values_hangLeft low right).trans ?_)
      exact perm_append_comm
    exact hperm.subperm.trans (sublist_cons_self _ _).subperm

theorem values_resetChild : (resetChild label parent child t).values.Sublist t.values := by
  induction t with
  | leaf => exact List.Sublist.refl _
  | node left key v right ihl ihr =>
    rw [resetChild]
    split_ifs
    · exact List.Sublist.cons_cons v (sublist_append_right _ _)
    · simp [values]
    · exact List.Sublist.cons_cons v (ihl.append ihr)

variable {label}

theorem resetChild_of_not_mem (h : ∀ v ∈ t.values, label v ≠ parent) :
    resetChild label parent child t = t := by
  induction t with
  | leaf => rfl
  | node left key v right ihl ihr =>
    simp only [values, mem_cons, mem_append] at h
    rw [resetChild, if_neg (h v (.inl rfl)), ihl fun w hw => h w (.inr (.inl hw)),
      ihr fun w hw => h w (.inr (.inr hw))]

variable [Ord κ]

/-- The node that was placed, as a tree without children. -/
theorem subtree?_place {key : κ} {value : ρ} (hfresh : ∀ v ∈ t.values, label v ≠ label value) :
    subtree? label (label value) (t.place key value) = some (node leaf key value leaf) := by
  have hnone : ∀ s : SearchTree κ ρ, (∀ v ∈ s.values, label v ≠ label value) →
      subtree? label (label value) s = none := by
    intro s hs
    induction s with
    | leaf => rfl
    | node left entry v right ihl ihr =>
      simp only [values, mem_cons, mem_append] at hs
      rw [subtree?, if_neg (hs v (.inl rfl)), ihl fun w hw => hs w (.inr (.inl hw)),
        ihr fun w hw => hs w (.inr (.inr hw))]
      rfl
  induction t with
  | leaf => simp [place, subtree?]
  | node left entry v right ihl ihr =>
    simp only [values, mem_cons, mem_append] at hfresh
    have hv := hfresh v (.inl rfl)
    have hleft := fun w hw => hfresh w (.inr (.inl hw))
    have hright := fun w hw => hfresh w (.inr (.inr hw))
    rw [place]
    split_ifs
    · rw [subtree?, if_neg hv, ihl hleft]
      rfl
    · rw [subtree?, if_neg hv, ihr hright, hnone left hleft]
      rfl

/-- **The node placed last** is the child that is reset: its parent is the last node on the path. -/
theorem resetChild_place {key : κ} {value parent : ρ} (hdistinct : (t.values.map label).Nodup)
    (hfresh : ∀ v ∈ t.values, label v ≠ label value) (hparent : lastOnPath key none t = some parent)
    : resetChild label (label parent) (label value) (t.place key value) = t := by
  induction t with
  | leaf => simp [lastOnPath] at hparent
  | node left entry v right ihl ihr =>
    simp only [values, mem_cons, mem_append] at hfresh
    simp only [values, map_cons, map_append, nodup_cons, nodup_append,
      mem_append, mem_map, not_or, not_exists, not_and] at hdistinct
    obtain ⟨⟨hvleft, hvright⟩, hleft, hright, hdisjoint⟩ := hdistinct
    have hfleft := fun w hw => hfresh w (.inr (.inl hw))
    have hfright := fun w hw => hfresh w (.inr (.inr hw))
    -- a last node that does not depend on what is above it lies in the subtree
    have hbelow : ∀ s : SearchTree κ ρ, s ≠ leaf →
        lastOnPath key (some v) s = lastOnPath key none s := by
      intro s hs
      cases s with
      | leaf => exact absurd rfl hs
      | node => rfl
    rw [lastOnPath] at hparent
    rw [place]
    split_ifs at hparent ⊢
    · by_cases hleaf : left = leaf
      · subst hleaf
        obtain rfl : v = parent := by simpa [lastOnPath] using hparent
        simp [place, resetChild, rootValue?]
      · rw [hbelow left hleaf] at hparent
        have hmem : parent ∈ left.values := by
          simpa using mem_of_lastOnPath hparent
        rw [resetChild, if_neg fun heq => hvleft parent hmem heq.symm, ihl hleft hfleft hparent,
          resetChild_of_not_mem]
        intro w hw heq
        exact hdisjoint (label parent) ⟨parent, hmem, rfl⟩ (label w) ⟨w, hw, rfl⟩ heq.symm
    · by_cases hleaf : right = leaf
      · subst hleaf
        obtain rfl : v = parent := by simpa [lastOnPath] using hparent
        have hroot : left.rootValue?.map label ≠ some (label value) := by
          cases left with
          | leaf => simp [rootValue?]
          | node l k w r => simpa [rootValue?] using hfleft w (by simp [values])
        simp [resetChild, hroot]
      · rw [hbelow right hleaf] at hparent
        have hmem : parent ∈ right.values := by
          simpa using mem_of_lastOnPath hparent
        rw [resetChild, if_neg fun heq => hvright parent hmem heq.symm, ihr hright hfright hparent,
          resetChild_of_not_mem]
        intro w hw heq
        exact hdisjoint (label w) ⟨w, hw, rfl⟩ (label parent) ⟨parent, hmem, rfl⟩ heq

end Remove

end SearchTree

end Theory
