import Mathlib.Data.List.Basic

/-!
# Picking elements by flags

`pick flags as` keeps the elements of `as` whose flag is set, in order. `rank flags n` is the
position that the element at position `n` has among them. Changing an element and picking commute
(`pick_modify`), with the position renumbered.
-/

namespace Theory

variable {α β : Type*} {flags : List Bool} {as : List α}

/-- The elements whose flag is set. -/
def pick : List Bool → List α → List α
  | true :: flags, a :: as => a :: pick flags as
  | false :: flags, _ :: as => pick flags as
  | _, _ => []

/-- How many of the first `n` flags are set. -/
def rank : List Bool → ℕ → ℕ
  | _, 0 => 0
  | [], _ + 1 => 0
  | true :: flags, n + 1 => rank flags n + 1
  | false :: flags, n + 1 => rank flags n

variable {a : α}

@[simp] theorem pick_nil_left : pick [] as = [] := by
  cases as <;> rfl

@[simp] theorem pick_nil_right : pick flags ([] : List α) = [] := by
  cases flags with
  | nil => rfl
  | cons b flags => cases b <;> rfl

@[simp] theorem pick_cons_true : pick (true :: flags) (a :: as) = a :: pick flags as := rfl

@[simp] theorem pick_cons_false : pick (false :: flags) (a :: as) = pick flags as := rfl

@[simp] theorem rank_zero : rank flags 0 = 0 := by
  cases flags with
  | nil => rfl
  | cons b flags => cases b <;> rfl

theorem pick_append {flags' : List Bool} {as' : List α} (h : flags.length = as.length) :
    pick (flags ++ flags') (as ++ as') = pick flags as ++ pick flags' as' := by
  induction flags generalizing as with
  | nil => simp [List.length_eq_zero_iff.1 h.symm]
  | cons b flags ih =>
    cases as with
    | nil => simp at h
    | cons a as =>
      have hrest : pick (flags ++ flags') (as ++ as') = pick flags as ++ pick flags' as' :=
        ih (by simpa using h)
      cases b <;> simp [hrest]

theorem pick_map {f : α → β} : pick flags (as.map f) = (pick flags as).map f := by
  induction flags generalizing as with
  | nil => simp
  | cons b flags ih =>
    cases as with
    | nil => simp
    | cons a as => cases b <;> simp [ih]

theorem getElem?_pick {n : ℕ} (h : flags[n]? = some true) (as : List α) :
    (pick flags as)[rank flags n]? = as[n]? := by
  induction flags generalizing as n with
  | nil => simp at h
  | cons b flags ih =>
    cases as with
    | nil => simp
    | cons a as =>
      cases n with
      | zero =>
        obtain rfl : b = true := by simpa using h
        simp
      | succ n =>
        have ih := ih (n := n) (by simpa using h) as
        cases b <;> simpa [rank] using ih

theorem pick_modify {n : ℕ} (h : flags[n]? = some true) (f : α → α) (as : List α) :
    pick flags (as.modify n f) = (pick flags as).modify (rank flags n) f := by
  induction flags generalizing as n with
  | nil => simp at h
  | cons b flags ih =>
    cases as with
    | nil => simp
    | cons a as =>
      cases n with
      | zero =>
        obtain rfl : b = true := by simpa using h
        simp
      | succ n =>
        have ih := ih (n := n) (by simpa using h) as
        cases b <;> simpa [rank] using ih

theorem mem_of_mem_pick (h : a ∈ pick flags as) : a ∈ as := by
  induction flags generalizing as with
  | nil => simp at h
  | cons b flags ih =>
    cases as with
    | nil => simp at h
    | cons a' as =>
      cases b with
      | false => exact List.mem_cons_of_mem _ (ih (by simpa using h))
      | true =>
        rcases List.mem_cons.1 h with rfl | h
        · exact List.mem_cons_self
        · exact List.mem_cons_of_mem _ (ih h)

theorem filterMap_pick {f : α → Option β} (hlength : flags.length = as.length)
    (h : ∀ (n : ℕ) a, flags[n]? = some false → as[n]? = some a → f a = none) :
    (pick flags as).filterMap f = as.filterMap f := by
  induction flags generalizing as with
  | nil => simp [List.length_eq_zero_iff.1 hlength.symm]
  | cons b flags ih =>
    cases as with
    | nil => simp
    | cons a as =>
      have hrest : (pick flags as).filterMap f = as.filterMap f :=
        ih (by simpa using hlength) fun n a' hn ha => h (n + 1) a' (by simpa using hn)
          (by simpa using ha)
      cases b with
      | true => simp [List.filterMap_cons, hrest]
      | false => simp [hrest, h 0 a rfl rfl]

/-- The position after the last one is the number of elements picked. -/
theorem rank_length (h : flags.length = as.length) :
    rank flags flags.length = (pick flags as).length := by
  induction flags generalizing as with
  | nil => simp
  | cons b flags ih =>
    cases as with
    | nil => simp at h
    | cons a as =>
      have hrest : rank flags flags.length = (pick flags as).length := ih (by simpa using h)
      cases b <;> simp [rank, hrest]

theorem rank_length_append_true (flags : List Bool) :
    rank (flags ++ [true]) (flags ++ [true]).length = rank flags flags.length + 1 := by
  induction flags with
  | nil => rfl
  | cons b flags ih => cases b <;> simpa [rank] using ih

end Theory
