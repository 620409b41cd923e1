import Mathlib.Data.List.DropRight
import Mathlib.Data.List.Perm.Basic
import Mathlib.Tactic.Common

/-!
# Quicksort in an array

An array is a list; a read or a write outside of it, and a loop that needs more iterations than it
is given, have no result. The first pass writes the entries to the two ends of the array and the
pivot between them; both parts are then sorted in place around the entries in their middle.

`up` says which entries may stay on the left of a pivot and `down` which may stay on its right; they
may overlap.

## Main results

- `exists_inplace` — a part of an array is sorted and the rest left alone
- `exists_sort` — the two sorted parts of the result
-/

namespace Theory.Quicksort

open List

variable {α : Type}

/-! ### The algorithm -/

/-- Exchanges two entries. -/
def swap (a : List α) (i j : ℕ) : Option (List α) := do
  let x ← a[i]?
  let y ← a[j]?
  return (a.set i y).set j x

/-- Writes an entry. -/
def write (a : List α) (i : ℕ) (x : α) : Option (List α) :=
  if i < a.length then some (a.set i x) else none

/-- The first pass: writes the entries to the two ends of the array, by the predicate. -/
def distribute (p : α → Bool) : List α → ℕ → ℕ → List α → Option (List α × ℕ × ℕ)
  | [], low, high, a => some (a, low, high)
  | x :: rest, low, high, a =>
    if p x then (write a low x).bind (distribute p rest (low + 1) high)
    else (write a high x).bind (distribute p rest low (high - 1))

/-- The first pass, and the pivot where its two ends meet. -/
def initial (p : α → Bool) (pivot : α) (rest : List α) (count : ℕ) (a : List α) :
    Option (List α × ℕ) := do
  let (a, low, high) ← distribute p rest 0 (count - 1) a
  if low = high then return (← write a low pivot, low) else none

section Partition

variable (up down : α → Bool)

/-- Moves `i` over the entries that may stay on the left, for `n` entries at most. -/
def scanUp (a : List α) : ℕ → ℕ → Option ℕ
  | 0, i => some i
  | n + 1, i => do
    let x ← a[i]?
    if up x then scanUp a n (i + 1) else return i

/-- Moves `j` over the entries that may stay on the right, while it is not below `i`. -/
def scanDown (a : List α) (i : ℕ) : ℕ → Option ℕ
  | 0 => if i = 0 then none else some 0
  | j + 1 =>
    if i ≤ j + 1 then do
      let x ← a[j + 1]?
      if down x then scanDown a i j else return j + 1
    else some (j + 1)

/-- Exchanges the entries that are on the wrong side until `i` and `j` have met. -/
def partitionLoop : ℕ → ℕ → ℕ → List α → Option (List α × ℕ)
  | 0, i, j, a => if i ≤ j then none else some (a, i)
  | fuel + 1, i, j, a =>
    if i ≤ j then do
      let i ← scanUp up a (j + 1 - i) i
      let j ← scanDown down a i j
      let a ← if i < j then swap a i j else some a
      partitionLoop fuel i j a
    else some (a, i)

end Partition

section Inplace

variable (up down : α → α → Bool)

/-- Sorts the entries from `left` to `right`. -/
def inplace : ℕ → ℕ → ℕ → List α → Option (List α)
  | 0, left, right, a => if right ≤ left then some a else none
  | fuel + 1, left, right, a =>
    if right ≤ left then some a
    else do
      let middle := left + (right - left) / 2
      let pivot ← a[middle]?
      let a ← swap a middle left
      let (a, i) ← partitionLoop (up · pivot) (down · pivot) (right - left + 1) (left + 1) right a
      let a ← swap a (i - 1) left
      let a ← inplace fuel left (i - 1 - 1) a
      inplace fuel (i - 1 + 1) right a

/-- Sorts the entries `pivot :: rest` into the array. -/
def sort (p : α → Bool) (pivot : α) (rest : List α) (count : ℕ) (a : List α) :
    Option (List α) := do
  let (a, part) ← initial p pivot rest count a
  let a ← inplace up down count 0 part a
  inplace up down count (part + 1) (count - 1) a

end Inplace

/-! ### Single steps -/

theorem swap_self (A C : List α) (x : α) :
    swap (A ++ x :: C) A.length A.length = some (A ++ x :: C) := by
  simp [swap]

theorem swap_append (A B C : List α) (x y : α) :
    swap (A ++ x :: (B ++ y :: C)) A.length (A.length + (B.length + 1)) =
      some (A ++ y :: (B ++ x :: C)) := by
  simp [swap]

theorem swap_append' (A B C : List α) (x y : α) :
    swap (A ++ x :: (B ++ y :: C)) (A.length + (B.length + 1)) A.length =
      some (A ++ y :: (B ++ x :: C)) := by
  simp [swap]

theorem write_append (A C : List α) (x y : α) :
    write (A ++ x :: C) A.length y = some (A ++ y :: C) := by
  simp [write]

theorem exists_distribute (p : α → Bool) (rest A G B : List α) (hlength : G.length = rest.length + 1) :
    ∃ g, distribute p rest A.length (A.length + rest.length) (A ++ G ++ B) =
      some (A ++ rest.filter p ++ g :: ((rest.filter (!p ·)).reverse ++ B),
        A.length + (rest.filter p).length, A.length + (rest.filter p).length) := by
  induction rest generalizing A G B with
  | nil =>
    obtain ⟨g, rfl⟩ := length_eq_one_iff.1 hlength
    exact ⟨g, by simp [distribute]⟩
  | cons x rest ih =>
    rw [distribute]
    cases hx : p x
    · obtain ⟨G, y, rfl⟩ := eq_nil_or_concat G |>.resolve_left (by rintro rfl; simp at hlength)
      have hG : G.length = rest.length + 1 := by simpa using hlength
      have hwrite := write_append (A ++ G) B y x
      simp only [length_append, hG, append_assoc] at hwrite
      obtain ⟨g, hg⟩ := ih A G (x :: B) hG
      refine ⟨g, ?_⟩
      simp only [append_assoc, length_cons, singleton_append, concat_eq_append] at hg ⊢
      simp [hwrite, hg, hx]
    · cases G with
      | nil => simp at hlength
      | cons y G =>
        have hwrite := write_append A (G ++ B) y x
        obtain ⟨g, hg⟩ := ih (A ++ [x]) G B (by simpa using hlength)
        refine ⟨g, ?_⟩
        simpa [hwrite, hx, Nat.add_assoc, Nat.add_comm 1] using hg

theorem exists_initial (p : α → Bool) (pivot : α) (rest G B : List α)
    (hlength : G.length = rest.length + 1) : initial p pivot rest (rest.length + 1) (G ++ B) =
      some (rest.filter p ++ pivot :: ((rest.filter (!p ·)).reverse ++ B),
        (rest.filter p).length) := by
  obtain ⟨g, hg⟩ := exists_distribute p rest [] G B hlength
  simp only [length_nil, Nat.zero_add, nil_append] at hg
  simp [initial, hg, write_append]

/-! ### In place -/

section Partition

variable {up down : α → Bool} {A : List α}

theorem scanUp_eq (A M B : List α) :
    scanUp up (A ++ (M ++ B)) M.length A.length = some (A.length + (M.takeWhile up).length) := by
  induction M generalizing A with
  | nil => rfl
  | cons x M ih =>
    have hget : (A ++ (x :: M ++ B))[A.length]? = some x := by simp
    rw [length_cons, scanUp, hget]
    cases hx : up x
    · simp [hx]
    · have hih := ih (A ++ [x])
      simpa [hx, Nat.add_assoc, Nat.add_comm 1] using hih

theorem scanDown_eq (down : α → Bool) (hA : A ≠ []) (M B : List α) :
    scanDown down (A ++ (M ++ B)) A.length (A.length + M.length - 1) =
      some (A.length + (M.rdropWhile down).length - 1) := by
  have hpos := length_pos_iff.2 hA
  induction M using reverseRecOn generalizing B with
  | nil =>
    obtain ⟨j, hj⟩ := Nat.exists_eq_succ_of_ne_zero hpos.ne'
    simp only [length_nil, Nat.add_zero, rdropWhile_nil, hj, Nat.succ_sub_one]
    cases j with
    | zero => rfl
    | succ j => rw [scanDown, if_neg (by omega)]
  | append_singleton M x ih =>
    obtain ⟨j, hj⟩ := Nat.exists_eq_succ_of_ne_zero (by omega : A.length + M.length ≠ 0)
    have hget : (A ++ (M ++ [x] ++ B))[j + 1]? = some x := by
      rw [← Nat.succ_eq_add_one, ← hj]
      simp
    have hih := ih ([x] ++ B)
    rw [hj, Nat.succ_sub_one] at hih
    simp only [length_append, length_singleton, ← Nat.add_assoc, hj, Nat.add_sub_cancel]
    rw [Nat.succ_eq_add_one, scanDown, if_pos (by omega), hget]
    cases hx : down x
    · rw [rdropWhile_concat_neg _ _ _ (by simp [hx])]
      simp [hx, ← Nat.add_assoc, hj]
    · rw [rdropWhile_concat_pos _ _ _ hx]
      simpa [hx] using hih

/-- Both loops: what they leave between them begins and ends with entries on the wrong side. -/
theorem exists_scan (htotal : ∀ x, up x ∨ down x) (hA : A ≠ []) (M B : List α) :
    ∃ U N D, M = U ++ (N ++ D) ∧ M.dropWhile up = N ++ D ∧ (∀ x ∈ U, up x) ∧ (∀ x ∈ D, down x) ∧
      (N = [] ∨ ∃ x N' y, N = x :: (N' ++ [y]) ∧ down x ∧ up y) ∧
      scanUp up (A ++ (M ++ B)) M.length A.length = some (A ++ U).length ∧
      scanDown down (A ++ (M ++ B)) (A ++ U).length (A.length + M.length - 1) =
        some ((A ++ U).length + N.length - 1) := by
  have hsplit : M.takeWhile up ++ M.dropWhile up = M := takeWhile_append_dropWhile
  have hdrop := rdropWhile_append_rtakeWhile (p := down) (l := M.dropWhile up)
  refine ⟨M.takeWhile up, (M.dropWhile up).rdropWhile down, (M.dropWhile up).rtakeWhile down,
    by rw [hdrop, hsplit], hdrop.symm, fun x hx => mem_takeWhile_imp hx,
    fun x hx => mem_rtakeWhile_imp hx, ?_, by rw [scanUp_eq, length_append], ?_⟩
  · rcases hN : (M.dropWhile up).rdropWhile down with _ | ⟨x, N⟩
    · exact .inl rfl
    · have hlast := rdropWhile_last_not down (M.dropWhile up) (by simp [hN])
      have hhead := head?_dropWhile_not up M
      rw [← hdrop, hN] at hhead
      change up x = false at hhead
      rcases eq_nil_or_concat N with rfl | ⟨N, y, rfl⟩
      · simp only [hN, getLast_singleton] at hlast
        exact absurd (htotal x) (by simp [hlast, hhead])
      · simp only [hN, concat_eq_append] at hlast
        refine .inr ⟨x, N, y, by simp, (htotal x).resolve_left (by simp [hhead]), ?_⟩
        exact (htotal y).resolve_right (by simpa using hlast)
  · have hscan := scanDown_eq down (append_ne_nil_of_left_ne_nil hA (M.takeWhile up))
      (M.dropWhile up) B
    have hlength := congrArg length hsplit
    rw [append_assoc, ← append_assoc (M.takeWhile up), hsplit] at hscan
    rw [← hscan]
    congr 1
    simp only [length_append] at hlength ⊢
    omega

theorem partitionLoop_nil (hA : A ≠ []) (fuel : ℕ) (a : List α) :
    partitionLoop up down fuel A.length (A.length - 1) a = some (a, A.length) := by
  have hlt : ¬A.length ≤ A.length - 1 := by
    have hpos := length_pos_iff.2 hA
    omega
  cases fuel <;> rw [partitionLoop, if_neg hlt]

/-- The entries behind `A` are divided into those for the left and those for the right. -/
theorem exists_partitionLoop (up down : α → Bool) (htotal : ∀ x, up x ∨ down x) (fuel : ℕ)
    (hA : A ≠ []) (M B : List α) (hfuel : (M.dropWhile up).length < fuel ∨ M = []) :
    ∃ L H, partitionLoop up down fuel A.length (A.length + M.length - 1) (A ++ (M ++ B)) =
        some (A ++ (L ++ (H ++ B)), (A ++ L).length) ∧
      (L ++ H).Perm M ∧ (∀ x ∈ L, up x) ∧ ∀ x ∈ H, down x := by
  induction fuel generalizing A M B with
  | zero =>
    obtain rfl : M = [] := hfuel.resolve_left (Nat.not_lt_zero _)
    exact ⟨[], [], by simpa using partitionLoop_nil hA 0 (A ++ B), .nil, by simp, by simp⟩
  | succ fuel ih =>
    by_cases hM : M = []
    · subst hM
      exact ⟨[], [], by simpa using partitionLoop_nil hA (fuel + 1) (A ++ B), .nil, by simp, by simp⟩
    · have hpos := length_pos_iff.2 hM
      obtain ⟨U, N, D, hsplit, hdrop, hU, hD, hN, hscanUp, hscanDown⟩ := exists_scan htotal hA M B
      have hAU : A ++ U ≠ [] := append_ne_nil_of_left_ne_nil hA U
      have hrange : A.length + M.length - 1 + 1 - A.length = M.length := by omega
      rw [partitionLoop, if_pos (by omega), hrange, hscanUp, Option.bind_eq_bind, Option.bind_some,
        hscanDown, Option.bind_eq_bind, Option.bind_some]
      rcases hN with rfl | ⟨x, N, y, rfl, hx, hy⟩
      · refine ⟨U, D, ?_, by simp [hsplit], hU, hD⟩
        rw [if_neg (by simp), Option.bind_some, hsplit]
        simpa using partitionLoop_nil hAU fuel (A ++ (U ++ (D ++ B)))
      · have hswap := swap_append (A ++ U) N (D ++ B) x y
        obtain ⟨L, H, hloop, hperm, hL, hH⟩ := ih hAU (y :: (N ++ [x])) (D ++ B) (.inl (by
          have hle := length_dropWhile_le up (N ++ [x])
          have hlt := hfuel.resolve_right hM
          rw [hdrop] at hlt
          simp only [dropWhile_cons, hy, if_true, length_append, length_cons] at hle hlt ⊢
          omega))
        refine ⟨U ++ L, H ++ D, ?_, ?_, ?_, ?_⟩
        · have hlength : (A ++ U).length + (x :: (N ++ [y])).length - 1 =
            (A ++ U).length + (N.length + 1) := by simp
          have hlength' : (A ++ U).length + (y :: (N ++ [x])).length - 1 =
            (A ++ U).length + (N.length + 1) := by simp
          simp only [append_assoc, cons_append, nil_append, hlength'] at hswap hloop
          rw [if_pos (by rw [hlength]; omega), hlength, hsplit]
          simp only [append_assoc, cons_append, nil_append]
          rw [hswap, Option.bind_some, hloop]
        · have hxy : (y :: (N ++ [x])).Perm (x :: (N ++ [y])) :=
            ((perm_append_singleton x N).cons y).trans <|
              (Perm.swap x y N).trans ((perm_append_singleton y N).symm.cons x)
          rw [hsplit, append_assoc, ← append_assoc L]
          exact ((hperm.trans hxy).append_right D).append_left U
        · simpa [or_imp, forall_and] using ⟨hU, hL⟩
        · simpa [or_imp, forall_and] using ⟨hH, hD⟩

end Partition

/-- The entry `k` of a part is moved to its front. -/
theorem exists_swap_front (A M B : List α) {k : ℕ} (hk : k < M.length) :
    ∃ x R, (A ++ (M ++ B))[A.length + k]? = some x ∧
      swap (A ++ (M ++ B)) (A.length + k) A.length = some (A ++ (x :: R ++ B)) ∧
      (x :: R).Perm M := by
  cases M with
  | nil => exact absurd hk (Nat.not_lt_zero k)
  | cons x M =>
    cases k with
    | zero => exact ⟨x, M, by simp, swap_self A (M ++ B) x, .refl _⟩
    | succ k =>
      obtain ⟨N, y, C, rfl, rfl⟩ : ∃ N y C, M = N ++ y :: C ∧ k = N.length := by
        have hlt : k < M.length := by simpa using hk
        exact ⟨M.take k, M[k], M.drop (k + 1), by simp, by simp [hlt.le]⟩
      have hswap := swap_append' A N (C ++ B) x y
      refine ⟨y, N ++ x :: C, by simp, by simpa using hswap, ?_⟩
      exact (perm_middle.cons y).trans ((Perm.swap x y _).trans (perm_middle.symm.cons x))

/-- The pivot is moved behind the entries for its left. -/
theorem exists_swap_back (A L B : List α) (x : α) :
    ∃ L', swap (A ++ (x :: L ++ B)) (A.length + L.length) A.length = some (A ++ (L' ++ x :: B)) ∧
      L'.Perm L := by
  rcases eq_nil_or_concat L with rfl | ⟨N, y, rfl⟩
  · exact ⟨[], swap_self A B x, .refl _⟩
  · have hswap := swap_append' A N B x y
    exact ⟨y :: N, by simpa using hswap, by simpa using (perm_append_singleton y N).symm⟩

section Inplace

variable {up down : α → α → Bool} {r : α → α → Prop}

theorem inplace_of_le {fuel left right : ℕ} (h : right ≤ left) {a : List α} :
    inplace up down fuel left right a = some a := by
  cases fuel <;> rw [inplace, if_pos h]

/-- The entries `M` are sorted and the entries around them left alone. -/
theorem exists_inplace (htotal : ∀ x p, up x p ∨ down x p) (hup : ∀ x p, up x p → r x p)
    (hdown : ∀ x p, down x p → r p x) (htrans : ∀ x y z, r x y → r y z → r x z) (fuel : ℕ)
    (A M B : List α) (hfuel : M.length ≤ fuel) :
    ∃ M', inplace up down fuel A.length (A.length + M.length - 1) (A ++ (M ++ B)) =
      some (A ++ (M' ++ B)) ∧ M'.Perm M ∧ M'.Pairwise r := by
  induction fuel generalizing A M B with
  | zero =>
    obtain rfl := length_eq_zero_iff.1 (Nat.le_zero.1 hfuel)
    exact ⟨[], inplace_of_le (by simp), .nil, .nil⟩
  | succ fuel ih =>
    by_cases hle : M.length ≤ 1
    · refine ⟨M, inplace_of_le (by omega), .refl _, ?_⟩
      rcases M with _ | ⟨x, _ | _⟩ <;> simp_all
    · have hmiddle : A.length + (A.length + M.length - 1 - A.length) / 2 =
          A.length + (M.length - 1) / 2 := by omega
      obtain ⟨p, R, hget, hfront, hR⟩ := exists_swap_front A M B (k := (M.length - 1) / 2) (by omega)
      have hlength := hR.length_eq
      rw [length_cons] at hlength
      obtain ⟨L, H, hloop, hperm, hL, hH⟩ := exists_partitionLoop (up · p) (down · p) (htotal · p)
        (R.length + 1) (A := A ++ [p]) (by simp) R B
        (.inl (Nat.lt_succ_of_le (length_dropWhile_le (up · p) R)))
      have hLH := hperm.length_eq
      rw [length_append] at hLH
      obtain ⟨L', hback, hL'⟩ := exists_swap_back A L (H ++ B) p
      obtain ⟨L'', hleft, hLperm, hLsorted⟩ := ih A L' (p :: (H ++ B)) (by
        rw [hL'.length_eq]
        omega)
      obtain ⟨H', hright, hHperm, hHsorted⟩ := ih (A ++ L'' ++ [p]) H B (by omega)
      have hend : A.length + M.length - 1 = A.length + R.length := by omega
      have hlengths : L''.length = L.length := (hLperm.trans hL').length_eq
      refine ⟨L'' ++ p :: H', ?_, ?_, ?_⟩
      · simp only [length_append, length_singleton, append_assoc, cons_append, nil_append,
          hL'.length_eq, hlengths, Nat.add_assoc] at hloop hfront hback hleft hright
        rw [inplace, if_neg (by omega), hmiddle, hend, Nat.add_sub_cancel_left]
        rw [show A.length + (1 + R.length) - 1 = A.length + R.length by omega] at hloop
        rw [show A.length + (L.length + (1 + H.length)) - 1 = A.length + R.length by omega] at hright
        simp only [length_cons, ← Nat.add_assoc] at hloop hright
        simp [hget, hfront, hloop, hback, hleft, hright]
      · have hparts := (hLperm.trans hL').append (hHperm.cons p)
        exact hparts.trans (perm_middle.trans ((hperm.cons p).trans hR))
      · have hleft : ∀ x ∈ L'', r x p := fun x hx =>
          hup x p (hL x ((hLperm.trans hL').mem_iff.1 hx))
        have hright : ∀ x ∈ H', r p x := fun x hx => hdown x p (hH x (hHperm.mem_iff.1 hx))
        refine pairwise_append.2 ⟨hLsorted, pairwise_cons.2 ⟨hright, hHsorted⟩, fun x hx y hy => ?_⟩
        rcases mem_cons.1 hy with rfl | hy
        · exact hleft x hx
        · exact htrans x p y (hleft x hx) (hright y hy)

/-- The result has two sorted parts: the pivot with the entries that the predicate keeps, and the
other entries. Nothing behind them is touched. -/
theorem exists_sort (up down : α → α → Bool) (htotal : ∀ x p, up x p ∨ down x p)
    (hup : ∀ x p, up x p → r x p) (hdown : ∀ x p, down x p → r p x)
    (htrans : ∀ x y z, r x y → r y z → r x z) (p : α → Bool) (pivot : α) (rest G B : List α)
    (hlength : G.length = rest.length + 1) :
    ∃ L H, sort up down p pivot rest (rest.length + 1) (G ++ B) = some (L ++ (H ++ B)) ∧
      L.Perm (pivot :: rest.filter p) ∧ L.Pairwise r ∧
        H.Perm (rest.filter (!p ·)) ∧ H.Pairwise r := by
  have hcount : (rest.filter p).length + (rest.filter (!p ·)).length = rest.length := by
    simpa using (length_eq_length_filter_add p (l := rest)).symm
  obtain ⟨L, hL, hLperm, hLsorted⟩ := exists_inplace htotal hup hdown htrans (rest.length + 1) []
    (rest.filter p ++ [pivot]) ((rest.filter (!p ·)).reverse ++ B) (by simp; omega)
  obtain ⟨H, hH, hHperm, hHsorted⟩ := exists_inplace htotal hup hdown htrans (rest.length + 1) L
    (rest.filter (!p ·)).reverse B (by simp; omega)
  have hLlength : L.length = (rest.filter p).length + 1 := by simpa using hLperm.length_eq
  refine ⟨L, H, ?_, hLperm.trans (perm_append_singleton _ _), hLsorted,
    hHperm.trans (reverse_perm _), hHsorted⟩
  have hend : L.length + (rest.filter (!p ·)).reverse.length - 1 = rest.length := by
    rw [length_reverse]
    omega
  rw [hend, hLlength] at hH
  simp only [length_nil, length_append, length_singleton, Nat.zero_add, Nat.add_sub_cancel,
    nil_append, append_assoc, cons_append] at hL
  simp [sort, exists_initial p pivot rest G B hlength, hL, hH]

end Inplace

end Theory.Quicksort
