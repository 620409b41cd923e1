import DuckDB.Common.VectorSort

/-!
# When a vector is sorted

The first pass compares the selected entries with the entry at 0 and then puts the first selected
one in the middle. So an entry between these two stays behind the first one, and the entry at 0 has
to be one that can be read. Without a selection both are the same entry; but then the positions are
counted from 0 and those of the vector are not used.

## Main results

- `Vector.exists_sortSelected` — sorting writes the selected positions; when they are in order
- `Vector.sort_iff` — both ways to sort a vector
-/

open List Theory

namespace DuckDB.Vector

variable {W : Type} [LinearOrder W]

/-- No entry lies between the entry at 0 and the first of these entries. -/
def NoGap (data : ℕ → WithBot W) (selected : List ℕ) : Prop :=
  ∀ i ∈ selected, ∀ first ∈ selected.head?, data 0 < data i → data first ≤ data i

instance (data : ℕ → WithBot W) (selected : List ℕ) : Decidable (NoGap data selected) :=
  inferInstanceAs (Decidable (∀ i ∈ selected, ∀ first ∈ selected.head?, _))

theorem positions_succ {selVector : Option (ℕ → ℕ)} {n : ℕ} : positions selVector (n + 1) =
      position selVector 0 :: (range' 1 n).map (position selVector) := by
  rw [positions, range_eq_range', range'_succ, map_cons]

/-- The entries that are compared can be read. -/
theorem templatedQuicksortInplace_eq {data : ℕ → WithBot W} {count : ℕ} (A M B : List ℕ)
    (hread : M.length ≤ 1 ∨ ∀ i ∈ M, data i ≠ ⊥) :
    templatedQuicksortInplace data count A.length (A.length + M.length - 1) (A ++ (M ++ B)) =
      Quicksort.inplace (data · ≤ data ·) (fun i pivot => data pivot ≤ data i) count A.length
        (A.length + M.length - 1) (A ++ (M ++ B)) := by
  refine if_pos ?_
  rw [Bool.or_eq_true, decide_eq_true_eq, all_eq_true]
  by_cases hone : M.length ≤ 1
  · exact .inl (by omega)
  · refine .inr fun i hi => ?_
    rw [Nat.sub_add_cancel (by omega), ← append_assoc, ← length_append, take_left, drop_left] at hi
    simpa [bot_lt_iff_ne_bot] using hread.resolve_left hone i hi

/-- **Sorting** writes the selected positions, and nothing behind them. -/
theorem exists_sortSelected (v : Vector (WithBot W)) (selVector : Option (ℕ → ℕ)) (count : ℕ)
    (result : List ℕ) (hlength : count ≤ result.length)
    (hread : count ≤ 1 ∨ ∀ i ∈ 0 :: positions selVector count, v.data i ≠ ⊥) :
    ∃ order, v.sortSelected selVector count result = some (order ++ result.drop count) ∧
      order.Perm (positions selVector count) ∧
      (order.Pairwise (v.data · ≤ v.data ·) ↔ NoGap v.data (positions selVector count)) := by
  cases count with
  | zero => exact ⟨[], rfl, .nil, by simp [NoGap, positions]⟩
  | succ n =>
    rw [positions_succ] at hread ⊢
    generalize hfirst : position selVector 0 = first at hread ⊢
    generalize hrest : (range' 1 n).map (position selVector) = rest at hread ⊢
    have hn : n = rest.length := by simp [← hrest]
    have hinitial := Quicksort.exists_initial (v.data · ≤ v.data 0) first rest
      (result.take (n + 1)) (result.drop (n + 1)) (by simp; omega)
    have hparts := length_eq_length_filter_add (v.data · ≤ v.data 0) (l := rest)
    have hlow : ∀ i ∈ rest.filter (v.data · ≤ v.data 0), v.data i ≤ v.data 0 := by simp
    have hhigh : ∀ i, i ∈ rest.filter (fun i => !decide (v.data i ≤ v.data 0)) ↔
        i ∈ rest ∧ v.data 0 < v.data i := by simp
    have hperm := filter_append_perm (v.data · ≤ v.data 0) rest
    generalize rest.filter (v.data · ≤ v.data 0) = low at hinitial hparts hlow hperm
    generalize rest.filter (fun i => !decide (v.data i ≤ v.data 0)) = high
      at hinitial hparts hhigh hperm
    have hinplace := Quicksort.exists_inplace (r := (v.data · ≤ v.data ·))
      (show ∀ i pivot, decide (v.data i ≤ v.data pivot) ∨ decide (v.data pivot ≤ v.data i) from
        fun i j => by simpa using le_total _ _) (by simp) (by simp) (fun _ _ _ => le_trans) (n + 1)
    obtain ⟨L, hsortL, hLperm, hL⟩ := hinplace [] (low ++ [first])
      (high.reverse ++ result.drop (n + 1)) (by simp; omega)
    obtain ⟨H, hsortH, hHperm, hH⟩ := hinplace L high.reverse (result.drop (n + 1))
      (by simp; omega)
    have hreadL : (low ++ [first]).length ≤ 1 ∨ ∀ i ∈ low ++ [first], v.data i ≠ ⊥ :=
      hread.imp (fun h => by rw [length_append, length_singleton]; omega) fun h i hi => by
        rcases mem_append.1 hi with hi | hi
        · exact h i (by simp [hperm.mem_iff.1 (mem_append_left _ hi)])
        · exact h i (by simp [mem_singleton.1 hi])
    have hreadH : high.reverse.length ≤ 1 ∨ ∀ i ∈ high.reverse, v.data i ≠ ⊥ :=
      hread.imp (fun h => by rw [length_reverse]; omega) fun h i hi =>
        h i (by simp [hperm.mem_iff.1 (mem_append_right _ (mem_reverse.1 hi))])
    rw [← templatedQuicksortInplace_eq _ _ _ hreadL] at hsortL
    rw [← templatedQuicksortInplace_eq _ _ _ hreadH] at hsortH
    replace hLperm := hLperm.trans (perm_append_singleton _ _)
    replace hHperm := hHperm.trans (reverse_perm _)
    have hLlength : L.length = low.length + 1 := by simpa using hLperm.length_eq
    refine ⟨L ++ H, ?_, (hLperm.append hHperm).trans (hperm.cons first), ?_⟩
    · have hguard : (rest.isEmpty || (0 :: rest).all (⊥ < v.data ·)) = true := by
        rcases hread with hone | hread
        · simp [length_eq_zero_iff.1 (by omega : rest.length = 0)]
        · have hall : ∀ i ∈ 0 :: rest, ⊥ < v.data i := fun i hi =>
            bot_lt_iff_ne_bot.2 (hread i (by simp at hi ⊢; tauto))
          rw [all_eq_true.2 fun i hi => decide_eq_true (hall i hi), Bool.or_true]
      have hend : L.length + high.reverse.length - 1 = n := by
        rw [length_reverse]
        omega
      rw [hend, hLlength] at hsortH
      simp only [length_nil, length_append, length_singleton, Nat.zero_add, Nat.add_sub_cancel,
        nil_append, append_assoc, cons_append] at hsortL
      rw [take_append_drop, ← hn] at hinitial
      simp only [sortSelected, templatedQuicksort, templatedQuicksortInitial, Nat.add_sub_cancel,
        hfirst, hrest, if_pos hguard, hinitial, Option.bind_eq_bind, Option.bind_some,
        if_neg (Nat.succ_ne_zero n)]
      rw [if_neg (by omega), hsortL, Option.bind_some, hsortH, append_assoc]
    · rw [pairwise_append, and_iff_right hL, and_iff_right hH]
      simp only [hLperm.mem_iff, hHperm.mem_iff, mem_cons, hhigh, NoGap, head?_cons,
        Option.mem_some_iff, forall_eq']
      constructor
      · rintro h i (rfl | hi) hlt
        · exact le_rfl
        · exact h first (.inl rfl) i ⟨hi, hlt⟩
      · rintro h i (rfl | hi) j hj
        · exact h j (.inr hj.1) hj.2
        · exact (hlow i hi).trans hj.2.le

/-- A call with two entries or more that returns has read the pivot and all but the first one. -/
theorem read_of_sortSelected {v : Vector (WithBot W)} {selVector : Option (ℕ → ℕ)} {count : ℕ}
    {result order : List ℕ} (h : v.sortSelected selVector count result = some order) :
    count ≤ 1 ∨ ∀ i ∈ 0 :: (positions selVector count).tail, v.data i ≠ ⊥ := by
  obtain _ | _ | n := count
  · exact .inl (Nat.zero_le _)
  · exact .inl le_rfl
  · refine .inr fun i hi => ?_
    rw [positions_succ, tail_cons] at hi
    simp only [sortSelected, if_neg (Nat.succ_ne_zero _), templatedQuicksort,
      templatedQuicksortInitial, Option.bind_eq_bind, Option.bind_eq_some_iff] at h
    obtain ⟨_, hinitial, -⟩ := h
    rw [Option.ite_none_right_eq_some] at hinitial
    have hall := (Bool.or_eq_true _ _ ▸ hinitial.1).resolve_left (by simp [range'_succ])
    exact bot_lt_iff_ne_bot.1 (of_decide_eq_true (all_eq_true.1 hall i (by simpa using hi)))

/-! ### Without a selection -/

section Nulls

variable {α : Type} {v : Vector α}

/-- The positions of the rows that are not NULL. -/
def notNull (v : Vector α) : List ℕ :=
  (positions v.selVector v.count).filter (!v.nullmask ·)

/-- The positions of the rows that are NULL. -/
def null (v : Vector α) : List ℕ :=
  (positions v.selVector v.count).filter (v.nullmask ·)

theorem length_null_add : v.null.length + v.notNull.length = v.count := by
  have hparts := length_eq_length_filter_add (v.nullmask ·) (l := positions v.selVector v.count)
  rw [positions, length_map, length_range] at hparts
  exact hparts.symm

theorem notNullSelVector_eq (h : ∃ i < standardVectorSize, v.nullmask i) :
    notNullSelVector v = (v.notNull.length, v.notNull, v.null) := by
  have hloop : ∀ (rows : List ℕ) (vectors : List ℕ × List ℕ),
      rows.foldl (fun vectors i => if !v.nullmask i then (vectors.1 ++ [i], vectors.2)
        else (vectors.1, vectors.2 ++ [i])) vectors =
      (vectors.1 ++ rows.filter (!v.nullmask ·), vectors.2 ++ rows.filter (v.nullmask ·)) := by
    intro rows
    induction rows with
    | nil => simp
    | cons i rows ih =>
      intro vectors
      rw [foldl_cons, ih]
      cases hi : v.nullmask i <;> simp [hi]
  have hany : (range standardVectorSize).any v.nullmask = true := by simpa using h
  have hrows := hloop (positions v.selVector v.count) ([], [])
  simp only [nil_append] at hrows
  rw [notNullSelVector, if_pos hany, exec, Nat.sub_zero, ← range_eq_range']
  rw [positions, foldl_map] at hrows
  exact congrArg (fun vectors => (vectors.1.length, vectors.1, vectors.2)) hrows

theorem foldlM_write (nulls result : List ℕ) (h : nulls.length ≤ result.length) :
    (range nulls.length).foldlM (fun result i => Quicksort.write result i (nulls.getD i 0)) result =
      some (nulls ++ result.drop nulls.length) := by
  have hloop : ∀ m ≤ nulls.length, (range m).foldlM
      (fun result i => Quicksort.write result i (nulls.getD i 0)) result =
        some (nulls.take m ++ result.drop m) := by
    intro m hm
    induction m with
    | zero => rfl
    | succ m ih =>
      have hlt : m < nulls.length := hm
      have hwrite := Quicksort.write_append (nulls.take m) (result.drop (m + 1)) result[m] nulls[m]
      rw [← drop_eq_getElem_cons, length_take, Nat.min_eq_left hlt.le] at hwrite
      rw [range_succ, foldlM_append, ih hlt.le, ← take_append_getElem hlt, append_assoc]
      simpa [hlt] using hwrite
  simpa using hloop _ le_rfl

end Nulls

/-- Sorting with a selection writes the selected positions into the array, in the order of their
entries, and nothing behind them. -/
def SortsSelected (v : Vector (WithBot W)) (selVector : Option (ℕ → ℕ)) (count : ℕ)
    (result : List ℕ) : Prop :=
  ∃ order, v.sortSelected selVector count result = some (order ++ result.drop count) ∧
    order.Perm (positions selVector count) ∧ order.Pairwise (v.data · ≤ v.data ·)

/-- Sorting without a selection writes the rows into the array, those that are NULL first. -/
def Sorts (v : Vector (WithBot W)) (result : List ℕ) : Prop :=
  ∃ nulls rest, v.sort result = some (nulls ++ rest ++ result.drop v.count) ∧
    nulls.Perm v.null ∧ rest.Perm v.notNull ∧ rest.Pairwise (v.data · ≤ v.data ·)

/-- The selected positions that are sorted right: the pivot can be read if it is compared, and no
entry stays behind. -/
def SortableSelected (data : ℕ → WithBot W) (selected : List ℕ) : Prop :=
  (selected.length ≤ 1 ∨ data 0 ≠ ⊥) ∧ NoGap data selected

/-- The vectors that are sorted right: without NULL the positions have to be the first ones. -/
def Sortable (v : Vector (WithBot W)) : Prop :=
  if v.null = [] then (positions v.selVector v.count).Perm (range v.count)
  else SortableSelected v.data v.notNull

theorem length_positions {selVector : Option (ℕ → ℕ)} {count : ℕ} :
    (positions selVector count).length = count := by
  simp [positions]

theorem sortsSelected_iff (v : Vector (WithBot W)) (selVector : Option (ℕ → ℕ)) (count : ℕ)
    (result : List ℕ) (hlength : count ≤ result.length)
    (hselected : ∀ i ∈ positions selVector count, v.data i ≠ ⊥) :
    v.SortsSelected selVector count result ↔
      SortableSelected v.data (positions selVector count) := by
  rw [SortableSelected, length_positions]
  constructor
  · rintro ⟨order, hsort, hperm, hsorted⟩
    have hpivot : count ≤ 1 ∨ v.data 0 ≠ ⊥ :=
      (read_of_sortSelected hsort).imp_right fun h => h 0 mem_cons_self
    obtain ⟨order', hsort', -, hgap⟩ := exists_sortSelected v selVector count result hlength
      (hpivot.imp_right fun h => forall_mem_cons.2 ⟨h, hselected⟩)
    rw [hsort, Option.some.injEq, append_left_inj] at hsort'
    exact ⟨hpivot, hgap.1 (hsort' ▸ hsorted)⟩
  · rintro ⟨hpivot, hgap⟩
    obtain ⟨order, hsort, hperm, hsorted⟩ := exists_sortSelected v selVector count result hlength
      (hpivot.imp_right fun h => forall_mem_cons.2 ⟨h, hselected⟩)
    exact ⟨order, hsort, hperm, hsorted.2 hgap⟩

section Rows

variable (v : Vector (WithBot W)) (hnotNull : ∀ i ∈ v.notNull, v.data i ≠ ⊥) (result : List ℕ)
  (hlength : v.count ≤ result.length)

include hnotNull hlength

/-- Without NULL the first positions are sorted, whatever the positions of the rows are. -/
theorem sorts_iff_of_noNull (hnull : v.null = []) :
    v.Sorts result ↔ (positions v.selVector v.count).Perm (range v.count) := by
  have hnone : ∀ i ∈ positions v.selVector v.count, ¬v.nullmask i := by
    simpa [null, filter_eq_nil_iff] using hnull
  have hnotNull' : v.notNull = positions v.selVector v.count :=
    filter_eq_self.2 fun i hi => by simpa using hnone i hi
  have hfirst : (notNullSelVector v).1 = v.count := by
    by_cases hany : ∃ i < standardVectorSize, v.nullmask i
    · rw [notNullSelVector_eq hany, hnotNull', length_positions]
    · rw [notNullSelVector, if_neg (by simpa using hany)]
  have hrange : positions none v.count = range v.count := map_id'' (fun _ => rfl) _
  have hsort : v.sort result = v.sortSelected none v.count result := by
    rw [sort]
    simp only [hfirst, if_true]
  rw [Sorts, hnull, hnotNull', hsort]
  constructor
  · -- what is written are the first positions
    rintro ⟨nulls, rest, hresult, hnulls, hrest, -⟩
    obtain rfl := hnulls.eq_nil
    have hread : v.count ≤ 1 ∨ ∀ i ∈ 0 :: positions none v.count, v.data i ≠ ⊥ :=
      (read_of_sortSelected hresult).imp_right fun h i hi => h i (by
        rw [hrange] at hi ⊢
        cases hn : v.count with
        | zero => simpa [hn] using hi
        | succ n => simpa [hn, range_succ_eq_map] using hi)
    obtain ⟨order, horder, hperm, -⟩ := exists_sortSelected v none v.count result hlength hread
    rw [hresult, Option.some.injEq, nil_append, append_left_inj] at horder
    exact hrest.symm.trans (horder ▸ hrange ▸ hperm)
  · intro hperm
    have hselected : ∀ i ∈ positions none v.count, v.data i ≠ ⊥ := fun i hi =>
      hnotNull i (hnotNull' ▸ hperm.mem_iff.2 (hrange ▸ hi))
    have hsortable : SortableSelected v.data (positions none v.count) := by
      refine ⟨?_, fun i hi first hfirst hlt => ?_⟩
      · obtain hzero | hpos := Nat.eq_zero_or_pos v.count
        · exact .inl (by rw [length_positions]; omega)
        · exact .inr (hselected 0 (by rw [hrange]; exact mem_range.2 hpos))
      · obtain rfl : first = 0 := by simp_all [head?_range]
        exact hlt.le
    obtain ⟨order, horder, hwritten, hsorted⟩ :=
      (sortsSelected_iff v none v.count result hlength hselected).2 hsortable
    exact ⟨[], order, by rw [horder, nil_append], .nil, (hrange ▸ hwritten).trans hperm.symm,
      hsorted⟩

/-- With NULLs the other rows are sorted behind them. -/
theorem sorts_iff_of_null (hrows : ∀ i ∈ positions v.selVector v.count, i < standardVectorSize)
    (hnull : v.null ≠ []) : v.Sorts result ↔ SortableSelected v.data v.notNull := by
  have hcount := length_null_add (v := v)
  obtain ⟨i, hi⟩ := exists_mem_of_ne_nil _ hnull
  have hany : ∃ i < standardVectorSize, v.nullmask i :=
    ⟨i, hrows i (mem_filter.1 hi).1, (mem_filter.1 hi).2⟩
  have hpos := length_pos_iff.2 hnull
  have hsel : positions (some (v.notNull.getD · 0)) v.notNull.length = v.notNull :=
    ext_getElem (by simp [positions]) (by simp +contextual [positions, position])
  have hselected := sortsSelected_iff v (some (v.notNull.getD · 0)) v.notNull.length
    (result.drop v.null.length) (by rw [length_drop]; omega) (by rwa [hsel])
  rw [SortsSelected, hsel, drop_drop, hcount] at hselected
  have hnullCount : v.count - v.notNull.length = v.null.length := by omega
  have hsort : v.sort result = (v.sortSelected (some (v.notNull.getD · 0)) v.notNull.length
      (result.drop v.null.length)).map (v.null ++ ·) := by
    have hwrite := foldlM_write v.null result (by omega)
    rw [sort, notNullSelVector_eq hany]
    simp only [if_neg (by omega : ¬v.notNull.length = v.count), hnullCount, hwrite,
      Option.bind_eq_bind, Option.bind_some, drop_left, take_left]
    exact (Option.map_eq_bind ..).symm
  rw [← hselected, Sorts, hsort]
  constructor
  · rintro ⟨nulls, rest, hresult, hnulls, hrest, hsorted⟩
    obtain ⟨order, horder, heq⟩ := Option.map_eq_some_iff.1 hresult
    rw [append_assoc] at heq
    obtain ⟨-, rfl⟩ := append_inj heq hnulls.length_eq.symm
    exact ⟨rest, horder, hrest, hsorted⟩
  · rintro ⟨order, horder, hperm, hsorted⟩
    exact ⟨v.null, order, by rw [horder, Option.map_some, append_assoc], .refl _, hperm, hsorted⟩

end Rows

/-- **Sorting**: the selected positions are written in order if the pivot can be read and no entry
stays behind; without a selection, if the vector is one of these. -/
theorem sort_iff (v : Vector (WithBot W)) (selVector : Option (ℕ → ℕ)) (count : ℕ)
    (result : List ℕ) (hlength : count ≤ result.length ∧ v.count ≤ result.length)
    (hrows : ∀ i ∈ positions v.selVector v.count, i < standardVectorSize)
    (hselected : ∀ i ∈ positions selVector count, v.data i ≠ ⊥)
    (hnotNull : ∀ i ∈ v.notNull, v.data i ≠ ⊥) :
    (v.SortsSelected selVector count result ↔
        SortableSelected v.data (positions selVector count)) ∧
      (v.Sorts result ↔ v.Sortable) :=
  ⟨sortsSelected_iff v selVector count result hlength.1 hselected, by
    rw [Sortable]
    split_ifs with hnull
    · exact sorts_iff_of_noNull v hnotNull result hlength.2 hnull
    · exact sorts_iff_of_null v hnotNull result hlength.2 hrows hnull⟩

/-- The entries 2, 1 and 0. -/
def descending : Vector (WithBot ℕ) where
  data i := WithBot.some (2 - i)
  count := 3

/-- Three rows of which two are selected. -/
theorem sort_selected_two : descending.SortsSelected (some (· + 1)) 2 [0, 0, 0] :=
  (sort_iff descending (some (· + 1)) 2 [0, 0, 0] (by decide) (by decide) (by decide)
    (by decide)).1.2 ⟨.inr (by decide), by decide⟩

/-- The entries 0, 2 and 1, of which the last two are selected: 2 stays before 1. If the entry at 0
is a null pointer, the call does not return. -/
theorem sort_selected_gap :
    (sortSelected { data := fun i => WithBot.some (if i = 0 then 0 else 3 - i), count := 3 }
        (some (· + 1)) 2 [0, 0] = some [1, 2] ∧ ¬[1, 2].Pairwise fun i j => 3 - i ≤ 3 - j) ∧
      sortSelected { data := fun i => if i = 0 then ⊥ else WithBot.some (3 - i), count := 3 }
        (some (· + 1)) 2 [0, 0] = none :=
  ⟨⟨rfl, by decide⟩, rfl⟩

end DuckDB.Vector
