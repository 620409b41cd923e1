import DuckDB.Common.ChunkCollection
import Mathlib.Data.List.Nodup
import Mathlib.Data.List.Range

/-!
# Sorting and reordering a collection

* `sortInto_ordered`: the result of `Sort` has every row once, in order.
* `getElem?_reorder`: `Reorder` puts at every position the row that the order names there.
* `reorder_perm`: so a sorted collection has the rows it had before.
* `reorderValues_iff`: but it ends with an exception if there is a string that is not valid UTF-8.
-/

namespace DuckDB.ChunkCollection

open List Theory

/-! ### Sorting -/

section Sorting

variable {count : ℕ}

/-- The rows are sorted by any transitive relation that the comparisons are right about. -/
theorem exists_sortInto {r : Fin count → Fin count → Prop} (compare : Fin count → Fin count → Ordering)
    (hle : ∀ i j, compare i j ≠ .gt → r i j) (hgt : ∀ i j, compare i j = .gt → r j i)
    (htrans : ∀ i j k, r i j → r j k → r i k) (result : List (Fin count))
    (hlength : count ≤ result.length) :
    ∃ order, sortInto compare result = some (order ++ result.drop count) ∧
      order.Perm (finRange count) ∧ order.Pairwise r := by
  unfold sortInto
  cases hrows : finRange count with
  | nil =>
    obtain rfl : count = 0 := by simpa using congrArg length hrows
    exact ⟨[], by simp, .nil, .nil⟩
  | cons pivot rest =>
    have hcount : count = rest.length + 1 := by simpa using congrArg length hrows
    obtain ⟨L, H, hsort, hLperm, hL, hHperm, hH⟩ := Quicksort.exists_sort (r := r)
      (compare · · ≠ .gt) (compare · · = .gt) (fun i j => by simp [em'])
      (by simpa using hle) (by simpa using hgt) htrans (compare · pivot ≠ .gt) pivot rest
      (result.take count) (result.drop count) (by simp; omega)
    have hsplit : ∀ i ∈ L, ∀ j ∈ H, r i j := by
      intro i hi j hj
      have hright : r pivot j := hgt j pivot (by simpa using (mem_filter.1 (hHperm.mem_iff.1 hj)).2)
      rcases mem_cons.1 (hLperm.mem_iff.1 hi) with rfl | hi
      · exact hright
      · exact htrans i pivot j (hle i pivot (by simpa using (mem_filter.1 hi).2)) hright
    refine ⟨L ++ H, ?_, ?_, pairwise_append.2 ⟨hL, hH, hsplit⟩⟩
    · rw [take_append_drop, ← hcount] at hsort
      rw [append_assoc, ← hsort]
      rfl
    · exact (hLperm.append hHperm).trans ((filter_append_perm _ rest).cons pivot)

/-- **`Sort`** puts the rows in order, whatever the array held before. -/
theorem sortInto_ordered (compare : Fin count → Fin count → Ordering)
    (htotal : ∀ i j, compare i j ≠ .gt ∨ compare j i ≠ .gt)
    (htrans : ∀ i j k, compare i j ≠ .gt → compare j k ≠ .gt → compare i k ≠ .gt)
    (result : List (Fin count)) (hlength : count ≤ result.length) :
    ∃ order, sortInto compare result = some (order ++ result.drop count) ∧
      order.Perm (finRange count) ∧ order.Pairwise (compare · · ≠ .gt) :=
  exists_sortInto compare (fun _ _ h => h) (fun i j h => (htotal i j).resolve_left (not_not.2 h))
    htrans result hlength

/-- Two rows in descending order. -/
theorem sortInto_ordered_two :
    ∃ order, sortInto (fun i j : Fin 2 => compare j i) [0, 0] = some (order ++ []) ∧
      order.Perm [0, 1] ∧ order.Pairwise (fun i j => compare j i ≠ .gt) :=
  sortInto_ordered (fun i j : Fin 2 => compare j i) (by decide) (by decide) [0, 0] (by decide)

end Sorting

/-! ### Reordering along cycles -/

section Reorder

variable {α : Type*}

/-- The order is a permutation of the first `n` positions. -/
structure Permutes (n : ℕ) (σ : ℕ → ℕ) : Prop where
  lt : ∀ p < n, σ p < n
  injective : ∀ p < n, ∀ q < n, σ p = σ q → p = q

/-- The state of `Reorder` after a part of a cycle: at the visited positions the rows are the ones
that `σ` names, and the order is the identity. -/
structure Visited (n : ℕ) (σ : ℕ → ℕ) (rows : List α) (visited : List ℕ)
    (state : List α × List ℕ) : Prop where
  length : state.1.length = n
  order_length : state.2.length = n
  order : ∀ p < n, state.2[p]? = some (if p ∈ visited then p else σ p)
  rows : ∀ p < n, state.1[p]? = if p ∈ visited then rows[σ p]? else rows[p]?

/-- The positions of a cycle, from `i` on until before `j`. -/
structure Path (n : ℕ) (σ : ℕ → ℕ) (i j : ℕ) (visited : List ℕ) : Prop where
  nodup : (j :: visited).Nodup
  lt : ∀ v ∈ j :: visited, v < n
  start : i ∈ j :: visited
  reached : ∀ v ∈ j :: visited, v = i ∨ ∃ u ∈ visited, σ u = v

variable {n i j : ℕ} {σ : ℕ → ℕ} {rows : List α} {visited : List ℕ} {state : List α × List ℕ}
  {target : ℕ → Option α}

theorem Visited.set (h : Visited n σ rows visited state) (hj : j < n) (hnot : j ∉ visited) {row : α}
    (hrow : rows[σ j]? = some row) :
    Visited n σ rows (j :: visited) (state.1.set j row, state.2.set j j) := by
  refine ⟨by simpa using h.length, by simpa using h.order_length, fun p hp => ?_, fun p hp => ?_⟩
  · by_cases hpj : p = j
    · subst hpj
      simp [h.order_length, hj]
    · rw [getElem?_set_ne (Ne.symm hpj), h.order p hp]
      simp [hpj]
  · by_cases hpj : p = j
    · subst hpj
      simp [h.length, hj, hrow]
    · rw [getElem?_set_ne (Ne.symm hpj), h.rows p hp]
      simp [hpj]

/-- The path goes on, unless it is back at its beginning. -/
theorem Path.next (h : Path n σ i j visited) (hσ : Permutes n σ) (hne : σ j ≠ i) :
    Path n σ i (σ j) (j :: visited) := by
  have hj : j < n := h.lt j mem_cons_self
  have hnot : σ j ∉ j :: visited := by
    intro hmem
    rcases h.reached _ hmem with heq | ⟨u, hu, huj⟩
    · exact hne heq
    · have huv := hσ.injective u (h.lt u (mem_cons_of_mem j hu)) j hj huj
      exact (nodup_cons.1 h.nodup).1 (huv ▸ hu)
  refine ⟨nodup_cons.2 ⟨hnot, h.nodup⟩, ?_, mem_cons_of_mem _ h.start, ?_⟩
  · intro v hv
    rcases mem_cons.1 hv with rfl | hv
    · exact hσ.lt j hj
    · exact h.lt v hv
  · intro v hv
    rcases mem_cons.1 hv with rfl | hv
    · exact .inr ⟨j, mem_cons_self, rfl⟩
    · exact (h.reached v hv).imp_right fun ⟨u, hu, huv⟩ => ⟨u, mem_cons_of_mem j hu, huv⟩

/-- A path that is back at its beginning is left by no position outside it. -/
theorem Path.closed (h : Path n σ i j visited) (hσ : Permutes n σ) (heq : σ j = i) {p : ℕ}
    (hp : p < n) (hnot : p ∉ j :: visited) : σ p ∉ j :: visited := by
  intro hmem
  rcases h.reached _ hmem with hstart | ⟨u, hu, hup⟩
  · have hpj := hσ.injective p hp j (h.lt j mem_cons_self) (hstart.trans heq.symm)
    exact hnot (hpj ▸ mem_cons_self)
  · have hpu := hσ.injective u (h.lt u (mem_cons_of_mem j hu)) p hp hup
    exact hnot (mem_cons_of_mem j (hpu ▸ hu))

theorem Path.length_lt (h : Path n σ i j visited) : visited.length < n := by
  have hsub : (j :: visited).Subperm (range n) :=
    subperm_of_subset h.nodup fun v hv => mem_range.2 (h.lt v hv)
  have hle := hsub.length_le
  rwa [length_cons, length_range] at hle

/-- The rows can be read, moved and written. -/
def Unhindered (get copy set : α → Except Exception α) (rows : List α) : Prop :=
  ∀ row ∈ rows, get row = .ok row ∧ copy row = .ok row ∧ set row = .ok row

variable {get copy set : α → Except Exception α}

/-- **A whole cycle** is moved. -/
theorem visited_reorderCycle {buffer : α} {fuel : ℕ} (hσ : Permutes n σ)
    (hbuffer : rows[i]? = some buffer) (hlength : rows.length = n)
    (hrows : Unhindered get copy set rows) (hpath : Path n σ i j visited)
    (hvisited : Visited n σ rows visited state) (hfuel : n - visited.length ≤ fuel) :
    ∃ cycle, i ∈ cycle ∧ (∀ p < n, p ∉ cycle → σ p ∉ cycle) ∧
      Visited n σ rows cycle (reorderCycle i buffer fuel j state) ∧
      moveCycle copy set i buffer fuel j state = .ok (reorderCycle i buffer fuel j state) := by
  induction fuel generalizing j visited state with
  | zero =>
    have hlt := hpath.length_lt
    omega
  | succ fuel ih =>
    have hj : j < n := hpath.lt j mem_cons_self
    have hnot : j ∉ visited := (nodup_cons.1 hpath.nodup).1
    have hnext? : state.2[j]? = some (σ j) := by rw [hvisited.order j hj, if_neg hnot]
    have horder : state.2.getD j i = σ j := by
      rw [getD_eq_getElem?_getD, hnext?, Option.getD_some]
    rw [reorderCycle, horder, moveCycle, hnext?]
    dsimp only
    split_ifs with heq
    · refine ⟨j :: visited, hpath.start, fun p hp hpnot => hpath.closed hσ heq hp hpnot,
        hvisited.set hj hnot (by rw [heq, hbuffer]), ?_⟩
      rw [(hrows buffer (mem_of_getElem? hbuffer)).2.2]
      rfl
    · -- the row at `σ j` has not been moved
      have hnext := hpath.next hσ heq
      have hnotNext : σ j ∉ visited := fun hmem =>
        (nodup_cons.1 hnext.nodup).1 (mem_cons_of_mem j hmem)
      have hlt : σ j < rows.length := hlength ▸ hσ.lt j hj
      obtain ⟨row, hrow⟩ : ∃ row, rows[σ j]? = some row := ⟨_, getElem?_eq_getElem hlt⟩
      have hrow? : state.1[σ j]? = some row := by
        rw [hvisited.rows _ (hσ.lt j hj), if_neg hnotNext, hrow]
      rw [getD_eq_getElem?_getD, hrow?, Option.getD_some]
      dsimp only
      rw [(hrows row (mem_of_getElem? hrow)).2.1]
      refine ih hnext (hvisited.set hj hnot hrow) ?_
      rw [length_cons]
      omega

/-- What `Reorder` has reached: the rows at the positions of the order are the ones wanted, and the
first `i` positions are done. -/
structure Reordered (n : ℕ) (target : ℕ → Option α) (i : ℕ) (state : List α × List ℕ) : Prop where
  length : state.1.length = n
  order_length : state.2.length = n
  exists_order : ∃ σ, Permutes n σ ∧ (∀ p < n, state.2[p]? = some (σ p)) ∧
    (∀ p < n, state.1[σ p]? = target p) ∧ ∀ p < i, σ p = p

theorem Reordered.reorderFrom (h : Reordered n target i state) (hi : i < n)
    (hrows : Unhindered get copy set state.1) : Reordered n target (i + 1) (reorderFrom state i) ∧
      Unhindered get copy set (ChunkCollection.reorderFrom state i).1 ∧
      moveFrom get copy set state i = .ok (ChunkCollection.reorderFrom state i) := by
  obtain ⟨σ, hσ, horder, htarget, hdone⟩ := h.exists_order
  have hlt : i < state.1.length := h.length ▸ hi
  obtain ⟨buffer, hbuffer⟩ : ∃ buffer, state.1[i]? = some buffer :=
    ⟨_, getElem?_eq_getElem hlt⟩
  have hpath : Path n σ i i [] := ⟨by simp, by simpa using hi, by simp, by simp⟩
  have hvisited : Visited n σ state.1 [] state :=
    ⟨h.length, h.order_length, by simpa using horder, by simp⟩
  have hfuel : n - ([] : List ℕ).length ≤ state.1.length := by simp [h.length]
  obtain ⟨cycle, hmem, hclosed, hcycle, hmove⟩ :=
    visited_reorderCycle hσ hbuffer h.length hrows hpath hvisited hfuel
  rw [ChunkCollection.reorderFrom, moveFrom, hbuffer]
  dsimp only
  rw [(hrows buffer (mem_of_getElem? hbuffer)).1]
  refine ⟨⟨hcycle.length, hcycle.order_length, fun p => if p ∈ cycle then p else σ p, ⟨?_, ?_⟩,
    hcycle.order, ?_, ?_⟩, fun row hrow => ?_, hmove⟩
  · intro p hp
    split_ifs
    · exact hp
    · exact hσ.lt p hp
  · intro p hp q hq hpq
    split_ifs at hpq with hpc hqc hqc
    · exact hpq
    · exact absurd (hpq ▸ hpc) (hclosed q hq hqc)
    · exact absurd (hpq ▸ hqc) (hclosed p hp hpc)
    · exact hσ.injective p hp q hq hpq
  · intro p hp
    dsimp only
    split_ifs with hpc
    · rw [hcycle.rows p hp, if_pos hpc, htarget p hp]
    · rw [hcycle.rows _ (hσ.lt p hp), if_neg (hclosed p hp hpc), htarget p hp]
  · intro p hp
    dsimp only
    split_ifs with hpc
    · rfl
    · have hne : p ≠ i := fun heq => hpc (heq ▸ hmem)
      exact hdone p (by omega)
  · obtain ⟨p, hp⟩ := mem_iff_getElem?.1 hrow
    have hlt : p < n := hcycle.length ▸ (List.getElem?_eq_some_iff.1 hp).1
    rw [hcycle.rows p hlt] at hp
    split_ifs at hp <;> exact hrows row (mem_of_getElem? hp)

theorem reordered_foldl (h : Reordered n target 0 state) (hrows : Unhindered get copy set state.1)
    {m : ℕ} (hm : m ≤ n) : Reordered n target m ((range m).foldl reorderFrom state) ∧
      Unhindered get copy set ((range m).foldl reorderFrom state).1 ∧
      (range m).foldlM (moveFrom get copy set) state =
        .ok ((range m).foldl reorderFrom state) := by
  induction m with
  | zero => exact ⟨h, hrows, rfl⟩
  | succ m ih =>
    obtain ⟨hreordered, hleft, hfold⟩ := ih (by omega)
    rw [range_succ, foldl_append, foldlM_append, hfold]
    have hstep := hreordered.reorderFrom (by omega) hleft
    exact ⟨hstep.1, hstep.2.1, (bind_pure _).trans hstep.2.2⟩

variable {order : List ℕ}

theorem reordered_start (horder : order.Perm (range rows.length)) :
    Reordered rows.length (fun p => order[p]?.bind (rows[·]?)) 0 (rows, order) := by
  have hlength : order.length = rows.length := by simpa using horder.length_eq
  have hnodup : order.Nodup := horder.nodup_iff.2 nodup_range
  have hget : ∀ p < rows.length, order[p]? = some (order.getD p 0) := fun p hp => by
    rw [getD_eq_getElem?_getD, getElem?_eq_getElem (hlength ▸ hp), Option.getD_some]
  have hpermutes : Permutes rows.length (order.getD · 0) := by
    refine ⟨fun p hp => ?_, fun p hp q hq hpq => ?_⟩
    · exact mem_range.1 (horder.mem_iff.1 (mem_of_getElem? (hget p hp)))
    · exact (getElem?_inj (hlength ▸ hp) hnodup).1 (by rw [hget p hp, hget q hq, hpq])
  exact ⟨rfl, hlength, _, hpermutes, hget, fun p hp => by rw [hget p hp]; rfl, by simp⟩

/-- **`Reorder`** puts at every position the row that the order names. -/
theorem getElem?_reorder (horder : order.Perm (range rows.length)) (p : ℕ) :
    (reorder rows order)[p]? = order[p]?.bind (rows[·]?) := by
  have hlength : order.length = rows.length := by simpa using horder.length_eq
  have hrows : Unhindered .ok .ok .ok rows := fun _ _ => ⟨rfl, rfl, rfl⟩
  have hend := (reordered_foldl (reordered_start horder) hrows le_rfl).1
  by_cases hp : p < rows.length
  · obtain ⟨σ, -, -, htarget, hdone⟩ := hend.exists_order
    rw [← htarget p hp, hdone p hp]
    rfl
  · have hnone : order[p]? = none := by simp [hlength, not_lt.1 hp]
    rw [hnone, Option.bind_none, getElem?_eq_none_iff]
    exact hend.length.symm ▸ not_lt.1 hp

end Reorder

/-! ### Reordering values -/

section Values

variable {α : Type} {P : α → Prop} {get copy set : α → Except Exception α} {i j p : ℕ}
  {buffer row row' : α} {state state' : List α × List ℕ}

theorem of_getElem?_set {rows : List α} (hrow' : P row') (hget : (rows.set j row')[p]? = some row) :
    P row ∨ p ≠ j ∧ rows[p]? = some row := by
  by_cases hpj : p = j
  · rw [hpj, getElem?_set_self'] at hget
    obtain ⟨-, -, rfl⟩ := Option.map_eq_some_iff.1 hget
    exact .inl hrow'
  · rw [getElem?_set_ne (Ne.symm hpj)] at hget
    exact .inr ⟨hpj, hget⟩

/-- `Reorder` writes only rows that can be written, and first the one at the position `j`. -/
theorem of_moveCycle (hcopy : ∀ row row', copy row = .ok row' → P row')
    (hset : ∀ row', set buffer = .ok row' → P row') {fuel : ℕ}
    (h : moveCycle copy set i buffer fuel j state = .ok state') (hrow : state'.1[p]? = some row) :
    P row ∨ p ≠ j ∧ state.1[p]? = some row := by
  induction fuel generalizing j state with
  | zero => cases h
  | succ fuel ih =>
    rw [moveCycle] at h
    cases hk : state.2[j]? with
    | none => rw [hk] at h; cases h
    | some k =>
      rw [hk] at h
      dsimp only at h
      split_ifs at h with heq
      · obtain ⟨row', hrow', hstate⟩ := bind_eq_ok.1 h
        obtain rfl := return_eq_ok.1 hstate
        exact of_getElem?_set (hset row' hrow') hrow
      · cases hmoved : state.1[k]? with
        | none => rw [hmoved] at h; cases h
        | some moved =>
          rw [hmoved] at h
          obtain ⟨row', hrow', hrest⟩ := bind_eq_ok.1 h
          rcases ih hrest with hP | ⟨-, hget⟩
          · exact .inl hP
          · exact of_getElem?_set (hcopy moved row' hrow') hget

/-- After the first `m` iterations the rows at the first `m` positions have been written. -/
theorem of_foldlM_moveFrom (hcopy : ∀ row row', copy row = .ok row' → P row')
    (hset : ∀ row buffer row', get row = .ok buffer → set buffer = .ok row' → P row') {m : ℕ}
    (h : (range m).foldlM (moveFrom get copy set) state = .ok state') (hp : p < m)
    (hrow : state'.1[p]? = some row) : P row := by
  induction m generalizing state' row with
  | zero => omega
  | succ m ih =>
    rw [range_succ, foldlM_append] at h
    obtain ⟨before, hbefore, hlast⟩ := bind_eq_ok.1 h
    rw [foldlM_cons] at hlast
    obtain ⟨after, hafter, hend⟩ := bind_eq_ok.1 hlast
    obtain rfl := Except.ok.inj hend
    rw [moveFrom] at hafter
    cases hget : before.1[m]? with
    | none => rw [hget] at hafter; cases hafter
    | some current =>
      rw [hget] at hafter
      obtain ⟨buffer, hbuffer, hcycle⟩ := bind_eq_ok.1 hafter
      rcases of_moveCycle hcopy (hset current buffer · hbuffer) hcycle hrow with hP | ⟨hne, hold⟩
      · exact hP
      · exact ih hbefore (by omega) hold

theorem mapM_eq_ok_self_iff {f : α → Except Exception α}
    (hf : ∀ v w, f v = .ok w ↔ w = v ∧ P v) (row row' : List α) :
    row.mapM f = .ok row' ↔ row' = row ∧ ∀ v ∈ row, P v := by
  have hand := forall₂_and_left (R := fun v w : α => v = w) (p := P) row row'
  rw [forall₂_eq_eq_eq] at hand
  rw [mapM_eq_ok_iff, and_comm, eq_comm, ← hand]
  simp only [hf, eq_comm, and_comm]

end Values

/-- `GetValue` and `SetValue` take the value. -/
def Movable (v : Value) : Prop :=
  v.type ≠ .invalid ∧ v.type ≠ .varbinary ∧
    ∀ val, v = .varchar val → Value.isUTF8String (some (val ++ [0])) = some true

theorem getValue_eq_ok_iff (v w : Value) : getValue v = .ok w ↔
    w = v ∧ v ≠ .invalid ∧ (∀ val, v ≠ .varbinary val) ∧
      ∀ val, v = .varchar val → Value.isUTF8String (some (val ++ [0])) = some true := by
  cases v <;> simp [getValue, pure, Except.pure, eq_comm]
  split_ifs <;> simp_all

theorem setValue_eq_ok_iff (v w : Value) :
    setValue v = .ok w ↔ w = v ∧ v.type ≠ .invalid ∧ v.type ≠ .varbinary := by
  unfold setValue
  cases v.type <;> simp [pure, Except.pure, eq_comm]

theorem getValue_bind_eq_ok_iff (v w : Value) :
    (getValue v >>= setValue) = .ok w ↔ w = v ∧ Movable v := by
  simp only [bind_eq_ok, getValue_eq_ok_iff, setValue_eq_ok_iff]
  constructor
  · rintro ⟨v, ⟨rfl, -, -, hutf⟩, rfl, hinvalid, hvarbinary⟩
    exact ⟨rfl, hinvalid, hvarbinary, hutf⟩
  · rintro ⟨rfl, hinvalid, hvarbinary, hutf⟩
    exact ⟨w, ⟨rfl, fun h => hinvalid (h ▸ rfl), fun _ h => hvarbinary (h ▸ rfl), hutf⟩, rfl,
      hinvalid, hvarbinary⟩

/-- **`Reorder`** ends and puts at every position the row that the order names exactly if every
value of the collection can be moved. -/
theorem reorderValues_iff {rows : List (List Value)} {order : List ℕ}
    (horder : order.Perm (List.range rows.length)) :
    (∃ rows' : List (List Value), reorderValues rows order = .ok rows' ∧
        rows'.length = rows.length ∧ ∀ p : ℕ, rows'[p]? = order[p]?.bind (rows[·]?)) ↔
      ∀ row ∈ rows, ∀ v ∈ row, Movable v := by
  have hcopy := mapM_eq_ok_self_iff getValue_bind_eq_ok_iff
  have hget := mapM_eq_ok_self_iff getValue_eq_ok_iff
  have hset := mapM_eq_ok_self_iff setValue_eq_ok_iff
  constructor
  · rintro ⟨rows', hreorder, -, hrows'⟩ row hrow
    obtain ⟨state, hstate, hend⟩ := bind_eq_ok.1 hreorder
    obtain rfl := return_eq_ok.1 hend
    obtain ⟨q, hq⟩ := mem_iff_getElem?.1 hrow
    have hlt : q < rows.length := (List.getElem?_eq_some_iff.1 hq).1
    obtain ⟨p, hp⟩ := mem_iff_getElem?.1 (horder.mem_iff.2 (mem_range.2 hlt))
    have hpm : p < rows.length := by
      simpa [horder.length_eq] using (List.getElem?_eq_some_iff.1 hp).1
    refine of_foldlM_moveFrom (P := fun row => ∀ v ∈ row, Movable v) (fun row row' hok => ?_)
      (fun row buffer row' hread hwrite => ?_) hstate hpm (by rw [hrows', hp]; exact hq)
    · obtain ⟨rfl, hall⟩ := (hcopy row row').1 hok
      exact hall
    · obtain ⟨rfl, hread⟩ := (hget row buffer).1 hread
      obtain ⟨rfl, hwrite⟩ := (hset buffer row').1 hwrite
      exact fun v hv => ⟨(hwrite v hv).1, (hwrite v hv).2, (hread v hv).2.2⟩
  · intro hmovable
    have hrows : Unhindered (·.mapM getValue) (·.mapM fun v => getValue v >>= setValue)
        (·.mapM setValue) rows := by
      intro row hrow
      refine ⟨(hget row row).2 ⟨rfl, fun v hv => ?_⟩, (hcopy row row).2 ⟨rfl, hmovable row hrow⟩,
        (hset row row).2 ⟨rfl, fun v hv => ?_⟩⟩
      · obtain ⟨hinvalid, hvarbinary, hutf⟩ := hmovable row hrow v hv
        exact ⟨fun h => hinvalid (h ▸ rfl), fun _ h => hvarbinary (h ▸ rfl), hutf⟩
      · obtain ⟨hinvalid, hvarbinary, -⟩ := hmovable row hrow v hv
        exact ⟨hinvalid, hvarbinary⟩
    obtain ⟨hend, -, hfold⟩ := reordered_foldl (reordered_start horder) hrows le_rfl
    refine ⟨reorder rows order, ?_, hend.length, getElem?_reorder horder⟩
    rw [reorderValues, hfold]
    rfl

/-- The string of the byte 0xFF is not moved, not even to its own position. -/
theorem reorderValues_invalid : reorderValues [[.varchar [0xFF]]] [0] =
    .error (.exception "String value is not valid UTF8") := by
  decide

/-- A NULL and a string, exchanged. -/
theorem reorderValues_two :
    [1, 0].Perm (List.range [[Value.null .varchar], [Value.varchar [0x61]]].length) ∧
      ∃ rows' : List (List Value),
        reorderValues [[.null .varchar], [.varchar [0x61]]] [1, 0] = .ok rows' ∧
          rows'.length = 2 ∧ ∀ p : ℕ, rows'[p]? =
            [1, 0][p]?.bind ([[Value.null .varchar], [Value.varchar [0x61]]][·]?) := by
  have horder : [1, 0].Perm (List.range [[Value.null .varchar], [Value.varchar [0x61]]].length) := by
    decide
  have hutf : Value.isUTF8String (some [0x61, 0]) = some true := by decide
  exact ⟨horder, (reorderValues_iff horder).2 (by simp [Movable, Value.type, hutf])⟩

end DuckDB.ChunkCollection
