import DuckDB.Execution.WindowSegmentTree
import Mathlib.Tactic.Ring
import Mathlib.Tactic.Linarith

/-!
# The segment tree covers a range

Node `i` of level `l` stands for the rows from `i * 64 ^ l` on, `64 ^ l` of them unless the rows end
before (`Levels`). `Compute` visits rows and nodes that cover each row of the range once, nodes
that `ConstructTree` has built, and rows of one vector a visit (`compute_covers`).
-/

namespace DuckDB

namespace WindowSegmentTree

/-! ### Nodes -/

/-- The number of nodes of a level. -/
def levelSize (count : ℕ) : ℕ → ℕ
  | 0 => count
  | level + 1 => (levelSize count level + treeFanout - 1) / treeFanout

/-- The rows of the nodes from `first` to `last` of a level. -/
def segment (count level first last : ℕ) : List ℕ :=
  List.range' (first * treeFanout ^ level)
    (min count (last * treeFanout ^ level) - first * treeFanout ^ level)

variable {visit : Visit} {tree : WindowSegmentTree} {count first k last level levels top : ℕ}

theorem le_levelSize_mul (count level : ℕ) :
    count ≤ levelSize count level * treeFanout ^ level := by
  induction level with
  | zero => simp [levelSize]
  | succ level ih =>
    have hceil : levelSize count level ≤ levelSize count (level + 1) * treeFanout := by
      simp only [levelSize, treeFanout]
      omega
    calc count ≤ levelSize count level * treeFanout ^ level := ih
      _ ≤ levelSize count (level + 1) * treeFanout * treeFanout ^ level :=
        Nat.mul_le_mul_right _ hceil
      _ = levelSize count (level + 1) * treeFanout ^ (level + 1) := by ring

theorem segment_append (count level : ℕ) {middle : ℕ} (h₁ : first ≤ middle) (h₂ : middle ≤ last) :
    segment count level first middle ++ segment count level middle last
      = segment count level first last := by
  have h₁ := Nat.mul_le_mul_right (treeFanout ^ level) h₁
  have h₂ := Nat.mul_le_mul_right (treeFanout ^ level) h₂
  simp only [segment]
  generalize first * treeFanout ^ level = a, middle * treeFanout ^ level = b,
    last * treeFanout ^ level = c at *
  by_cases h : b ≤ count
  · obtain ⟨d, rfl⟩ := Nat.exists_eq_add_of_le h₁
    rw [Nat.min_eq_right h, Nat.add_sub_cancel_left, List.range'_append_1]
    congr 1
    omega
  · rw [show min count c - b = 0 by omega, List.range'_zero, List.append_nil]
    congr 1
    omega

/-- A segment is what its nodes stand for. -/
theorem flatMap_segment (count level first n : ℕ) :
    (List.range' first n).flatMap (fun i => segment count level i (i + 1))
      = segment count level first (first + n) := by
  induction n with
  | zero => simp [segment]
  | succ n ih =>
    rw [List.range'_1_concat, List.flatMap_append, ih, List.flatMap_singleton,
      segment_append _ _ (by omega) (by omega), Nat.add_assoc]

/-- A group of nodes is a node of the next level. -/
theorem segment_mul (count level first last : ℕ) :
    segment count level (first * treeFanout) (last * treeFanout)
      = segment count (level + 1) first last := by
  simp only [segment, Nat.pow_succ', Nat.mul_assoc]

/-- The last node ends with the rows. -/
theorem segment_min (count level first last : ℕ) :
    segment count level first (min (levelSize count level) last)
      = segment count level first last := by
  have h := le_levelSize_mul count level
  rw [segment, segment, ← Nat.mul_min_mul_right, ← Nat.min_assoc, Nat.min_eq_left h]

/-! ### The tree -/

/-- The tree has the levels up to `top`. -/
def Levels (count : ℕ) (tree : WindowSegmentTree) (top : ℕ) : Prop :=
  ∀ level ≤ top, 0 < level → ∀ i < levelSize count level,
    tree.node level i = some (segment count level i (i + 1))

/-- What the nodes of a built level stand for. -/
theorem windowSegmentValue_eq (htree : Levels count tree top) (hlevel : level ≤ top)
    (h : first ≤ last) (hlast : last ≤ levelSize count level) :
    tree.windowSegmentValue level first last = segment count level first last := by
  rw [windowSegmentValue]
  split_ifs with hempty hzero
  · rw [hempty, segment, Nat.sub_eq_zero_of_le (Nat.min_le_right _ _), List.range'_zero]
  · subst hzero
    rw [levelSize] at hlast
    rw [segment, Nat.pow_zero, Nat.mul_one, Nat.mul_one, Nat.min_eq_right hlast]
  · have hnodes : ∀ i ∈ List.range' first (last - first),
        (tree.node level i).getD [] = segment count level i (i + 1) := by
      intro i hi
      rw [List.mem_range'_1] at hi
      rw [htree level hlevel (Nat.pos_of_ne_zero hzero) i (by omega), Option.getD_some]
    rw [List.flatMap_congr hnodes, flatMap_segment, Nat.add_sub_cancel' h]

/-- New nodes leave the old ones where they are. -/
theorem Levels.append (htree : Levels count tree top) (nodes : List (List ℕ)) (starts : List ℕ) :
    Levels count ⟨tree.levelsFlatNative ++ nodes, tree.levelsFlatStart ++ starts⟩ top := by
  intro level hlevel hpos i hi
  obtain ⟨start, hstart, hvalue⟩ := Option.bind_eq_some_iff.1 (htree level hlevel hpos i hi)
  refine Option.bind_eq_some_iff.2 ⟨start, ?_, ?_⟩
  · rw [List.getElem?_append_left (List.getElem?_eq_some_iff.1 hstart).1, hstart]
  · rw [List.getElem?_append_left (List.getElem?_eq_some_iff.1 hvalue).1, hvalue]

/-- The nodes of a level. -/
def nodes (count level n : ℕ) : List (List ℕ) :=
  (List.range n).map fun i => segment count level i (i + 1)

theorem foldl_addNode (htree : Levels count tree level) {n : ℕ}
    (hn : n ≤ levelSize count (level + 1)) :
    (List.range n).foldl (addNode level (levelSize count level)) tree
      = { tree with levelsFlatNative := tree.levelsFlatNative ++ nodes count (level + 1) n } := by
  induction n with
  | zero => simp [nodes]
  | succ n ih =>
    have hfirst : n * treeFanout ≤ levelSize count level := by
      simp only [levelSize, treeFanout] at hn ⊢
      omega
    have hread := windowSegmentValue_eq (htree.append (nodes count (level + 1) n) [])
      (Nat.le_refl level)
      (show n * treeFanout ≤ min (levelSize count level) (n * treeFanout + treeFanout) by omega)
      (by omega)
    rw [segment_min, ← Nat.succ_mul, segment_mul, List.append_nil] at hread
    rw [List.range_succ, List.foldl_append, ih (by omega), List.foldl_cons, List.foldl_nil, addNode,
      ← Nat.succ_mul, hread]
    simp [nodes, List.range_succ]

/-- The loop over the levels ends with a tree of all levels up to one that has one node. -/
theorem exists_levels_constructLevels (htree : Levels count tree top)
    (hlength : tree.levelsFlatStart.length = top + 1)
    (hstart : tree.levelsFlatStart[top]? = some tree.levelsFlatNative.length) :
    ∃ k, Levels count (constructLevels tree top (levelSize count top)) k ∧
      (constructLevels tree top (levelSize count top)).levelsFlatStart.length = k + 1 ∧
      levelSize count k ≤ 1 := by
  induction hsize : levelSize count top using Nat.strong_induction_on generalizing top tree with
  | _ size ih =>
  rw [constructLevels]
  split_ifs with hone
  · have hnext : levelSize count (top + 1) < size := by
      simp only [levelSize, treeFanout]
      omega
    subst hsize
    simp only [constructLevel]
    rw [show (levelSize count top + treeFanout - 1) / treeFanout = levelSize count (top + 1)
      from rfl, foldl_addNode htree (Nat.le_refl _)]
    refine ih _ hnext ?_ ?_ ?_ rfl
    · intro level hlevel hpos i hi
      rcases Nat.lt_or_eq_of_le hlevel with hlt | rfl
      · exact htree.append _ _ level (by omega) hpos i hi
      · refine Option.bind_eq_some_iff.2 ⟨tree.levelsFlatNative.length, ?_, ?_⟩
        · dsimp only
          rw [Nat.add_sub_cancel, List.getElem?_append_left (by omega), hstart]
        · dsimp only
          rw [List.getElem?_append_right (by omega), Nat.add_sub_cancel, nodes,
            List.getElem?_map, List.getElem?_range hi, Option.map_some]
    · simp [hlength]
    · simp [← hlength]
  · exact ⟨top, htree, hlength, by omega⟩

/-- `ConstructTree` builds every level up to one that a single node covers. -/
theorem exists_levels (count : ℕ) :
    ∃ k, Levels count (constructTree count) k ∧
      (constructTree count).levelsFlatStart.length = k + 1 ∧ count ≤ treeFanout ^ k := by
  have hnone : Levels count {} 0 := fun level hlevel hpos => by omega
  obtain ⟨k, hlevels, hlength, hsize⟩ := exists_levels_constructLevels hnone rfl rfl
  refine ⟨k, hlevels, hlength, ?_⟩
  calc count ≤ levelSize count k * treeFanout ^ k := le_levelSize_mul count k
    _ ≤ 1 * treeFanout ^ k := Nat.mul_le_mul_right _ hsize
    _ = treeFanout ^ k := Nat.one_mul _

/-! ### The visits -/

/-- The first parent all of whose nodes lie behind `first`. -/
def nextFirst (first : ℕ) : ℕ :=
  if first ≠ first / treeFanout * treeFanout then first / treeFanout + 1 else first / treeFanout

/-- What `Compute` visits on a level before it goes on with the parents. -/
def fringe (level first last : ℕ) : List Visit :=
  (if first ≠ first / treeFanout * treeFanout
    then [⟨level, first, first / treeFanout * treeFanout + treeFanout⟩] else []) ++
  (if last ≠ last / treeFanout * treeFanout
    then [⟨level, last / treeFanout * treeFanout, last⟩] else [])

theorem computeLoop_succ (levels level first last : ℕ) :
    computeLoop (levels + 1) level first last
      = if first / treeFanout = last / treeFanout then [⟨level, first, last⟩]
        else fringe level first last ++
          computeLoop levels (level + 1) (nextFirst first) (last / treeFanout) := by
  simp only [computeLoop, fringe, nextFirst, List.append_assoc]

theorem segment_self (count level first : ℕ) : segment count level first first = [] := by
  rw [segment, Nat.sub_eq_zero_of_le (Nat.min_le_right _ _), List.range'_zero]

/-- The visits of a level are the nodes before and behind the groups of the parents. -/
theorem flatMap_fringe (count level first last : ℕ) :
    ((fringe level first last).flatMap fun visit =>
        segment count visit.level visit.first visit.last)
      = segment count level first (nextFirst first * treeFanout) ++
        segment count level (last / treeFanout * treeFanout) last := by
  rw [fringe, nextFirst, List.flatMap_append]
  congr 1
  · split_ifs with h
    · rw [List.flatMap_singleton, Nat.succ_mul]
    · rw [← not_not.1 h, segment_self, List.flatMap_nil]
  · split_ifs with h
    · rw [List.flatMap_singleton]
    · rw [← not_not.1 h, segment_self, List.flatMap_nil]

theorem nextFirst_le (h : first ≤ last) (hparent : first / treeFanout ≠ last / treeFanout) :
    first ≤ nextFirst first * treeFanout ∧ nextFirst first ≤ last / treeFanout := by
  unfold nextFirst
  split_ifs with hgroup
  all_goals simp only [treeFanout] at *; omega

variable (count level) in
/-- The visits cover the segment: what is left for the parents lies between those of the level. -/
theorem computeLoop_perm (h : first ≤ last) (hlast : last < treeFanout ^ levels) :
    ((computeLoop levels level first last).flatMap fun visit =>
        segment count visit.level visit.first visit.last).Perm
      (segment count level first last) := by
  induction levels generalizing level first last with
  | zero =>
    rw [Nat.pow_zero] at hlast
    have hzero : first = last := by omega
    rw [hzero, segment_self, computeLoop, List.flatMap_nil]
  | succ levels ih =>
    rw [computeLoop_succ]
    split_ifs with hparent
    · rw [List.flatMap_singleton]
    · obtain ⟨hfirst, hnext⟩ := nextFirst_le h hparent
      have hrest := ih (level + 1) hnext
        (Nat.div_lt_of_lt_mul (by rwa [← Nat.pow_succ']))
      have hback : last / treeFanout * treeFanout ≤ last := Nat.div_mul_le_self _ _
      have hmiddle := Nat.mul_le_mul_right treeFanout hnext
      rw [List.flatMap_append, flatMap_fringe, ← segment_append count level hfirst
        (hmiddle.trans hback), ← segment_append count level hmiddle hback, segment_mul,
        List.append_assoc]
      exact (List.perm_append_comm.trans (hrest.append_right _)).append_left _

/-- A visit stays in a group, and all its nodes end within the rows. -/
structure Visit.Within (count : ℕ) (visit : Visit) : Prop where
  le : visit.first ≤ visit.last
  group : ∀ i, visit.first ≤ i → i < visit.last → i / treeFanout = visit.first / treeFanout
  bound : visit.last * treeFanout ^ visit.level ≤ count

theorem within_of_mem_fringe (h : first ≤ last) (hparent : first / treeFanout ≠ last / treeFanout)
    (hlast : last * treeFanout ^ level ≤ count) (hvisit : visit ∈ fringe level first last) :
    visit.Within count := by
  rw [fringe, List.mem_append] at hvisit
  rcases hvisit with hvisit | hvisit
  · split_ifs at hvisit
    · cases List.mem_singleton.1 hvisit
      refine ⟨?_, ?_, Nat.le_trans (Nat.mul_le_mul_right _ ?_) hlast⟩
      all_goals simp only [treeFanout] at *; omega
    · cases hvisit
  · split_ifs at hvisit
    · cases List.mem_singleton.1 hvisit
      refine ⟨?_, ?_, hlast⟩
      all_goals simp only [treeFanout] at *; omega
    · cases hvisit

theorem within_of_mem_computeLoop (h : first ≤ last) (hlast : last * treeFanout ^ level ≤ count)
    (hvisit : visit ∈ computeLoop levels level first last) : visit.Within count := by
  induction levels generalizing level first last with
  | zero => cases hvisit
  | succ levels ih =>
    rw [computeLoop_succ] at hvisit
    split_ifs at hvisit with hparent
    · cases List.mem_singleton.1 hvisit
      refine ⟨h, ?_, hlast⟩
      simp only [treeFanout] at *
      omega
    · rcases List.mem_append.1 hvisit with hvisit | hvisit
      · exact within_of_mem_fringe h hparent hlast hvisit
      · refine ih (nextFirst_le h hparent).2 (Nat.le_trans ?_ hlast) hvisit
        rw [Nat.pow_succ', ← Nat.mul_assoc]
        exact Nat.mul_le_mul_right _ (Nat.div_mul_le_self _ _)

/-! ### The cover -/

/-- A visit that ends within the rows is to a level that has been built. -/
theorem Visit.Within.level_le (h : visit.Within count) (hcount : count ≤ treeFanout ^ k)
    (hnonempty : visit.first < visit.last) : visit.level ≤ k := by
  have hpow : treeFanout ^ visit.level ≤ treeFanout ^ k :=
    calc treeFanout ^ visit.level ≤ visit.last * treeFanout ^ visit.level :=
          Nat.le_mul_of_pos_left _ (by omega)
      _ ≤ treeFanout ^ k := h.bound.trans hcount
  exact (Nat.pow_le_pow_iff_right (by decide)).1 hpow

theorem Visit.Within.last_le (h : visit.Within count) : visit.last ≤ levelSize count visit.level :=
  Nat.le_of_mul_le_mul_right (h.bound.trans (le_levelSize_mul count visit.level))
    (Nat.pow_pos (by decide))

/-- What a visit aggregates. -/
theorem visited_eq (htree : Levels count tree k) (hcount : count ≤ treeFanout ^ k)
    (h : visit.Within count) :
    tree.visited visit = segment count visit.level visit.first visit.last := by
  rcases Nat.lt_or_eq_of_le h.le with hlt | heq
  · exact windowSegmentValue_eq htree (h.level_le hcount hlt) h.le h.last_le
  · rw [visited, windowSegmentValue, if_pos heq, heq, segment_self]

/-- For every number of rows and every range of them: the visits of `Compute` cover each row of the
range once and no other row, the rows of a visit to level 0 are in one vector, and the nodes of a
visit to another level have been built and stand for `64 ^ level` rows each. -/
theorem compute_covers {count first last : ℕ} (h : first ≤ last) (hlast : last ≤ count) :
    ((compute (constructTree count) first last).flatMap (constructTree count).visited).Perm
        (List.range' first (last - first)) ∧
    ∀ visit ∈ compute (constructTree count) first last,
      (visit.level = 0 → ∀ row, visit.first ≤ row → row < visit.last →
        row / standardVectorSize = visit.first / standardVectorSize) ∧
      (visit.level ≠ 0 → ∀ i, visit.first ≤ i → i < visit.last →
        (constructTree count).node visit.level i
          = some (List.range' (i * treeFanout ^ visit.level) (treeFanout ^ visit.level))) := by
  obtain ⟨k, htree, hlength, hcount⟩ := exists_levels count
  have hwithin : ∀ visit ∈ compute (constructTree count) first last, visit.Within count :=
    fun visit hvisit => within_of_mem_computeLoop h (by simpa using hlast) hvisit
  constructor
  · rw [List.flatMap_congr fun visit hvisit => visited_eq htree hcount (hwithin visit hvisit)]
    have hlevels : last < treeFanout ^ (k + 1 + 1) :=
      (hlast.trans hcount).trans_lt (Nat.pow_lt_pow_right (by decide) (by omega))
    have hperm := computeLoop_perm count 0 h hlevels
    rw [compute, hlength]
    simpa [segment, Nat.min_eq_right hlast] using hperm
  · intro visit hvisit
    have hv := hwithin visit hvisit
    constructor
    · intro _ row hfirst hrow
      have hgroup := hv.group row hfirst hrow
      simp only [treeFanout, standardVectorSize] at *
      omega
    · intro hlevel i hfirst hi
      have hend : (i + 1) * treeFanout ^ visit.level ≤ count :=
        (Nat.mul_le_mul_right _ hi).trans hv.bound
      rw [htree visit.level (hv.level_le hcount (by omega)) (Nat.pos_of_ne_zero hlevel) i
        (hi.trans_le hv.last_le), segment, Nat.min_eq_right hend, Nat.succ_mul,
        Nat.add_sub_cancel_left]

theorem compute_covers_hundred :
    ((compute (constructTree 100) 3 70).flatMap (constructTree 100).visited).Perm
      (List.range' 3 67) :=
  (compute_covers (show 3 ≤ 70 by decide) (show 70 ≤ 100 by decide)).1

end WindowSegmentTree

end DuckDB
