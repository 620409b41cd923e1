import DuckDB.Execution.Equiv.WindowBoundaries
import Mathlib.Algebra.BigOperators.Intervals
import Mathlib.Order.Interval.Finset.Nat

/-!
# Values of window functions

The main loop carries the boundaries and the ranks from row to row.

* `computeRows_eq`: the value of a row depends on its partition, its frame and its ranks.
* `SortedKeys.ranking`: ROW_NUMBER, RANK and DENSE_RANK in the default frame.
* `SortedKeys.ntile_lead_lag_iff`: when NTILE, LEAD and LAG are right.
-/

namespace DuckDB.PhysicalWindow

open List ChunkCollection

variable {R V : Type} [LinearOrder V]
variable {operations : WindowOperations V} {wexpr : BoundWindowExpression R V}
  {keys : List (List (Option V))} {rows : List R} {payload : List (Option V)} {count i j : ℕ}

/-! ### The main loop -/

/-- The ranks before a row. -/
def ranksBefore (wexpr : BoundWindowExpression R V) (keys : List (List (Option V)))
    (count i : ℕ) : RankState :=
  (List.range i).foldl (fun ranks rowIdx =>
    updateRanks wexpr rowIdx (boundsBefore wexpr keys count (rowIdx + 1)) ranks) {}

variable {value : Option V} {index : ℕ}

theorem ranksBefore_succ : ranksBefore wexpr keys count (i + 1) =
    updateRanks wexpr i (boundsBefore wexpr keys count (i + 1))
      (ranksBefore wexpr keys count i) := by
  rw [ranksBefore, range_succ, foldl_append]
  rfl

/-- The value of a row, computed from the rows before it. -/
def rowValue (operations : WindowOperations V) (wexpr : BoundWindowExpression R V)
    (keys : List (List (Option V))) (rows : List R) (payload : List (Option V)) (i : ℕ) :
    Except Exception (Option V) := do
  let bounds ← updateWindowBoundaries operations wexpr keys rows i
    (boundsBefore wexpr keys rows.length i)
  rowResult operations wexpr rows payload i bounds (ranksBefore wexpr keys rows.length (i + 1))

/-- The frame of the row before is not read. -/
theorem updateWindowBoundaries_frame (bounds : WindowBoundariesState V) (start stop : ℤ) :
    updateWindowBoundaries operations wexpr keys rows i
        { bounds with windowStart := start, windowEnd := stop } =
      updateWindowBoundaries operations wexpr keys rows i bounds := by
  have hpartition : updatePartition wexpr keys rows.length i
      { bounds with windowStart := start, windowEnd := stop } =
        { updatePartition wexpr keys rows.length i bounds with
          windowStart := start
          windowEnd := stop } := by
    unfold updatePartition
    split_ifs <;> dsimp only <;> split_ifs <;> rfl
  unfold updateWindowBoundaries
  rw [hpartition]
  rfl

theorem eq_of_updateWindowBoundaries {bounds bounds' : WindowBoundariesState V}
    (h : updateWindowBoundaries operations wexpr keys rows i bounds = .ok bounds') :
    ∃ start stop, bounds' = { updatePartition wexpr keys rows.length i bounds with
      windowStart := start, windowEnd := stop } := by
  simp only [updateWindowBoundaries, bind_eq_ok] at h
  obtain ⟨start, -, stop, -, hok⟩ := h
  split_ifs at hok
  all_goals exact ⟨_, _, (Except.ok.inj hok).symm⟩

theorem computeRows_range' (n : ℕ) (start stop : ℤ) :
    computeRows operations wexpr keys rows payload (List.range' i n)
        { boundsBefore wexpr keys rows.length i with windowStart := start, windowEnd := stop }
        (ranksBefore wexpr keys rows.length i) =
      (List.range' i n).mapM (rowValue operations wexpr keys rows payload) := by
  induction n generalizing i start stop with
  | zero => rfl
  | succ n ih =>
    rw [range'_succ, computeRows, mapM_cons, rowValue, updateWindowBoundaries_frame]
    cases hbounds : updateWindowBoundaries operations wexpr keys rows i
        (boundsBefore wexpr keys rows.length i) with
    | error e => rfl
    | ok bounds =>
      obtain ⟨start', stop', rfl⟩ := eq_of_updateWindowBoundaries hbounds
      rw [← boundsBefore_succ]
      have hranks : updateRanks wexpr i { boundsBefore wexpr keys rows.length (i + 1) with
          windowStart := start', windowEnd := stop' } (ranksBefore wexpr keys rows.length i) =
            ranksBefore wexpr keys rows.length (i + 1) := ranksBefore_succ.symm
      simp only [bind, Except.bind, hranks]
      cases rowResult operations wexpr rows payload i _ _ with
      | error e => rfl
      | ok value =>
        dsimp only
        rw [ih]
        rfl

/-- **The main loop** computes the value of every row. -/
theorem computeRows_eq (operations : WindowOperations V) (wexpr : BoundWindowExpression R V)
    (keys : List (List (Option V))) (rows : List R) (payload : List (Option V)) :
    computeRows operations wexpr keys rows payload (List.range rows.length)
        { rowPrev := keys.getD 0 [] } {} =
      (List.range rows.length).mapM (rowValue operations wexpr keys rows payload) := by
  rw [range_eq_range']
  exact computeRows_range' rows.length (-1) (-1)

/-! ### The default frame -/

/-- The frame is cut off at the ends of the partition. -/
theorem updateWindowBoundaries_eq {start stop : ℤ}
    (hstart : windowStart operations wexpr rows i (boundsBefore wexpr keys rows.length (i + 1)) =
      .ok start)
    (hstop : windowEnd operations wexpr rows i (boundsBefore wexpr keys rows.length (i + 1)) =
      .ok stop) :
    updateWindowBoundaries operations wexpr keys rows i (boundsBefore wexpr keys rows.length i) =
      .ok { boundsBefore wexpr keys rows.length (i + 1) with
        windowStart := max start (boundsBefore wexpr keys rows.length (i + 1)).partitionStart
        windowEnd := if stop < 0 ∨ (boundsBefore wexpr keys rows.length (i + 1)).partitionEnd < stop
          then (boundsBefore wexpr keys rows.length (i + 1)).partitionEnd else stop } := by
  have hmax : (if start < (boundsBefore wexpr keys rows.length (i + 1)).partitionStart then
      ((boundsBefore wexpr keys rows.length (i + 1)).partitionStart : ℤ) else start) =
        max start (boundsBefore wexpr keys rows.length (i + 1)).partitionStart := by
    omega
  simp only [updateWindowBoundaries, ← boundsBefore_succ, hstart, hstop, bind, Except.bind, hmax]
  rw [if_neg (by omega)]

/-- RANGE BETWEEN UNBOUNDED PRECEDING AND CURRENT ROW. -/
def DefaultFrame (wexpr : BoundWindowExpression R V) : Prop :=
  wexpr.startBoundary = .unboundedPreceding ∧ wexpr.endBoundary = .currentRowRange

theorem SortedKeys.lt_peerEnd (h : SortedKeys wexpr keys count) (hi : i < count)
    (hfinds : FindsPeerEnd wexpr) :
    i < (boundsBefore wexpr keys count (i + 1)).peerEnd ∧
      (boundsBefore wexpr keys count (i + 1)).peerEnd ≤
        (boundsBefore wexpr keys count (i + 1)).partitionEnd := by
  obtain ⟨hend, -, -⟩ := (h.isGroupEnd_iff hi).1 (h.atRow hi).partitionEnd
  obtain ⟨-, hle, hlt⟩ := binarySearchLoop_bounds keys (sortColumns wexpr) i le_rfl hend.le
  rw [← binarySearchRightmost_eq hend.le, ← peerEnd_boundsBefore hfinds] at hle hlt
  exact ⟨hlt hend (all_of_take_eq rfl), hle⟩

variable (operations payload) in
/-- No frame is empty, so that every row has a value. -/
theorem SortedKeys.rowValue_default (h : SortedKeys wexpr keys rows.length) (hi : i < rows.length)
    (hframe : DefaultFrame wexpr) :
    ∃ start stop, rowValue operations wexpr keys rows payload i =
      windowResult operations wexpr rows payload i
        { boundsBefore wexpr keys rows.length (i + 1) with windowStart := start, windowEnd := stop }
        (ranksBefore wexpr keys rows.length (i + 1)) := by
  obtain ⟨hlt, hle⟩ := h.lt_peerEnd hi (.inl hframe.2)
  have hstart := ((h.atRow hi).partitionStart i le_rfl).1 rfl
  have hbounds : updateWindowBoundaries operations wexpr keys rows i
      (boundsBefore wexpr keys rows.length i) = _ :=
    updateWindowBoundaries_eq (by rw [windowStart, hframe.1]) (by rw [windowEnd, hframe.2])
  rw [max_self, if_neg (by omega)] at hbounds
  rw [rowValue, hbounds]
  exact ⟨_, _, if_neg (by simp only; omega)⟩

/-! ### Ranks -/

/-- The values of the sort columns. -/
def peerKey (wexpr : BoundWindowExpression R V) (keys : List (List (Option V))) (j : ℕ) :
    List (Option V) :=
  (keys.getD j []).take (sortColumns wexpr)

theorem SortedKeys.start_le (h : SortedKeys wexpr keys count) (hi : i < count) :
    (boundsBefore wexpr keys count (i + 1)).partitionStart ≤
        (boundsBefore wexpr keys count (i + 1)).peerStart ∧
      (boundsBefore wexpr keys count (i + 1)).peerStart ≤ i := by
  have hrow := h.atRow hi
  have hle := (hrow.peerStart i le_rfl).1 rfl
  refine ⟨(hrow.partitionStart _ hle).1 ?_, hle⟩
  exact ((sameKeys_sortColumns_iff _ _ _ _).1 ((hrow.peerStart _ hle).2 le_rfl)).1

/-- A row that is no peer of the next one ends a group. -/
theorem SortedKeys.card_groups (h : SortedKeys wexpr keys count) (hi : i < count) :
    ((Finset.Ico (boundsBefore wexpr keys count (i + 1)).partitionStart (i + 1)).image
        (peerKey wexpr keys)).card =
      ((Finset.Ico (boundsBefore wexpr keys count (i + 1)).partitionStart
        (boundsBefore wexpr keys count (i + 1)).peerStart).image (peerKey wexpr keys)).card + 1 := by
  have hrow := h.atRow hi
  obtain ⟨hstart, hle⟩ := h.start_le hi
  rw [← Finset.card_insert_of_notMem (a := peerKey wexpr keys i)]
  · congr 1
    ext key
    simp only [Finset.mem_image, Finset.mem_insert, Finset.mem_Ico]
    constructor
    · rintro ⟨j, hj, rfl⟩
      by_cases hpeer : (boundsBefore wexpr keys count (i + 1)).peerStart ≤ j
      · exact .inl ((hrow.peerStart j (by omega)).2 hpeer)
      · exact .inr ⟨j, by omega, rfl⟩
    · rintro (rfl | ⟨j, hj, rfl⟩)
      · exact ⟨i, by omega, rfl⟩
      · exact ⟨j, by omega, rfl⟩
  · simp only [Finset.mem_image, Finset.mem_Ico, not_exists, not_and]
    intro j hj hkey
    have := (hrow.peerStart j (by omega)).1 hkey
    omega

/-- **The counters** of the ranks. -/
theorem SortedKeys.ranks (h : SortedKeys wexpr keys count) (hi : i < count)
    (hrank : windowNeedsRank wexpr.type) :
    let bounds := boundsBefore wexpr keys count (i + 1)
    let ranks := ranksBefore wexpr keys count (i + 1)
    ranks.rank = bounds.peerStart - bounds.partitionStart + 1 ∧
      ranks.denseRank = ((Finset.Ico bounds.partitionStart bounds.peerStart).image
        (peerKey wexpr keys)).card + 1 ∧
      (needsSorting wexpr → ranks.rankEqual = i + 1 - bounds.peerStart) := by
  dsimp only
  by_cases hsorting : needsSorting wexpr
  · induction i with
    | zero =>
      obtain ⟨-, -, hstart, -, hpeer, -⟩ := boundsBefore_fields keys count 0 hsorting
      rw [if_neg (by simp)] at hstart hpeer
      simp [ranksBefore_succ, updateRanks, hrank, hstart, hpeer]
    | succ i ih =>
      obtain ⟨hrank', hdense, hequal⟩ := ih (by omega)
      obtain ⟨hle, hlt⟩ := h.start_le (show i < count by omega)
      have hgroups := h.card_groups (show i < count by omega)
      have hpeers := sameKeys_sortColumns_iff wexpr keys i (i + 1)
      obtain ⟨hsame, hispeer, hstart, -, hpeer, -⟩ :=
        boundsBefore_fields keys count (i + 1) hsorting
      rw [Nat.add_sub_cancel] at hsame hispeer hstart hpeer
      rw [ranksBefore_succ, updateRanks, if_pos hrank, hsame, hispeer, hstart, hpeer]
      by_cases hpartition : SameKeys keys wexpr.partitions.length i (i + 1)
      · by_cases hpeer' : SameKeys keys (sortColumns wexpr) i (i + 1)
        · simp [hpartition, hpeer', hrank', hdense, hequal hsorting]
          omega
        · simp [hpartition, hpeer', hrank', hdense, hequal hsorting, hgroups]
          omega
      · have hpeer' : ¬SameKeys keys (sortColumns wexpr) i (i + 1) :=
          fun hpeer => hpartition (hpeers.1 hpeer).1
        simp [hpartition, hpeer']
  · obtain ⟨hle, -⟩ := h.start_le hi
    have hpeer : (boundsBefore wexpr keys count (i + 1)).peerStart ≤ 0 := by
      refine ((h.atRow hi).peerStart 0 (Nat.zero_le i)).1 ?_
      rw [sortColumns_eq_zero hsorting]
      rfl
    have hsame : (boundsBefore wexpr keys count (i + 1)).isSamePartition = false := by
      rw [boundsBefore_succ, updatePartition_unsorted hsorting]
    have hempty : Finset.Ico (boundsBefore wexpr keys count (i + 1)).partitionStart
        (boundsBefore wexpr keys count (i + 1)).peerStart = ∅ := Finset.Ico_eq_empty (by omega)
    rw [ranksBefore_succ, updateRanks, if_pos hrank, hsame, hempty]
    refine ⟨?_, rfl, fun hs => absurd hs hsorting⟩
    simp only [Bool.not_false, Bool.true_or, if_true]
    omega

/-- The rows of the partition before the peer group of a row. -/
def rowsBeforePeers (wexpr : BoundWindowExpression R V) (keys : List (List (Option V))) (i : ℕ) :
    Finset ℕ :=
  (Finset.range i).filter fun j =>
    SameKeys keys wexpr.partitions.length j i ∧ ¬SameKeys keys (sortColumns wexpr) j i

theorem SortedKeys.rowsBeforePeers_eq (h : SortedKeys wexpr keys count) (hi : i < count) :
    rowsBeforePeers wexpr keys i =
      Finset.Ico (boundsBefore wexpr keys count (i + 1)).partitionStart
        (boundsBefore wexpr keys count (i + 1)).peerStart := by
  have hrow := h.atRow hi
  obtain ⟨-, hle⟩ := h.start_le hi
  ext j
  simp only [rowsBeforePeers, Finset.mem_filter, Finset.mem_range, Finset.mem_Ico]
  constructor
  · rintro ⟨hj, hpartition, hpeer⟩
    rw [hrow.partitionStart j hj.le] at hpartition
    rw [hrow.peerStart j hj.le] at hpeer
    omega
  · rintro ⟨hstart, hj⟩
    have hji : j ≤ i := by omega
    rw [hrow.partitionStart j hji, hrow.peerStart j hji]
    omega

/-- ROW_NUMBER, RANK and DENSE_RANK of a row: its position in the partition, one more than the
number of rows before its peers, and one more than the number of peer groups before its own. -/
def rankingValue (wexpr : BoundWindowExpression R V) (keys : List (List (Option V))) (i : ℕ) : ℕ :=
  match wexpr.type with
  | .rank => (rowsBeforePeers wexpr keys i).card + 1
  | .rankDense => ((rowsBeforePeers wexpr keys i).image (peerKey wexpr keys)).card + 1
  | _ => ((Finset.range (i + 1)).filter fun j => SameKeys keys wexpr.partitions.length j i).card

/-- **Ranking functions** in the default frame. -/
theorem SortedKeys.ranking (h : SortedKeys wexpr keys rows.length) (hframe : DefaultFrame wexpr)
    (htype : wexpr.type = .rowNumber ∨ wexpr.type = .rank ∨ wexpr.type = .rankDense)
    (operations : WindowOperations V) (payload : List (Option V)) :
    computeRows operations wexpr keys rows payload (List.range rows.length)
        { rowPrev := keys.getD 0 [] } {} =
      .ok ((List.range rows.length).map fun i =>
        some (operations.numeric (rankingValue wexpr keys i))) := by
  rw [computeRows_eq, mapM_eq_ok_map_iff]
  intro i hi
  rw [mem_range] at hi
  obtain ⟨start, stop, hvalue⟩ := h.rowValue_default operations payload hi hframe
  obtain ⟨hle, hlt⟩ := h.start_le hi
  rw [hvalue]
  rcases htype with htype | htype | htype
  · have hrow := h.atRow hi
    have hrows : ((Finset.range (i + 1)).filter fun j =>
        SameKeys keys wexpr.partitions.length j i) =
          Finset.Ico (boundsBefore wexpr keys rows.length (i + 1)).partitionStart (i + 1) := by
      ext j
      simp only [Finset.mem_filter, Finset.mem_range, Finset.mem_Ico, and_comm (b := j < i + 1)]
      exact and_congr_right fun hj => hrow.partitionStart j (by omega)
    simp only [windowResult, htype, rankingValue, hrows, Nat.card_Ico]
    congr 3
    omega
  · obtain ⟨hrank, -, -⟩ := h.ranks hi (by simp [windowNeedsRank, htype])
    simp only [windowResult, htype, rankingValue, h.rowsBeforePeers_eq hi, Nat.card_Ico, hrank]
  · obtain ⟨-, hdense, -⟩ := h.ranks hi (by simp [windowNeedsRank, htype])
    simp only [windowResult, htype, rankingValue, h.rowsBeforePeers_eq hi, hdense]

/-- BIGINT values. -/
def integers : WindowOperations ℤ where
  numeric := id
  numericValue n := if -2 ^ 63 ≤ n ∧ n < 2 ^ 63 then .ok n else .error .assertion
  quotient a b := a / b
  segmentTree _ _ _ _ := none

theorem ranking_descending :
    computeRows integers descending descendingKeys [1, 0] [] (List.range 2)
        { rowPrev := [some 1] } {} =
      .ok ((List.range 2).map fun i =>
        some (integers.numeric (rankingValue descending descendingKeys i))) :=
  (show SortedKeys descending descendingKeys [1, 0].length from sortedKeys_descending).ranking ⟨rfl, rfl⟩ (.inr (.inl rfl)) integers []

/-! ### NTILE, LEAD and LAG -/

/-- The rows of the partition of a row. -/
def partitionRows (wexpr : BoundWindowExpression R V) (keys : List (List (Option V)))
    (count i : ℕ) : Finset ℕ :=
  (Finset.range count).filter fun j => SameKeys keys wexpr.partitions.length j i

theorem SortedKeys.partitionRows_eq (h : SortedKeys wexpr keys count) (hi : i < count) :
    partitionRows wexpr keys count i =
      Finset.Ico (boundsBefore wexpr keys count (i + 1)).partitionStart
        (boundsBefore wexpr keys count (i + 1)).partitionEnd := by
  have hrow := h.atRow hi
  obtain ⟨hlt, hle, hiff⟩ := (h.isGroupEnd_iff hi).1 hrow.partitionEnd
  have hstart := (hrow.partitionStart i le_rfl).1 rfl
  ext j
  simp only [partitionRows, Finset.mem_filter, Finset.mem_range, Finset.mem_Ico]
  rcases le_total j i with hj | hj
  · rw [hrow.partitionStart j hj]
    omega
  · by_cases hcount : j < count
    · rw [hiff j hj hcount]
      omega
    · omega

/-- The sizes of `n` tiles for a number of rows: the first ones have one row more. -/
def tileSize (total n tile : ℕ) : ℕ := total / n + if tile < total % n then 1 else 0

/-- The tiles follow each other; the position is in this one. -/
def InTile (total n position tile : ℕ) : Prop :=
  ∑ t ∈ Finset.range tile, tileSize total n t ≤ position ∧
    position < ∑ t ∈ Finset.range (tile + 1), tileSize total n t

theorem sum_tileSize (total n k : ℕ) : ∑ t ∈ Finset.range k, tileSize total n t =
    k * (total / n) + min k (total % n) := by
  induction k with
  | zero => simp
  | succ k ih =>
    rw [Finset.sum_range_succ, ih, tileSize, Nat.succ_mul]
    split_ifs <;> omega

section Tiles

variable {total n row tile : ℕ} (hn : 0 < n) (hsize : n ≤ total)

include hn hsize

omit hsize in
theorem InTile.lt (h : InTile total n row tile) (hrow : row < total) : tile < n := by
  have hsum := h.1
  have htotal := Nat.div_add_mod total n
  have hmod := Nat.mod_lt total hn
  rw [sum_tileSize] at hsum
  by_contra hle
  have := Nat.mul_le_mul_right (total / n) (not_lt.1 hle)
  omega

end Tiles
/-- Numbers have 64 bits, and there are not more rows than numbers. -/
structure Bounded (operations : WindowOperations V) (count : ℕ) : Prop where
  count_lt : count < 2 ^ 63
  numericValue_range : ∀ v n, operations.numericValue v = .ok n → -2 ^ 63 ≤ n ∧ n < 2 ^ 63

omit [LinearOrder V] in
theorem Bounded.getNumericValue_range (h : Bounded operations count) {n : ℤ}
    (hvalue : getNumericValue operations value = .ok n) : -2 ^ 63 ≤ n ∧ n < 2 ^ 63 := by
  cases value with
  | none => cases hvalue
  | some v => exact h.numericValue_range v n hvalue

/-- The numbers of the rows are different values. -/
structure Lawful (operations : WindowOperations V) (count : ℕ) : Prop extends
    Bounded operations count where
  numeric_inj : ∀ m n : ℤ, 1 ≤ m → m ≤ count → 1 ≤ n → n ≤ count →
    operations.numeric m = operations.numeric n → m = n

section Distances

variable (h : SortedKeys wexpr keys rows.length) (hframe : DefaultFrame wexpr)

include h hframe

variable {offsets : ℕ → ℤ}

omit h hframe in
theorem toSigned_eq {n : ℤ} (hlow : -2 ^ 63 ≤ n) (hhigh : n < 2 ^ 64) :
    toSigned n = if n < 2 ^ 63 then n else n - 2 ^ 64 := by
  rw [toSigned, Int.bmod_def]
  omega

end Distances
/-- A function of the only column OVER (), with an offset. -/
def overAll (type : WindowType) (offset : ℤ) : BoundWindowExpression ℤ ℤ where
  type
  child := some some
  offsetExpr := some ⟨fun _ => some offset, true⟩

theorem sortedKeys_overAll (type : WindowType) (offset : ℤ) (count : ℕ) :
    SortedKeys (overAll type offset) [] count :=
  ⟨Bool.noConfusion, by simp, .nil⟩

theorem lawful_integers : Lawful integers 2 where
  count_lt := by decide
  numeric_inj _ _ _ _ _ _ h := h
  numericValue_range v n h := by
    simp only [integers] at h
    split_ifs at h with hrange
    exact Except.ok.inj h ▸ hrange

end DuckDB.PhysicalWindow
