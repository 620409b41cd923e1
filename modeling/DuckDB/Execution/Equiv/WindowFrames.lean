import DuckDB.Execution.Equiv.WindowFunctions
import DuckDB.Parser.WindowFrame

/-!
# Frames of window functions

A frame clause says which rows of the partition belong to the frame of a row.

* `SortedKeys.frame_iff`: when the computed interval consists of these rows.
-/

namespace DuckDB.PhysicalWindow

open List FrameClause

variable {R V : Type} [LinearOrder V]
variable {operations : WindowOperations V} {wexpr : BoundWindowExpression R V}
  {keys : List (List (Option V))} {rows : List R} {clause : FrameClause} {bound : FrameBound}
  {count i n m : ℕ}

/-! ### The rows of a frame -/

/-- Row `j` is not before the start of the frame of row `i`. -/
def AfterStart (wexpr : BoundWindowExpression R V) (keys : List (List (Option V))) (isRows : Bool)
    (n i j : ℕ) : FrameBound → Prop
  | .unboundedPreceding => True
  | .unboundedFollowing => False
  | .currentRow => i ≤ j ∨ ¬isRows ∧ SameKeys keys (sortColumns wexpr) j i
  | .valuePreceding => i ≤ j + n
  | .valueFollowing => i + n ≤ j

/-- Row `j` is not behind the end of the frame of row `i`. -/
def BeforeEnd (wexpr : BoundWindowExpression R V) (keys : List (List (Option V))) (isRows : Bool)
    (m i j : ℕ) : FrameBound → Prop
  | .unboundedPreceding => False
  | .unboundedFollowing => True
  | .currentRow => j ≤ i ∨ ¬isRows ∧ SameKeys keys (sortColumns wexpr) j i
  | .valuePreceding => j + m ≤ i
  | .valueFollowing => j ≤ i + m

/-- The rows of the partition that lie within the frame. -/
def InFrame (wexpr : BoundWindowExpression R V) (keys : List (List (Option V)))
    (clause : FrameClause) (count n m i j : ℕ) : Prop :=
  j ∈ partitionRows wexpr keys count i ∧ AfterStart wexpr keys clause.isRows n i j clause.start ∧
    BeforeEnd wexpr keys clause.isRows m i j clause.lastBound

/-- The row behind the last one of a frame that ends with the current row. -/
def IsCurrentEnd (wexpr : BoundWindowExpression R V) (keys : List (List (Option V)))
    (isRows : Bool) (count i e : ℕ) : Prop :=
  if isRows then e = i + 1 else IsGroupEnd keys (sortColumns wexpr) count i e

/-! ### The computed boundaries -/

/-- The offset of a bound, if it has one. -/
def HasOffset (operations : WindowOperations V) (argument : Option (WindowArgument R V))
    (rows : List R) (i : ℕ) (bound : FrameBound) (n : ℕ) : Prop :=
  bound = .valuePreceding ∨ bound = .valueFollowing →
    boundaryValue operations argument rows i = .ok (n : ℤ)

variable {isRows : Bool} {e : ℕ}

omit [LinearOrder V] in
theorem Bounded.boundaryValue_lt (h : Bounded operations rows.length)
    {argument : Option (WindowArgument R V)}
    (hn : boundaryValue operations argument rows i = .ok (n : ℤ)) :
    (n : ℤ) < 2 ^ 63 := by
  cases argument with
  | none => cases hn
  | some argument => exact (h.getNumericValue_range hn).2

theorem SortedKeys.exists_start (h : SortedKeys wexpr keys rows.length) (hi : i < rows.length)
    (hbounded : Bounded operations rows.length) (hstart : wexpr.startBoundary = transformed bound)
    (hbound : bound ≠ .unboundedFollowing) (hn : HasOffset operations wexpr.startExpr rows i bound n)
    (isRows : Bool) :
    let bounds := boundsBefore wexpr keys rows.length (i + 1)
    ∃ start first : ℤ, windowStart operations wexpr rows i bounds = .ok start ∧
      (∀ j, bounds.partitionStart ≤ j → (AfterStart wexpr keys isRows n i j bound ↔ first ≤ j)) ∧
      (bound = .unboundedPreceding ∧ start = bounds.partitionStart ∧ first = start ∨
        bound = .valuePreceding ∧ start = i - n ∧ first = start ∨
        bound = .currentRow ∧ start = bounds.peerStart ∧
          first = (if isRows then (i : ℤ) else start) ∨
        bound = .valueFollowing ∧ first = i + n ∧ first < 2 ^ 64 ∧
          start = if first < 2 ^ 63 then first else first - 2 ^ 64) := by
  dsimp only
  have hcount := hbounded.count_lt
  have hle := (h.start_le hi).2
  rw [windowStart, hstart]
  cases bound with
  | unboundedPreceding =>
    refine ⟨(boundsBefore wexpr keys rows.length (i + 1)).partitionStart, _, rfl, fun j hj => ?_,
      .inl ⟨rfl, rfl, rfl⟩⟩
    exact iff_of_true trivial (by omega)
  | unboundedFollowing => exact absurd rfl hbound
  | currentRow =>
    refine ⟨(boundsBefore wexpr keys rows.length (i + 1)).peerStart, _, rfl, fun j hj => ?_,
      .inr (.inr (.inl ⟨rfl, rfl, rfl⟩))⟩
    have hpeer := (h.atRow hi).peerStart j
    simp only [AfterStart]
    by_cases hj : j ≤ i
    · rw [hpeer hj]
      cases isRows
      · simp only [Bool.false_eq_true, not_false_eq_true, true_and, if_false]
        omega
      · simp
    · exact iff_of_true (.inl (by omega)) (by split_ifs <;> omega)
  | valuePreceding =>
    have hvalue := hn (.inl rfl)
    have hlt := hbounded.boundaryValue_lt hvalue
    refine ⟨i - n, _, ?_, fun j _ => ?_, .inr (.inl ⟨rfl, rfl, rfl⟩)⟩
    · simp only [transformed, hvalue, Except.map]
      rw [toSigned_eq (by omega) (by omega), if_pos (by omega)]
    · simp only [AfterStart]
      omega
  | valueFollowing =>
    have hvalue := hn (.inr rfl)
    have hlt := hbounded.boundaryValue_lt hvalue
    refine ⟨_, i + n, ?_, fun j _ => ?_, .inr (.inr (.inr ⟨rfl, rfl, by omega, rfl⟩))⟩
    · simp only [transformed, hvalue, Except.map]
      rw [toSigned_eq (by omega) (by omega)]
    · simp only [AfterStart]
      omega

theorem SortedKeys.exists_end (h : SortedKeys wexpr keys rows.length) (hi : i < rows.length)
    (hbounded : Bounded operations rows.length) (hend : wexpr.endBoundary = transformed bound)
    (hbound : bound ≠ .unboundedPreceding) (hm : HasOffset operations wexpr.endExpr rows i bound m)
    (isRows : Bool) (he : IsCurrentEnd wexpr keys isRows rows.length i e) :
    let bounds := boundsBefore wexpr keys rows.length (i + 1)
    ∃ stop last : ℤ, windowEnd operations wexpr rows i bounds = .ok stop ∧
      (∀ j < bounds.partitionEnd, BeforeEnd wexpr keys isRows m i j bound ↔ j < last) ∧
      (bound = .unboundedFollowing ∧ stop = bounds.partitionEnd ∧ last = stop ∨
        bound = .valuePreceding ∧ stop = i - m + 1 ∧ last = stop ∨
        bound = .currentRow ∧ stop = bounds.peerEnd ∧ last = e ∨
        bound = .valueFollowing ∧ last = i + m + 1 ∧ last < 2 ^ 64 ∧
          stop = if last < 2 ^ 63 then last else last - 2 ^ 64) := by
  dsimp only
  have hcount := hbounded.count_lt
  obtain ⟨-, hpartition, -⟩ := (h.isGroupEnd_iff hi).1 (h.atRow hi).partitionEnd
  rw [windowEnd, hend]
  cases bound with
  | unboundedPreceding => exact absurd rfl hbound
  | unboundedFollowing =>
    refine ⟨(boundsBefore wexpr keys rows.length (i + 1)).partitionEnd, _, rfl, fun j hj => ?_,
      .inl ⟨rfl, rfl, rfl⟩⟩
    exact iff_of_true trivial (by omega)
  | currentRow =>
    refine ⟨(boundsBefore wexpr keys rows.length (i + 1)).peerEnd, _, rfl, fun j hj => ?_,
      .inr (.inr (.inl ⟨rfl, rfl, rfl⟩))⟩
    simp only [BeforeEnd]
    cases isRows with
    | true =>
      obtain rfl : e = i + 1 := he
      simp only [not_true_eq_false, false_and, or_false]
      omega
    | false =>
      obtain ⟨hie, -, hpeers⟩ := (h.isGroupEnd_iff hi).1 (show IsGroupEnd _ _ _ _ _ from he)
      by_cases hij : i ≤ j
      · rw [hpeers j hij (by omega)]
        simp
        omega
      · exact iff_of_true (.inl (by omega)) (by omega)
  | valuePreceding =>
    have hvalue := hm (.inl rfl)
    have hlt := hbounded.boundaryValue_lt hvalue
    refine ⟨i - m + 1, _, ?_, fun j _ => ?_, .inr (.inl ⟨rfl, rfl, rfl⟩)⟩
    · simp only [transformed, hvalue, Except.map]
      rw [toSigned_eq (by omega) (by omega), if_pos (by omega)]
    · simp only [BeforeEnd]
      omega
  | valueFollowing =>
    have hvalue := hm (.inr rfl)
    have hlt := hbounded.boundaryValue_lt hvalue
    refine ⟨_, i + m + 1, ?_, fun j _ => ?_, .inr (.inr (.inr ⟨rfl, rfl, by omega, rfl⟩))⟩
    · simp only [transformed, hvalue, Except.map]
      rw [toSigned_eq (by omega) (by omega)]
    · simp only [BeforeEnd]
      omega

theorem forall_mem_interval_iff {s e s' e' : ℤ} (hs : 0 ≤ s) (hs' : 0 ≤ s') :
    (∀ j : ℕ, s ≤ j ∧ j < e ↔ s' ≤ j ∧ j < e') ↔ s = s' ∧ e = e' ∨ e ≤ s ∧ e' ≤ s' := by
  constructor
  · intro h
    have hs := h s.toNat
    have hs' := h s'.toNat
    have he := h (e - 1).toNat
    have he' := h (e' - 1).toNat
    omega
  · rintro (⟨rfl, rfl⟩ | hempty) j <;> omega

/-- The two intervals, cut off at the ends of the partition. -/
theorem clamped_eq_iff {ps pe qs qe count : ℕ} {start first stop last : ℤ}
    {lower upper : FrameBound} (hcount : count < 2 ^ 63) (hi : i < count) (hps : ps ≤ qs)
    (hqs : qs ≤ i) (hpe : i < pe) (hpe' : pe ≤ count) (hie : i < e) (he : e ≤ pe)
    (hqe : upper = .currentRow → i < qe ∧ qe ≤ pe)
    (horder : upper = .valuePreceding → lower = .unboundedPreceding ∨ lower = .valuePreceding)
    (hcurrent : upper = .currentRow → lower ≠ .valueFollowing)
    (hfirst : lower = .unboundedPreceding ∧ start = ps ∧ first = start ∨
      lower = .valuePreceding ∧ start = i - n ∧ first = start ∨
      lower = .currentRow ∧ start = qs ∧ first = (if isRows then (i : ℤ) else start) ∨
      lower = .valueFollowing ∧ first = i + n ∧ first < 2 ^ 64 ∧
        start = if first < 2 ^ 63 then first else first - 2 ^ 64)
    (hlast : upper = .unboundedFollowing ∧ stop = pe ∧ last = stop ∨
      upper = .valuePreceding ∧ stop = i - m + 1 ∧ last = stop ∨
      upper = .currentRow ∧ stop = qe ∧ last = e ∨
      upper = .valueFollowing ∧ last = i + m + 1 ∧ last < 2 ^ 64 ∧
        stop = if last < 2 ^ 63 then last else last - 2 ^ 64) :
    (max start ps = max first ps ∧
        (if stop < 0 ∨ pe < stop then (pe : ℤ) else stop) = min last pe ∨
      (if stop < 0 ∨ pe < stop then (pe : ℤ) else stop) ≤ max start ps ∧
        min last pe ≤ max first ps) ↔
    (isRows → lower = .currentRow → qs = i) ∧ (upper = .currentRow → qe = e) ∧
      (upper = .valuePreceding → m ≤ i + 1) ∧ (lower = .valueFollowing → i + n < 2 ^ 63) := by
  -- an interval with a wrong start or end still has the current row
  rcases hfirst with ⟨rfl, hs, hf⟩ | ⟨rfl, hs, hf⟩ | ⟨rfl, hs, hf⟩ | ⟨rfl, hf, hf', hs⟩ <;>
    rcases hlast with ⟨rfl, ht, hl⟩ | ⟨rfl, ht, hl⟩ | ⟨rfl, ht, hl⟩ | ⟨rfl, hl, hl', ht⟩ <;>
    simp only [reduceCtorEq, forall_const, false_implies, true_and, and_true, implies_true, iff_true,
      or_false, or_self, ne_eq, not_true_eq_false, not_false_eq_true, imp_false]
      at horder hcurrent hqe ⊢
  all_goals first
    | omega
    | cases isRows <;> simp only [Bool.false_eq_true, if_true, if_false, forall_const,
        false_implies, true_and, iff_true] at hf ⊢ <;> omega

/-- The current row starts its peer group. -/
theorem SortedKeys.peerStart_eq_iff (h : SortedKeys wexpr keys count) (hi : i < count) :
    (boundsBefore wexpr keys count (i + 1)).peerStart = i ↔
      i = 0 ∨ ¬SameKeys keys (sortColumns wexpr) (i - 1) i := by
  have hle := (h.start_le hi).2
  rw [(h.atRow hi).peerStart (i - 1) (by omega)]
  omega

omit [LinearOrder V] in
theorem IsCurrentEnd.bounds {q : ℕ} (he : IsCurrentEnd wexpr keys isRows count i e)
    (hq : IsGroupEnd keys (sortColumns wexpr) count i q) : i < e ∧ e ≤ q := by
  cases isRows with
  | true =>
    obtain rfl : e = i + 1 := he
    exact ⟨Nat.lt_succ_self i, hq.1.1⟩
  | false =>
    obtain rfl : e = q := IsLeast.unique he hq
    exact ⟨hq.1.1, le_rfl⟩

/-- The search for the end of the peers finds the end of a frame that ends with the current row. -/
theorem SortedKeys.currentEnd_iff (h : SortedKeys wexpr keys count) (hi : i < count)
    (hfinds : FindsPeerEnd wexpr) (he : IsCurrentEnd wexpr keys isRows count i e) :
    (∀ partitionEnd last, IsGroupEnd keys wexpr.partitions.length count i partitionEnd →
      IsCurrentEnd wexpr keys isRows count i last →
      ∀ k ∈ bisected last (partitionEnd - i) i partitionEnd,
        notGreater keys (sortColumns wexpr) k i = false) ↔
    (boundsBefore wexpr keys count (i + 1)).peerEnd = e := by
  have hrow := h.atRow hi
  obtain ⟨q, hq⟩ := exists_isGroupEnd keys (sortColumns wexpr) hi
  obtain ⟨hie, heq⟩ := he.bounds hq
  rw [h.peerEnd_eq_iff hi hfinds hq hie heq]
  constructor
  · intro hall
    exact hall _ _ hrow.partitionEnd he
  · intro hall p last hp hlast
    have heq : last = e := by
      cases isRows with
      | true => exact Eq.trans hlast (Eq.symm he)
      | false => exact IsLeast.unique hlast he
    rw [hp.unique hrow.partitionEnd, heq]
    exact hall

/-- **Window frames.**  CURRENT ROW is taken to mean the peers of the row in a ROWS frame, too, and
the end of these is not always found. An end before the first row becomes the end of the
partition, and a start that is no signed number becomes its start. -/
theorem SortedKeys.frame_iff (h : SortedKeys wexpr keys rows.length) (hi : i < rows.length)
    (hbounded : Bounded operations rows.length)
    (hclause : (clause.frameOptions >>=
      (transformWindowDef · wexpr.startExpr.isSome wexpr.endExpr.isSome)) =
        .ok (wexpr.startBoundary, wexpr.endBoundary))
    (hn : HasOffset operations wexpr.startExpr rows i clause.start n)
    (hm : HasOffset operations wexpr.endExpr rows i clause.lastBound m) :
    (∃ bounds, updateWindowBoundaries operations wexpr keys rows i
        (boundsBefore wexpr keys rows.length i) = .ok bounds ∧
      ∀ j : ℕ, bounds.windowStart ≤ j ∧ j < bounds.windowEnd ↔
        InFrame wexpr keys clause rows.length n m i j) ↔
    (clause.isRows → clause.start = .currentRow →
        i = 0 ∨ ¬SameKeys keys (sortColumns wexpr) (i - 1) i) ∧
      (clause.lastBound = .currentRow → ∀ partitionEnd last,
        IsGroupEnd keys wexpr.partitions.length rows.length i partitionEnd →
        IsCurrentEnd wexpr keys clause.isRows rows.length i last →
        ∀ k ∈ bisected last (partitionEnd - i) i partitionEnd,
          notGreater keys (sortColumns wexpr) k i = false) ∧
      (clause.lastBound = .valuePreceding → m ≤ i + 1) ∧
      (clause.start = .valueFollowing → i + n < 2 ^ 63) := by
  obtain ⟨haccepted, hboundaries⟩ := eq_transformed hclause
  obtain ⟨hstart, hend⟩ := Prod.mk.inj hboundaries
  obtain ⟨e, he⟩ : ∃ e, IsCurrentEnd wexpr keys clause.isRows rows.length i e := by
    unfold IsCurrentEnd
    split_ifs
    · exact ⟨_, rfl⟩
    · exact exists_isGroupEnd _ _ hi
  obtain ⟨start, first, hwindowStart, hafter, hfirst⟩ :=
    h.exists_start hi hbounded hstart haccepted.start_ne hn clause.isRows
  obtain ⟨stop, last, hwindowEnd, hbefore, hlast⟩ :=
    h.exists_end hi hbounded hend haccepted.last_ne hm clause.isRows he
  -- the rows of the frame are an interval, too
  have hframe : ∀ j : ℕ, InFrame wexpr keys clause rows.length n m i j ↔
      max first (boundsBefore wexpr keys rows.length (i + 1)).partitionStart ≤ j ∧
        j < min last (boundsBefore wexpr keys rows.length (i + 1)).partitionEnd := by
    intro j
    rw [InFrame, h.partitionRows_eq hi, Finset.mem_Ico, max_le_iff, lt_min_iff, Int.ofNat_le,
      Int.ofNat_lt]
    constructor
    · rintro ⟨⟨hj, hj'⟩, ha, hb⟩
      exact ⟨⟨(hafter j hj).1 ha, hj⟩, (hbefore j hj').1 hb, hj'⟩
    · rintro ⟨⟨ha, hj⟩, hb, hj'⟩
      exact ⟨⟨hj, hj'⟩, (hafter j hj).2 ha, (hbefore j hj').2 hb⟩
  have hcurrent : (clause.lastBound = .currentRow → ∀ partitionEnd last,
      IsGroupEnd keys wexpr.partitions.length rows.length i partitionEnd →
      IsCurrentEnd wexpr keys clause.isRows rows.length i last →
      ∀ k ∈ bisected last (partitionEnd - i) i partitionEnd,
        notGreater keys (sortColumns wexpr) k i = false) ↔ (clause.lastBound = .currentRow →
          (boundsBefore wexpr keys rows.length (i + 1)).peerEnd = e) :=
    forall_congr' fun hcurrent => h.currentEnd_iff hi (.inl (by rw [hend, hcurrent]; rfl)) he
  simp only [updateWindowBoundaries_eq hwindowStart hwindowEnd, Except.ok.injEq, exists_eq_left',
    hframe, hcurrent, ← h.peerStart_eq_iff hi]
  rw [forall_mem_interval_iff (by omega) (by omega)]
  have hcount := hbounded.count_lt
  obtain ⟨hle, hlt⟩ := h.start_le hi
  obtain ⟨hpartition, hpartition', -⟩ := (h.isGroupEnd_iff hi).1 (h.atRow hi).partitionEnd
  obtain ⟨q, hq⟩ := exists_isGroupEnd keys (sortColumns wexpr) hi
  have hqle := h.peerEnd_le hi (h.atRow hi).partitionEnd hq
  obtain ⟨hie, heq⟩ := he.bounds hq
  have hpeer : clause.lastBound = .currentRow →
      i < (boundsBefore wexpr keys rows.length (i + 1)).peerEnd ∧
        (boundsBefore wexpr keys rows.length (i + 1)).peerEnd ≤
          (boundsBefore wexpr keys rows.length (i + 1)).partitionEnd :=
    fun hcurrent => h.lt_peerEnd hi (.inl (by rw [hend, hcurrent]; rfl))
  exact clamped_eq_iff hcount hi hle hlt hpartition hpartition' hie (heq.trans hqle) hpeer
    haccepted.order haccepted.current hfirst hlast

/-- ROWS BETWEEN UNBOUNDED PRECEDING AND CURRENT ROW. -/
def rowsToCurrent : FrameClause := ⟨true, .unboundedPreceding, some .currentRow⟩

theorem frame_iff_rowsToCurrent :
    (∃ bounds, updateWindowBoundaries integers (overAll .sum 1) [] [5, 6] 1
        (boundsBefore (overAll .sum 1) [] 2 1) = .ok bounds ∧
      ∀ j : ℕ, bounds.windowStart ≤ j ∧ j < bounds.windowEnd ↔
        InFrame (overAll .sum 1) [] rowsToCurrent 2 0 0 1 j) ↔
    (true → FrameBound.unboundedPreceding = .currentRow →
        1 = 0 ∨ ¬SameKeys ([] : List (List (Option ℤ))) 0 0 1) ∧
      (FrameBound.currentRow = .currentRow → ∀ partitionEnd last,
        IsGroupEnd ([] : List (List (Option ℤ))) 0 2 1 partitionEnd →
        IsCurrentEnd (overAll .sum 1) [] true 2 1 last →
        ∀ k ∈ bisected last (partitionEnd - 1) 1 partitionEnd,
          notGreater ([] : List (List (Option ℤ))) 0 k 1 = false) ∧
      (FrameBound.currentRow = .valuePreceding → 0 ≤ 1 + 1) ∧
      (FrameBound.unboundedPreceding = .valueFollowing → 1 + 0 < 2 ^ 63) :=
  (show SortedKeys (overAll .sum 1) [] ([5, 6] : List ℤ).length from
    sortedKeys_overAll .sum 1 2).frame_iff (by decide)
    lawful_integers.toBounded rfl (fun h => absurd h (by decide)) (fun h => absurd h (by decide))

/-- Without ORDER BY the frame of the first row has the second one, too. -/
theorem not_inFrame_rowsToCurrent :
    (rowsToCurrent.frameOptions >>= (transformWindowDef · false false)) =
      .ok ((overAll .sum 1).startBoundary, (overAll .sum 1).endBoundary) ∧
    ¬∃ bounds, updateWindowBoundaries integers (overAll .sum 1) [] [5, 6] 0
        (boundsBefore (overAll .sum 1) [] 2 0) = .ok bounds ∧
      ∀ j : ℕ, bounds.windowStart ≤ j ∧ j < bounds.windowEnd ↔
        InFrame (overAll .sum 1) [] rowsToCurrent 2 0 0 0 j := by
  refine ⟨rfl, ?_⟩
  rintro ⟨bounds, hok, hall⟩
  obtain rfl := Except.ok.inj hok
  obtain ⟨-, -, hbefore⟩ := (hall 1).1 ⟨by decide, by decide⟩
  simp [rowsToCurrent, lastBound, BeforeEnd] at hbefore

end DuckDB.PhysicalWindow
