import DuckDB.Common.Constants
import DuckDB.Execution.PhysicalWindow
import Mathlib.Data.Int.Order.Basic
import Mathlib.Data.List.GetD
import Mathlib.Order.Bounds.Basic

/-!
# Partitions and peers of the window operator

The rows of a partition, and those of a peer group, are neighbours in the sorted input.

* `SortedKeys.atRow`: the partition of a row and the start of its peer group are found.
* `SortedKeys.ends_iff`: when the binary search finds the end of the peer group.
-/

namespace DuckDB.PhysicalWindow

open List ChunkCollection

variable {R V : Type} [LinearOrder V]
variable {wexpr : BoundWindowExpression R V} {keys : List (List (Option V))}
  {columns count i j k e : ℕ}

/-- The keys of the rows are in the order of the PARTITION BY and ORDER BY clauses. Without such
clauses there are no keys. -/
structure SortedKeys (wexpr : BoundWindowExpression R V) (keys : List (List (Option V)))
    (count : ℕ) : Prop where
  length_eq : needsSorting wexpr → keys.length = count
  width : ∀ key ∈ keys, key.length = (sortOrders wexpr).length
  sorted : keys.Pairwise fun a b => compareTuple (sortOrders wexpr) a b ≠ .gt

/-- The first columns of the keys of two rows are equal. -/
def SameKeys (keys : List (List (Option V))) (columns i j : ℕ) : Prop :=
  (keys.getD i []).take columns = (keys.getD j []).take columns

instance : Decidable (SameKeys keys columns i j) :=
  inferInstanceAs (Decidable (_ = _))

/-- The columns of `SortCollectionForWindow`. -/
def sortColumns (wexpr : BoundWindowExpression R V) : ℕ :=
  wexpr.partitions.length + wexpr.orders.length

/-! ### Groups of rows -/

variable {a b : List (Option V)} {orders : List OrderType}

theorem compareValue_eq_iff {a b : Option V} : compareValue a b = .eq ↔ a = b := by
  cases a <;> cases b <;> simp only [compareValue] <;> grind

theorem compareValue_eq_gt_iff {a b : Option V} :
    compareValue a b = .gt ↔ compareValue b a = .lt := by
  cases a <;> cases b <;> simp only [compareValue] <;> grind

theorem compareTuple_cons_ne_gt {order : OrderType} {x y : Option V}
    (h : compareTuple (order :: orders) (x :: a) (y :: b) ≠ .gt) :
    x = y ∧ compareTuple orders a b ≠ .gt ∨
      compareValue x y = if order = .ascending then .lt else .gt := by
  rw [← compareValue_eq_iff]
  cases hxy : compareValue x y <;> cases order <;> simp_all [compareTuple]

/-- A key between two keys that agree in the first columns agrees with them. -/
theorem take_eq_of_between {c : List (Option V)} (ha : a.length = orders.length)
    (hb : b.length = orders.length) (hc : c.length = orders.length)
    (hab : compareTuple orders a b ≠ .gt) (hbc : compareTuple orders b c ≠ .gt)
    (h : a.take columns = c.take columns) : b.take columns = c.take columns := by
  induction orders generalizing a b c columns with
  | nil => rw [length_eq_zero_iff.1 hb, length_eq_zero_iff.1 hc]
  | cons order orders ih =>
    match a, b, c, columns with
    | _, _, _, 0 => rfl
    | x :: a, y :: b, z :: c, columns + 1 =>
      obtain ⟨rfl, htail⟩ := List.cons.inj h
      have hrefl : compareValue x x = .eq := compareValue_eq_iff.2 rfl
      rcases compareTuple_cons_ne_gt hab with ⟨rfl, hab'⟩ | hxy
      · rcases compareTuple_cons_ne_gt hbc with ⟨-, hbc'⟩ | hyx
        · rw [take_succ_cons, take_succ_cons, ih (Nat.succ.inj ha) (Nat.succ.inj hb)
            (Nat.succ.inj hc) hab' hbc' htail]
        · rw [hrefl] at hyx
          exact absurd hyx (by split_ifs <;> exact nofun)
      · rcases compareTuple_cons_ne_gt hbc with ⟨rfl, -⟩ | hyx
        · rw [hrefl] at hxy
          exact absurd hxy (by split_ifs <;> exact nofun)
        · have hgt := compareValue_eq_gt_iff (a := x) (b := y)
          have hgt' := compareValue_eq_gt_iff (a := y) (b := x)
          rw [hxy, hyx] at hgt hgt'
          split_ifs at hgt hgt' <;> simp at hgt hgt'

/-- In ascending columns, a later key that is not greater in any of them is the same. -/
theorem take_eq_of_ascending (ha : a.length = orders.length) (hb : b.length = orders.length)
    (hab : compareTuple orders a b ≠ .gt)
    (horders : ∀ order ∈ orders.take columns, order = .ascending)
    (h : ((b.zip a).take columns).all fun p => compareValue p.1 p.2 ≠ .gt) :
    b.take columns = a.take columns := by
  induction orders generalizing a b columns with
  | nil => rw [length_eq_zero_iff.1 ha, length_eq_zero_iff.1 hb]
  | cons order orders ih =>
    match a, b, columns with
    | _, _, 0 => rfl
    | x :: a, y :: b, columns + 1 =>
      simp only [zip_cons_cons, take_succ_cons, all_cons, Bool.and_eq_true, decide_eq_true_eq,
        forall_mem_cons] at h horders ⊢
      rcases compareTuple_cons_ne_gt hab with ⟨rfl, hab'⟩ | hxy
      · rw [ih (Nat.succ.inj ha) (Nat.succ.inj hb) hab' horders.2 h.2]
      · rw [if_pos horders.1, ← compareValue_eq_gt_iff] at hxy
        exact absurd hxy h.1

omit [LinearOrder V] in
theorem length_sortOrders (wexpr : BoundWindowExpression R V) :
    (sortOrders wexpr).length = sortColumns wexpr := by
  simp [sortOrders, sortColumns]

namespace SortedKeys

variable (h : SortedKeys wexpr keys count)

include h

theorem length_key (hi : i < count) : (keys.getD i []).length = (sortOrders wexpr).length := by
  by_cases hlt : i < keys.length
  · rw [getD_eq_getElem _ _ hlt]
    exact h.width _ (getElem_mem hlt)
  · have hsorting : ¬needsSorting wexpr := fun hs => hlt (h.length_eq hs ▸ hi)
    rw [getD_eq_default _ _ (not_lt.1 hlt), length_sortOrders]
    simp only [needsSorting, decide_eq_true_eq, not_lt, Nat.le_zero] at hsorting
    exact hsorting.symm

theorem compare_ne_gt (hij : i < j) :
    compareTuple (sortOrders wexpr) (keys.getD i []) (keys.getD j []) ≠ .gt := by
  by_cases hlt : j < keys.length
  · rw [getD_eq_getElem _ _ hlt, getD_eq_getElem _ _ (hij.trans hlt)]
    exact pairwise_iff_getElem.1 h.sorted i j (hij.trans hlt) hlt hij
  · rw [getD_eq_default _ _ (not_lt.1 hlt)]
    simp [compareTuple]

/-- The rows with equal keys are neighbours. -/
theorem sameKeys_of_between (hij : i ≤ j) (hjk : j ≤ k) (hk : k < count)
    (hsame : SameKeys keys columns i k) : SameKeys keys columns j k := by
  rcases hij.eq_or_lt with rfl | hij
  · exact hsame
  rcases hjk.eq_or_lt with rfl | hjk
  · rfl
  have hj := hjk.trans hk
  exact take_eq_of_between (h.length_key (hij.trans hj)) (h.length_key hj) (h.length_key hk)
    (h.compare_ne_gt hij) (h.compare_ne_gt hjk) hsame

end SortedKeys

/-- The first row behind a row whose keys differ in the first columns, or the number of rows. -/
def IsGroupEnd (keys : List (List (Option V))) (columns count i e : ℕ) : Prop :=
  IsLeast {j | i < j ∧ (j = count ∨ ¬SameKeys keys columns j i)} e

theorem SortedKeys.isGroupEnd_iff (h : SortedKeys wexpr keys count) (hi : i < count) :
    IsGroupEnd keys columns count i e ↔ i < e ∧ e ≤ count ∧
      ∀ j, i ≤ j → j < count → (SameKeys keys columns j i ↔ j < e) := by
  constructor
  · rintro ⟨⟨hie, he⟩, hleast⟩
    have hcount : e ≤ count := hleast ⟨hi, .inl rfl⟩
    refine ⟨hie, hcount, fun j hij hj => ⟨fun hsame => ?_, fun hje => ?_⟩⟩
    · by_contra hej
      rcases he with rfl | he
      · exact hej hj
      · have hei : SameKeys keys columns e j :=
          h.sameKeys_of_between hie.le (not_lt.1 hej) hj hsame.symm
        exact he (hei.trans hsame)
    · by_contra hdiffers
      rcases hij.eq_or_lt with rfl | hij
      · exact hdiffers rfl
      · exact absurd (hleast ⟨hij, .inr hdiffers⟩) (not_le.2 hje)
  · rintro ⟨hie, hcount, hiff⟩
    refine ⟨⟨hie, ?_⟩, fun j ⟨hij, hj⟩ => ?_⟩
    · rcases hcount.eq_or_lt with rfl | hlt
      · exact .inl rfl
      · exact .inr fun hsame => lt_irrefl e ((hiff e hie.le hlt).1 hsame)
    · by_contra hje
      rcases hj with rfl | hj
      · exact hje hcount
      · exact hj ((hiff j hij.le ((not_le.1 hje).trans_le hcount)).2 (not_le.1 hje))

/-! ### Binary search -/

/-- What `BinarySearchRightmost` asks about a row: it is not greater in any of the columns. -/
def notGreater (keys : List (List (Option V))) (columns m i : ℕ) : Bool :=
  (((keys.getD m []).zip (keys.getD i [])).take columns).all fun p => compareValue p.1 p.2 ≠ .gt

/-- The rows at or behind `e` that a binary search looks at if it finds `e`. -/
def bisected (e : ℕ) : ℕ → ℕ → ℕ → List ℕ
  | 0, _, _ => []
  | fuel + 1, l, r =>
    if l < r then
      if (l + r) / 2 < e then bisected e fuel ((l + r) / 2 + 1) r
      else (l + r) / 2 :: bisected e fuel l ((l + r) / 2)
    else []

variable {fuel l r : ℕ}

theorem mem_bisected {m : ℕ} (h : m ∈ bisected e fuel l r) : e ≤ m ∧ l ≤ m ∧ m < r := by
  induction fuel generalizing l r with
  | zero => simp [bisected] at h
  | succ fuel ih =>
    rw [bisected] at h
    split_ifs at h with hlr hm
    · have := ih h
      omega
    · rcases mem_cons.1 h with rfl | h
      · omega
      · have := ih h
        omega
    · simp at h

variable (keys columns i) in
/-- The search stays between its bounds, and goes on behind a row that is not greater. -/
theorem binarySearchLoop_bounds (hfuel : r - l ≤ fuel) (hlr : l ≤ r) :
    let res := binarySearchLoop keys (keys.getD i []) columns fuel l r
    l ≤ res ∧ res ≤ r ∧ (l < r → notGreater keys columns l i → l < res) := by
  induction fuel generalizing l r with
  | zero =>
    dsimp only [binarySearchLoop]
    omega
  | succ fuel ih =>
    dsimp only at ih ⊢
    unfold binarySearchLoop
    split_ifs with hlt
    · dsimp only
      split_ifs with hm
      · have := @ih ((l + r) / 2 + 1) r (by omega) (by omega)
        omega
      · have hrest := @ih l ((l + r) / 2) (by omega) (by omega)
        refine ⟨hrest.1, by omega, fun _ hl => hrest.2.2 ?_ hl⟩
        refine lt_of_le_of_ne (by omega) fun heq => hm ?_
        rw [← heq]
        exact hl
    · omega

/-- **The binary search** finds `e`, if the rows before it are not greater, exactly if all rows
behind it that the search looks at are greater in some column. -/
theorem binarySearchLoop_eq_iff (hfuel : r - l ≤ fuel) (hl : l ≤ e) (hr : e ≤ r)
    (hbelow : ∀ m, l ≤ m → m < e → notGreater keys columns m i) :
    binarySearchLoop keys (keys.getD i []) columns fuel l r = e ↔
      ∀ m ∈ bisected e fuel l r, notGreater keys columns m i = false := by
  induction fuel generalizing l r with
  | zero =>
    simp only [binarySearchLoop, bisected, not_mem_nil, false_implies, implies_true, iff_true]
    omega
  | succ fuel ih =>
    unfold binarySearchLoop bisected
    split_ifs with hlr hm
    · have hbelow' := hbelow ((l + r) / 2) (by omega) hm
      simp only [notGreater] at hbelow'
      rw [if_pos hbelow']
      exact ih (by omega) (by omega) hr fun m hm => hbelow m (by omega)
    · dsimp only
      rw [forall_mem_cons]
      split_ifs with hgreater
      · -- the search goes on behind the row, and so behind `e`
        have hle := (binarySearchLoop_bounds keys columns i
          (show r - ((l + r) / 2 + 1) ≤ fuel by omega) (by omega)).1
        have hne : notGreater keys columns ((l + r) / 2) i ≠ false := by
          rw [notGreater, hgreater]
          exact Bool.noConfusion
        exact ⟨fun heq => by omega, fun hall => absurd hall.1 hne⟩
      · have hgreater' : notGreater keys columns ((l + r) / 2) i = false := by
          simpa [notGreater] using hgreater
        rw [and_iff_right hgreater']
        exact ih (by omega) hl (by omega) hbelow
    · simp only [not_mem_nil, false_implies, implies_true, iff_true]
      omega

theorem binarySearchRightmost_eq (hlr : l ≤ r) :
    binarySearchRightmost keys (keys.getD i []) l r columns =
      binarySearchLoop keys (keys.getD i []) columns (r - l) l r := by
  unfold binarySearchRightmost
  split_ifs with hcolumns
  · subst hcolumns
    refine ((binarySearchLoop_eq_iff le_rfl hlr le_rfl fun m _ _ => by simp [notGreater]).2 ?_).symm
    intro m hm
    have := mem_bisected hm
    omega
  · rfl

theorem all_of_take_eq (h : a.take columns = b.take columns) :
    ((a.zip b).take columns).all fun p => compareValue p.1 p.2 ≠ .gt := by
  induction columns generalizing a b with
  | zero => rfl
  | succ columns ih =>
    match a, b with
    | [], _ | _ :: _, [] => rfl
    | x :: a, y :: b =>
      obtain ⟨rfl, hrest⟩ := List.cons.inj h
      simp only [zip_cons_cons, take_succ_cons, all_cons, ih hrest, compareValue_eq_iff.2]
      rfl

/-- The search for the end of a partition succeeds: its columns are ascending. -/
theorem SortedKeys.partitionEnd_eq (h : SortedKeys wexpr keys count) (hi : i < count)
    (he : IsGroupEnd keys wexpr.partitions.length count i e) :
    binarySearchRightmost keys (keys.getD i []) i count wexpr.partitions.length = e := by
  obtain ⟨hie, hcount, hiff⟩ := (h.isGroupEnd_iff hi).1 he
  rw [binarySearchRightmost_eq hi.le, binarySearchLoop_eq_iff le_rfl hie.le hcount fun m hm hme =>
    all_of_take_eq ((hiff m hm (hme.trans_le hcount)).2 hme)]
  intro m hm
  obtain ⟨hem, him, hmc⟩ := mem_bisected hm
  rw [← Bool.not_eq_true]
  intro hgreater
  refine absurd ((hiff m him hmc).1 ?_) (not_lt.2 hem)
  refine take_eq_of_ascending (h.length_key hi) (h.length_key hmc)
    (h.compare_ne_gt (hie.trans_le hem)) (fun order horder => ?_) hgreater
  rw [sortOrders, take_left' (by simp)] at horder
  obtain ⟨_, -, rfl⟩ := mem_map.1 horder
  rfl

/-! ### The main loop -/

/-- The partition and the peers before a row: the main loop up to it, without the frames. -/
def boundsBefore (wexpr : BoundWindowExpression R V) (keys : List (List (Option V)))
    (count i : ℕ) : WindowBoundariesState V :=
  (List.range i).foldl (fun bounds rowIdx => updatePartition wexpr keys count rowIdx bounds)
    { rowPrev := keys.getD 0 [] }

theorem boundsBefore_succ : boundsBefore wexpr keys count (i + 1) =
    updatePartition wexpr keys count i (boundsBefore wexpr keys count i) := by
  rw [boundsBefore, range_succ, foldl_append]
  rfl

/-- What the loop knows about the partition and the peers of a row. -/
structure AtRow (wexpr : BoundWindowExpression R V) (keys : List (List (Option V)))
    (count i : ℕ) (bounds : WindowBoundariesState V) : Prop where
  partitionStart : ∀ j ≤ i, SameKeys keys wexpr.partitions.length j i ↔ bounds.partitionStart ≤ j
  partitionEnd : IsGroupEnd keys wexpr.partitions.length count i bounds.partitionEnd
  peerStart : ∀ j ≤ i, SameKeys keys (sortColumns wexpr) j i ↔ bounds.peerStart ≤ j

/-- The result of the binary search for the end of the peers is kept. -/
def FindsPeerEnd (wexpr : BoundWindowExpression R V) : Prop :=
  wexpr.endBoundary = .currentRowRange ∨ wexpr.type = .cumeDist

omit [LinearOrder V] in
variable (wexpr keys) in
theorem sameKeys_sortColumns_iff (i j : ℕ) : SameKeys keys (sortColumns wexpr) i j ↔
    SameKeys keys wexpr.partitions.length i j ∧
      ((keys.getD i []).take (sortColumns wexpr)).drop wexpr.partitions.length =
        ((keys.getD j []).take (sortColumns wexpr)).drop wexpr.partitions.length := by
  have hle : wexpr.partitions.length ≤ sortColumns wexpr := Nat.le_add_right _ _
  constructor
  · intro h
    refine ⟨?_, congrArg _ h⟩
    have htake := congrArg (take wexpr.partitions.length) h
    rwa [take_take, take_take, Nat.min_eq_left hle] at htake
  · rintro ⟨hpartition, hrest⟩
    rw [SameKeys, ← take_append_drop wexpr.partitions.length (take _ (keys.getD i [])), hrest,
      take_take, Nat.min_eq_left hle, show take _ _ = _ from hpartition]
    conv_rhs => rw [← take_append_drop wexpr.partitions.length (take _ (keys.getD j []))]
    rw [take_take, Nat.min_eq_left hle]

variable (keys count i) in
theorem rowPrev_boundsBefore (hsorting : needsSorting wexpr) :
    (boundsBefore wexpr keys count i).rowPrev = keys.getD (i - 1) [] := by
  cases i with
  | zero => rfl
  | succ i =>
    rw [boundsBefore_succ, updatePartition, if_pos hsorting]
    dsimp only
    split_ifs <;> rfl

variable (keys count i) in
/-- **One row of the loop.** -/
theorem boundsBefore_fields (hsorting : needsSorting wexpr) :
    let bounds := boundsBefore wexpr keys count i
    let bounds' := boundsBefore wexpr keys count (i + 1)
    bounds'.isSamePartition = decide (SameKeys keys wexpr.partitions.length (i - 1) i) ∧
      bounds'.isPeer = decide (SameKeys keys (sortColumns wexpr) (i - 1) i) ∧
      bounds'.partitionStart = (if SameKeys keys wexpr.partitions.length (i - 1) i ∧ i ≠ 0 then
        bounds.partitionStart else i) ∧
      bounds'.partitionEnd = (if SameKeys keys wexpr.partitions.length (i - 1) i ∧ i ≠ 0 then
        bounds.partitionEnd
        else binarySearchRightmost keys (keys.getD i []) i count wexpr.partitions.length) ∧
      bounds'.peerStart = (if SameKeys keys (sortColumns wexpr) (i - 1) i ∧ i ≠ 0 then
        bounds.peerStart else i) ∧
      (FindsPeerEnd wexpr → bounds'.peerEnd = binarySearchRightmost keys (keys.getD i []) i
        bounds'.partitionEnd (sortColumns wexpr)) := by
  have hprev := rowPrev_boundsBefore keys count i hsorting
  have hpeer := sameKeys_sortColumns_iff wexpr keys (i - 1) i
  simp only [boundsBefore_succ, updatePartition, hsorting, if_true, hprev, equalsSubset, drop_zero,
    FindsPeerEnd, SameKeys, sortColumns] at hpeer ⊢
  split_ifs <;> simp_all

theorem updatePartition_unsorted (hsorting : ¬needsSorting wexpr)
    (bounds : WindowBoundariesState V) :
    updatePartition wexpr keys count i bounds =
      { bounds with
        isSamePartition := false
        isPeer := true
        partitionEnd := count
        peerEnd := count } :=
  if_neg hsorting

theorem exists_isGroupEnd (keys : List (List (Option V))) (columns : ℕ) (hi : i < count) :
    ∃ e, IsGroupEnd keys columns count i e := by
  have hex : ∃ j, i < j ∧ (j = count ∨ ¬SameKeys keys columns j i) := ⟨count, hi, .inl rfl⟩
  exact ⟨Nat.find hex, Nat.find_spec hex, fun j hj => Nat.find_min' hex hj⟩

omit [LinearOrder V] in
theorem sortColumns_eq_zero (hsorting : ¬needsSorting wexpr) : sortColumns wexpr = 0 := by
  simpa [needsSorting, sortColumns] using hsorting

theorem peerEnd_boundsBefore (hfinds : FindsPeerEnd wexpr) :
    (boundsBefore wexpr keys count (i + 1)).peerEnd = binarySearchRightmost keys (keys.getD i []) i
      (boundsBefore wexpr keys count (i + 1)).partitionEnd (sortColumns wexpr) := by
  by_cases hsorting : needsSorting wexpr
  · exact (boundsBefore_fields keys count i hsorting).2.2.2.2.2 hfinds
  · rw [sortColumns_eq_zero hsorting, binarySearchRightmost, if_pos rfl, boundsBefore_succ,
      updatePartition_unsorted hsorting]

namespace SortedKeys

variable (h : SortedKeys wexpr keys count)

include h

/-- The start of a group is kept, or the next row starts a group. -/
theorem start_succ (hi : i + 1 < count) {start : ℕ}
    (hstart : ∀ j ≤ i, SameKeys keys columns j i ↔ start ≤ j) :
    ∀ j ≤ i + 1, SameKeys keys columns j (i + 1) ↔
      (if SameKeys keys columns i (i + 1) ∧ i + 1 ≠ 0 then start else i + 1) ≤ j := by
  intro j hj
  have hself := (hstart i le_rfl).1 rfl
  split_ifs with hsame
  · rcases hj.eq_or_lt with rfl | hj
    · exact iff_of_true rfl (by omega)
    · rw [← hstart j (Nat.lt_succ_iff.1 hj)]
      exact ⟨fun hj => hj.trans hsame.1.symm, fun hj => hj.trans hsame.1⟩
  · rcases hj.eq_or_lt with rfl | hj
    · exact iff_of_true rfl le_rfl
    · refine iff_of_false (fun hj' => hsame ⟨?_, Nat.succ_ne_zero i⟩) (by omega)
      exact h.sameKeys_of_between (Nat.lt_succ_iff.1 hj) (Nat.le_succ i) hi hj'

/-- The end of a group is the same for all its rows. -/
theorem isGroupEnd_succ (hi : i + 1 < count) (hsame : SameKeys keys columns i (i + 1))
    (he : IsGroupEnd keys columns count i e) : IsGroupEnd keys columns count (i + 1) e := by
  obtain ⟨-, hcount, hiff⟩ := (h.isGroupEnd_iff (by omega)).1 he
  refine (h.isGroupEnd_iff hi).2 ⟨(hiff (i + 1) (by omega) hi).1 hsame.symm, hcount, ?_⟩
  intro j hij hj
  rw [← hiff j (by omega) hj]
  exact ⟨fun hj => hj.trans hsame.symm, fun hj => hj.trans hsame⟩

theorem isGroupEnd_search (hi : i < count) : IsGroupEnd keys wexpr.partitions.length count i
    (binarySearchRightmost keys (keys.getD i []) i count wexpr.partitions.length) := by
  obtain ⟨e, he⟩ := exists_isGroupEnd keys wexpr.partitions.length hi
  rwa [h.partitionEnd_eq hi he]

/-- **The partition** of every row is found, and the first one of its peers. -/
theorem atRow (hi : i < count) :
    AtRow wexpr keys count i (boundsBefore wexpr keys count (i + 1)) := by
  by_cases hsorting : needsSorting wexpr
  · induction i with
    | zero =>
      obtain ⟨-, -, hstart, hend, hpeer, -⟩ := boundsBefore_fields keys count 0 hsorting
      rw [if_neg (by simp)] at hstart hend hpeer
      refine ⟨fun j hj => ?_, hend ▸ h.isGroupEnd_search hi, fun j hj => ?_⟩
      · rw [hstart, Nat.le_zero.1 hj]
        exact iff_of_true rfl le_rfl
      · rw [hpeer, Nat.le_zero.1 hj]
        exact iff_of_true rfl le_rfl
    | succ i ih =>
      have hrow := ih (by omega)
      obtain ⟨-, -, hstart, hend, hpeer, -⟩ := boundsBefore_fields keys count (i + 1) hsorting
      rw [Nat.add_sub_cancel] at hstart hend hpeer
      refine ⟨?_, ?_, ?_⟩
      · rw [hstart]
        exact h.start_succ hi hrow.partitionStart
      · rw [hend]
        split_ifs with hsame
        · exact h.isGroupEnd_succ hi hsame.1 hrow.partitionEnd
        · exact h.isGroupEnd_search hi
      · rw [hpeer]
        exact h.start_succ hi hrow.peerStart
  · have hzero := sortColumns_eq_zero hsorting
    have hpartitions : wexpr.partitions.length = 0 := by
      rw [sortColumns] at hzero
      omega
    have hfields : ∀ n, (boundsBefore wexpr keys count n).partitionStart = 0 ∧
        (boundsBefore wexpr keys count n).peerStart = 0 := by
      intro n
      induction n with
      | zero => exact ⟨rfl, rfl⟩
      | succ n ih =>
        rw [boundsBefore_succ, updatePartition_unsorted hsorting]
        exact ih
    obtain ⟨hstart, hpeer⟩ := hfields (i + 1)
    refine ⟨fun j _ => ?_, ?_, fun j _ => ?_⟩
    · rw [hstart, hpartitions]
      exact iff_of_true rfl (Nat.zero_le j)
    · rw [boundsBefore_succ, updatePartition_unsorted hsorting, hpartitions, h.isGroupEnd_iff hi]
      exact ⟨hi, le_rfl, fun j _ hj => iff_of_true rfl hj⟩
    · rw [hpeer, hzero]
      exact iff_of_true rfl (Nat.zero_le j)

/-- The peers of a row are in its partition. -/
theorem peerEnd_le {partitionEnd : ℕ} (hi : i < count)
    (hp : IsGroupEnd keys wexpr.partitions.length count i partitionEnd)
    (hq : IsGroupEnd keys (sortColumns wexpr) count i e) : e ≤ partitionEnd := by
  obtain ⟨-, hcount, hpartition⟩ := (h.isGroupEnd_iff hi).1 hp
  obtain ⟨hie, he, hpeers⟩ := (h.isGroupEnd_iff hi).1 hq
  have hlast : SameKeys keys (sortColumns wexpr) (e - 1) i :=
    (hpeers (e - 1) (by omega) (by omega)).2 (by omega)
  have := (hpartition (e - 1) (by omega) (by omega)).1 ((sameKeys_sortColumns_iff _ _ _ _).1 hlast).1
  omega

/-- When the search for the end of the peers finds one of them, or the row behind them. -/
theorem peerEnd_eq_iff (hi : i < count) (hfinds : FindsPeerEnd wexpr) {peerEnd : ℕ}
    (hq : IsGroupEnd keys (sortColumns wexpr) count i peerEnd) (hie : i < e) (he : e ≤ peerEnd) :
    (boundsBefore wexpr keys count (i + 1)).peerEnd = e ↔
      ∀ m ∈ bisected e ((boundsBefore wexpr keys count (i + 1)).partitionEnd - i) i
        (boundsBefore wexpr keys count (i + 1)).partitionEnd,
        notGreater keys (sortColumns wexpr) m i = false := by
  have hle := he.trans (h.peerEnd_le hi (h.atRow hi).partitionEnd hq)
  obtain ⟨-, hcount, hpeers⟩ := (h.isGroupEnd_iff hi).1 hq
  rw [peerEnd_boundsBefore hfinds, binarySearchRightmost_eq (hie.le.trans hle),
    binarySearchLoop_eq_iff le_rfl hie.le hle]
  intro m him hm
  exact all_of_take_eq ((hpeers m him (by omega)).2 (by omega))

/-- **Partition and peer ends**: the end of the partition is found, and the end of the peers exactly
if, of the rows of the partition behind it that a binary search for it looks at, each one is greater
than the current row in some column. With descending columns a later row can be smaller in all of
them. -/
theorem ends_iff (hi : i < count) :
    (IsGroupEnd keys wexpr.partitions.length count i
        (boundsBefore wexpr keys count (i + 1)).partitionEnd ∧
      (FindsPeerEnd wexpr → IsGroupEnd keys (sortColumns wexpr) count i
        (boundsBefore wexpr keys count (i + 1)).peerEnd)) ↔
    (FindsPeerEnd wexpr → ∀ partitionEnd peerEnd,
      IsGroupEnd keys wexpr.partitions.length count i partitionEnd →
      IsGroupEnd keys (sortColumns wexpr) count i peerEnd →
      ∀ m ∈ bisected peerEnd (partitionEnd - i) i partitionEnd,
        notGreater keys (sortColumns wexpr) m i = false) := by
  have hrow := h.atRow hi
  rw [and_iff_right hrow.partitionEnd]
  refine forall_congr' fun hfinds => ?_
  obtain ⟨peerEnd, hq⟩ := exists_isGroupEnd keys (sortColumns wexpr) hi
  have hiff := h.peerEnd_eq_iff hi hfinds hq hq.1.1 le_rfl
  constructor
  · intro hfound p q hp hq'
    rw [hp.unique hrow.partitionEnd, hq'.unique hq]
    exact hiff.1 (hfound.unique hq)
  · intro hall
    rw [hiff.2 (hall _ _ hrow.partitionEnd hq)]
    exact hq

end SortedKeys

/-- ORDER BY a column in descending order. -/
def descending : BoundWindowExpression ℤ ℤ where
  type := .rank
  orders := [(some, .descending)]

/-- The values of two rows in that order. -/
def descendingKeys : List (List (Option ℤ)) := [[some 1], [some 0]]

theorem sortedKeys_descending : SortedKeys descending descendingKeys 2 where
  length_eq _ := rfl
  width := by decide
  sorted := by decide

theorem ends_iff_descending :
    (IsGroupEnd descendingKeys 0 2 1 (boundsBefore descending descendingKeys 2 2).partitionEnd ∧
      (FindsPeerEnd descending → IsGroupEnd descendingKeys 1 2 1
        (boundsBefore descending descendingKeys 2 2).peerEnd)) ↔
    (FindsPeerEnd descending → ∀ partitionEnd peerEnd,
      IsGroupEnd descendingKeys 0 2 1 partitionEnd →
      IsGroupEnd descendingKeys 1 2 1 peerEnd →
      ∀ m ∈ bisected peerEnd (partitionEnd - 1) 1 partitionEnd,
        notGreater descendingKeys 1 m 1 = false) :=
  sortedKeys_descending.ends_iff (by decide)

/-- The first row has no other peers, but the search returns the end of the partition. -/
theorem not_isGroupEnd_descending : SortedKeys descending descendingKeys 2 ∧
    FindsPeerEnd descending ∧ ¬IsGroupEnd descendingKeys 1 2 0
      (boundsBefore descending descendingKeys 2 1).peerEnd := by
  refine ⟨sortedKeys_descending, .inl rfl, fun hend => ?_⟩
  have hle : (boundsBefore descending descendingKeys 2 1).peerEnd ≤ 1 :=
    hend.2 ⟨by decide, .inr (by decide)⟩
  exact absurd hle (by decide)

end DuckDB.PhysicalWindow
