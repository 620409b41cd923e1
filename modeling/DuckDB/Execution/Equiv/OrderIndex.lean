import DuckDB.Execution.OrderIndex
import Mathlib.Algebra.GroupWithZero.Nat
import Mathlib.Data.List.Count
import Mathlib.Order.Lattice

/-!
# The searches of an order index

The four searches share a binary search that looks at one position behind the entries and lets its
upper bound go below zero; each of them then corrects the position in its own way. All four are
right for a key exactly if the key occurs, is not the largest one, does not have exactly one smaller
entry, and, if it is the smallest one, occurs at a positive position that the search looks at.

## Main results

- `binarySearch_found`, `binarySearch_notFound`, `exists_binarySearch_found` — the binary search
- `OrderIndex.searchCorrect_iff` — when the searches are right
-/

namespace DuckDB

open List

variable {W : Type*} [LinearOrder W] {array : List W} {key : W} {upper lower : ℕ} {p : W → Prop}

/-! ### Positions between entries -/

omit [LinearOrder W] in
/-- The entries before the position are those that satisfy the predicate. -/
def Delimits (array : List W) (p : W → Prop) (pos : ℕ) : Prop :=
  pos ≤ array.length ∧ ∀ i e, array[i]? = some e → (i < pos ↔ p e)

variable {a b pos : ℕ}

omit [LinearOrder W] in
theorem Delimits.le (ha : Delimits array p a) (hb : Delimits array p b) : a ≤ b := by
  by_contra hlt
  obtain ⟨e, he⟩ : ∃ e, array[b]? = some e :=
    ⟨_, getElem?_eq_getElem (by have := ha.1; omega)⟩
  have hp := (ha.2 b e he).mp (by omega)
  exact absurd ((hb.2 b e he).mpr hp) (lt_irrefl b)

omit [LinearOrder W] in
theorem Delimits.eq (ha : Delimits array p a) (hb : Delimits array p b) : a = b :=
  le_antisymm (ha.le hb) (hb.le ha)

/-- In a sorted array the entries that satisfy a downward closed predicate come first. -/
theorem delimits_countP (hs : array.Pairwise (· ≤ ·)) [DecidablePred p]
    (hp : ∀ a b, a ≤ b → p b → p a) : Delimits array p (array.countP fun e => p e) := by
  refine ⟨countP_le_length, ?_⟩
  induction array with
  | nil => simp
  | cons head tail ih =>
    intro i e he
    have htail := ih hs.of_cons
    by_cases hhead : p head
    · rw [countP_cons_of_pos (by simpa using hhead)]
      cases i with
      | zero =>
        obtain rfl := Option.some.inj he
        simp [hhead]
      | succ i =>
        rw [← htail i e he]
        omega
    · -- nothing behind `head` satisfies the predicate
      have hnone : ∀ e ∈ tail, ¬p e := fun e he h =>
        hhead (hp head e (rel_of_pairwise_cons hs he) h)
      have hcount : (head :: tail).countP (fun e => p e) = 0 := by
        rw [countP_eq_zero]
        intro e he
        obtain rfl | he := mem_cons.mp he
        · simpa using hhead
        · simpa using hnone e he
      have hmem : e ∈ head :: tail := mem_of_getElem? he
      rw [countP_eq_zero] at hcount
      have := hcount e hmem
      simp only [decide_eq_true_eq] at this
      rw [countP_eq_zero.mpr hcount]
      simp [this]

variable (array key) in
/-- The number of entries below the key. -/
def smaller : ℕ := array.countP fun e => e < key

variable (array key) in
/-- The number of entries that are not above the key. -/
def notLarger : ℕ := array.countP fun e => e ≤ key

section

variable (hs : array.Pairwise (· ≤ ·))

include hs

theorem delimits_smaller : Delimits array (· < key) (smaller array key) :=
  delimits_countP hs fun _ _ h h' => h.trans_lt h'

theorem delimits_notLarger : Delimits array (· ≤ key) (notLarger array key) :=
  delimits_countP hs fun _ _ h h' => h.trans h'

/-- The positions of the key are those from `smaller` to `notLarger`. -/
theorem eq_key_iff {i : ℕ} {e : W} (he : array[i]? = some e) :
    e = key ↔ smaller array key ≤ i ∧ i < notLarger array key := by
  rw [(delimits_notLarger hs).2 i e he, ← not_lt, (delimits_smaller hs).2 i e he, not_lt]
  exact ⟨fun h => ⟨h.ge, h.le⟩, fun h => le_antisymm h.2 h.1⟩

theorem smaller_lt_notLarger (hkey : key ∈ array) : smaller array key < notLarger array key := by
  obtain ⟨i, hi⟩ := mem_iff_getElem?.mp hkey
  have := (eq_key_iff hs hi).mp rfl
  omega

end

/-! ### The binary search -/

theorem binarySearch_found (h : binarySearch array key lower upper = .ok (pos, true)) :
    array[pos]? = some key := by
  fun_induction binarySearch array key lower upper with
  | case1 lower upper hle middle hread => cases h
  | case2 lower upper hle middle element hread hlt ih => exact ih h
  | case3 lower upper hle middle element hread hlt hgt hzero => cases h
  | case4 lower upper hle middle element hread hlt hgt hzero ih => exact ih h
  | case5 lower upper hle middle element hread hlt hgt =>
    obtain ⟨rfl, -⟩ := Prod.mk.inj (Except.ok.inj h)
    have helement : element = key := le_antisymm (not_lt.mp hgt) (not_lt.mp hlt)
    rw [hread, helement]
  | case6 lower upper hle => cases h

/-- When the key is not found, the entry at the position is below it. The invariant is that the
entry in front of `lower` is below the key. -/
theorem binarySearch_notFound (hbelow : ∀ i, i + 1 = lower → ∃ e, array[i]? = some e ∧ e < key)
    (hbounds : lower ≤ upper + 1) (h : binarySearch array key lower upper = .ok (pos, false)) :
    ∃ e, array[pos]? = some e ∧ e < key := by
  fun_induction binarySearch array key lower upper with
  | case1 lower upper hle middle hread => cases h
  | case2 lower upper hle middle element hread hlt ih =>
    refine ih (fun i hi => ?_) (by omega) h
    obtain rfl : i = middle := Nat.succ.inj hi
    exact ⟨element, hread, hlt⟩
  | case3 lower upper hle middle element hread hlt hgt hzero => cases h
  | case4 lower upper hle middle element hread hlt hgt hzero ih => exact ih hbelow (by omega) h
  | case5 lower upper hle middle element hread hlt hgt =>
    exact absurd (Prod.mk.inj (Except.ok.inj h)).2 (by decide)
  | case6 lower upper hle =>
    obtain ⟨rfl, -⟩ := Prod.mk.inj (Except.ok.inj h)
    exact hbelow _ (by omega)

section

variable (hs : array.Pairwise (· ≤ ·))

include hs

variable {pos : ℕ}

/-- A key between the bounds is found; then the search neither leaves the array nor goes below
zero. -/
theorem exists_binarySearch_found {k : ℕ} (hk : array[k]? = some key) (hlower : lower ≤ k)
    (hupper : k ≤ upper) (hlength : upper ≤ array.length) :
    ∃ pos, binarySearch array key lower upper = .ok (pos, true) := by
  have hklt : k < array.length := (List.getElem?_eq_some_iff.mp hk).1
  have hcount := (eq_key_iff hs hk).mp rfl
  fun_induction binarySearch array key lower upper with
  | case1 lower upper hle middle hread =>
    have := List.getElem?_eq_none_iff.mp hread
    omega
  | case2 lower upper hle middle element hread hlt ih =>
    refine ih ?_ hupper hlength
    have := ((delimits_smaller hs).2 _ _ hread).mpr hlt
    omega
  | case3 lower upper hle middle element hread hlt hgt hzero =>
    have hnot : ¬middle < notLarger array key := fun h =>
      hgt.not_ge (((delimits_notLarger hs).2 _ _ hread).mp h)
    omega
  | case4 lower upper hle middle element hread hlt hgt hzero ih =>
    have hnot : ¬middle < notLarger array key := fun h =>
      hgt.not_ge (((delimits_notLarger hs).2 _ _ hread).mp h)
    exact ih hlower (by omega) (by omega)
  | case5 lower upper hle middle element hread hlt hgt => exact ⟨_, rfl⟩
  | case6 lower upper hle => omega

/-- The positions that the search looks at on the way to the front: from `upper` it looks at `upper
/ 2` and goes on with `upper / 2 - 1`. When the key is the smallest entry, it is found at the first
of them at which it occurs. -/
theorem binarySearch_front (hkey : key ∈ array) (hsmaller : smaller array key = 0)
    (hlength : upper ≤ array.length) (h : binarySearch array key 0 upper = .ok (pos, true)) :
    0 < pos ↔ ∃ i, 2 ≤ (upper / 2 + 1) / 2 ^ i ∧ (upper / 2 + 1) / 2 ^ i ≤ notLarger array key := by
  have hpos := smaller_lt_notLarger hs hkey
  have hle : notLarger array key ≤ array.length := (delimits_notLarger hs).1
  induction upper using Nat.strong_induction_on generalizing pos with
  | h upper ih =>
    rw [binarySearch, if_pos (Nat.zero_le _), Nat.zero_add] at h
    obtain ⟨element, hread⟩ : ∃ e, array[upper / 2]? = some e :=
      ⟨_, getElem?_eq_getElem (by omega)⟩
    simp only [hread] at h
    have hnotLt : ¬element < key := fun h => by
      have := ((delimits_smaller hs).2 _ _ hread).mpr h
      omega
    rw [if_neg hnotLt] at h
    by_cases hmiddle : upper / 2 < notLarger array key
    · -- found here
      have hnotGt : ¬key < element :=
        not_lt.mpr (((delimits_notLarger hs).2 _ _ hread).mp hmiddle)
      rw [if_neg hnotGt] at h
      obtain ⟨rfl, -⟩ := Prod.mk.inj (Except.ok.inj h)
      constructor
      · intro hlt
        refine ⟨0, ?_⟩
        rw [pow_zero, Nat.div_one]
        omega
      · rintro ⟨i, htwo, -⟩
        have := Nat.div_le_self (upper / 2 + 1) (2 ^ i)
        omega
    · have hgt : key < element :=
        not_le.mp fun h => hmiddle (((delimits_notLarger hs).2 _ _ hread).mpr h)
      rw [if_pos hgt, if_neg (by omega)] at h
      refine (ih (upper / 2 - 1) (by omega) (by omega) h).trans ?_
      have hhalf : (upper / 2 - 1) / 2 + 1 = (upper / 2 + 1) / 2 := by omega
      rw [hhalf]
      constructor
      · rintro ⟨i, hi⟩
        refine ⟨i + 1, ?_⟩
        rwa [pow_succ', ← Nat.div_div_eq_div_mul]
      · rintro ⟨i, htwo, hcount⟩
        cases i with
        | zero =>
          rw [pow_zero, Nat.div_one] at hcount
          omega
        | succ i =>
          refine ⟨i, ?_⟩
          rw [pow_succ', ← Nat.div_div_eq_div_mul] at htwo hcount
          exact ⟨htwo, hcount⟩

/-! ### The scans over equal entries -/

/-- The scan stops in front of the equal entries, or at zero. -/
theorem skipDown_eq (hlower : smaller array key ≤ pos + 1) (hupper : pos < notLarger array key) :
    skipDown array key pos = .ok (smaller array key - 1) := by
  have hle : notLarger array key ≤ array.length := (delimits_notLarger hs).1
  induction pos with
  | zero =>
    have hzero : smaller array key - 1 = 0 := by omega
    rw [skipDown, hzero]
  | succ pos ih =>
    have hlt : pos + 1 < array.length := by omega
    obtain ⟨e, he⟩ : ∃ e, array[pos + 1]? = some e := ⟨_, getElem?_eq_getElem hlt⟩
    rw [skipDown, he]
    dsimp only
    by_cases hkey : smaller array key ≤ pos + 1
    · rw [if_pos ((eq_key_iff hs he).mpr ⟨hkey, hupper⟩)]
      exact ih hkey (by omega)
    · have hpos : smaller array key - 1 = pos + 1 := by omega
      rw [if_neg fun h => hkey ((eq_key_iff hs he).mp h).1, hpos]

/-- The scan stops behind the equal entries, if there is an entry there. -/
theorem skipUp_drop (hlower : smaller array key ≤ pos) (hupper : pos ≤ notLarger array key)
    (hlength : notLarger array key < array.length) :
    skipUp key (array.drop pos) pos = .ok (notLarger array key) := by
  generalize hrest : array.drop pos = rest
  induction rest generalizing pos with
  | nil =>
    have := drop_eq_nil_iff.mp hrest
    omega
  | cons e rest ih =>
    have he : array[pos]? = some e := by rw [← head?_drop, hrest, head?_cons]
    have hrest' : array.drop (pos + 1) = rest := by
      rw [← tail_drop, hrest, tail_cons]
    rw [skipUp]
    by_cases hpos : pos < notLarger array key
    · rw [if_pos ((eq_key_iff hs he).mpr ⟨hlower, hpos⟩)]
      exact ih (by omega) (by omega) hrest'
    · rw [if_neg fun h => hpos ((eq_key_iff hs he).mp h).2, hupper.antisymm (not_lt.mp hpos)]

/-- The scan of `binary_search_lte` ends behind the entries that are not above the key, if there is
an entry there and the position is an `int`. -/
theorem skipLTE_drop_eq_ok {result : ℕ} (hupper : pos ≤ notLarger array key) (hint : pos < intLimit)
    : skipLTE key (array.drop pos) pos = .ok result ↔
      result = notLarger array key ∧ notLarger array key < array.length ∧
        notLarger array key < intLimit := by
  have hle : notLarger array key ≤ array.length := (delimits_notLarger hs).1
  generalize hrest : array.drop pos = rest
  induction rest generalizing pos with
  | nil =>
    have := drop_eq_nil_iff.mp hrest
    rw [skipLTE]
    constructor
    · intro h
      cases h
    · rintro ⟨-, hlt, -⟩
      omega
  | cons e rest ih =>
    have he : array[pos]? = some e := by rw [← head?_drop, hrest, head?_cons]
    have hrest' : array.drop (pos + 1) = rest := by
      rw [← tail_drop, hrest, tail_cons]
    have hlt : pos < array.length := (List.getElem?_eq_some_iff.mp he).1
    rw [skipLTE]
    by_cases hpos : pos < notLarger array key
    · rw [if_pos (((delimits_notLarger hs).2 _ _ he).mp hpos), toInt]
      by_cases hnext : pos + 1 < intLimit
      · rw [if_pos hnext]
        exact ih (by omega) hnext hrest'
      · rw [if_neg hnext]
        constructor
        · intro h
          cases h
        · rintro ⟨-, -, hlimit⟩
          omega
    · rw [if_neg fun h => hpos (((delimits_notLarger hs).2 _ _ he).mpr h)]
      obtain rfl : pos = notLarger array key := by omega
      rw [Except.ok.injEq]
      exact ⟨fun h => ⟨h.symm, hlt, hint⟩, fun h => h.1.symm⟩

/-- The scan of `binary_search_gte` ends at the first of the equal entries. -/
theorem skipGTE_eq (hlower : smaller array key ≤ pos + 1) (hupper : pos < notLarger array key)
    (hint : pos + 1 < intLimit) : skipGTE array key pos = .ok (smaller array key) := by
  have hle : notLarger array key ≤ array.length := (delimits_notLarger hs).1
  induction pos with
  | zero =>
    have hlt : 0 < array.length := by omega
    obtain ⟨e, he⟩ : ∃ e, array[0]? = some e := ⟨_, getElem?_eq_getElem hlt⟩
    rw [skipGTE, he]
    dsimp only
    congr
    split
    case isTrue h =>
      have := ((eq_key_iff hs he).mp h).1
      omega
    case isFalse h =>
      have hnot : ¬smaller array key ≤ 0 := fun hzero => h ((eq_key_iff hs he).mpr ⟨hzero, hupper⟩)
      omega
  | succ pos ih =>
    have hlt : pos + 1 < array.length := by omega
    obtain ⟨e, he⟩ : ∃ e, array[pos + 1]? = some e := ⟨_, getElem?_eq_getElem hlt⟩
    rw [skipGTE, he]
    dsimp only
    by_cases hkey : smaller array key ≤ pos + 1
    · rw [if_pos ((eq_key_iff hs he).mpr ⟨hkey, hupper⟩)]
      exact ih hkey (by omega) (by omega)
    · rw [if_neg fun h => hkey ((eq_key_iff hs he).mp h).1, toInt, if_pos (by omega)]
      congr
      omega

end

/-! ### The four searches -/

section Found

variable (hs : array.Pairwise (· ≤ ·)) {pos : ℕ}
  (hsearch : binarySearch array key 0 array.length = .ok (pos, true))

include hs hsearch

theorem found_bounds : smaller array key ≤ pos ∧ pos < notLarger array key :=
  (eq_key_iff hs (binarySearch_found hsearch)).mp rfl

/-- `SearchLT` misses a single smaller entry. -/
theorem binarySearchLT_of_found :
    binarySearchLT array key = .ok (if smaller array key = 1 then 0 else smaller array key) := by
  obtain ⟨hlower, hupper⟩ := found_bounds hs hsearch
  rw [binarySearchLT, hsearch]
  dsimp only
  rw [skipDown_eq hs (by omega) hupper]
  dsimp only
  congr 1
  split_ifs <;> omega

theorem binarySearchGT_of_found (hlength : notLarger array key < array.length) :
    binarySearchGT array key = .ok (if pos = 0 then 0 else notLarger array key) := by
  obtain ⟨hlower, hupper⟩ := found_bounds hs hsearch
  rw [binarySearchGT, hsearch]
  dsimp only
  by_cases hpos : pos = 0
  · rw [if_neg (by omega), if_pos hpos, hpos]
    rfl
  · rw [if_pos (by omega), if_neg hpos, skipUp_drop hs hlower hupper.le hlength]
    rfl

theorem binarySearchLTE_of_found {result : ℕ} : binarySearchLTE array key = .ok result ↔
      result = notLarger array key ∧ notLarger array key < array.length ∧
        notLarger array key < intLimit := by
  obtain ⟨hlower, hupper⟩ := found_bounds hs hsearch
  rw [binarySearchLTE, hsearch]
  dsimp only
  rw [toInt]
  by_cases hint : pos < intLimit
  · rw [if_pos hint]
    exact skipLTE_drop_eq_ok hs hupper.le hint
  · rw [if_neg hint]
    constructor
    · intro h
      cases h
    · rintro ⟨-, -, hlimit⟩
      omega

theorem binarySearchGTE_of_found (hint : notLarger array key < intLimit) :
    binarySearchGTE array key = .ok (smaller array key) := by
  obtain ⟨hlower, hupper⟩ := found_bounds hs hsearch
  rw [binarySearchGTE, hsearch]
  dsimp only
  rw [toInt, if_pos (by omega)]
  dsimp only
  rw [if_pos rfl]
  exact skipGTE_eq hs (by omega) hupper (by omega)

end Found

/-- When the key does not occur, `SearchLT` fails or is too small by one. -/
theorem not_delimits_binarySearchLT (hkey : key ∉ array) (h : binarySearchLT array key = .ok pos) :
    ¬Delimits array (· < key) pos := by
  rw [binarySearchLT] at h
  rcases hsearch : binarySearch array key 0 array.length with fault | ⟨pos', found⟩
  · rw [hsearch] at h
    cases h
  · cases found with
    | true => exact absurd (mem_of_getElem? (binarySearch_found hsearch)) hkey
    | false =>
      rw [hsearch] at h
      obtain rfl := Except.ok.inj h
      intro hdelimits
      -- the entry at the position is below the key and is left out
      obtain ⟨e, he, hlt⟩ := binarySearch_notFound (fun i hi => absurd hi (by omega)) (by omega)
        hsearch
      exact absurd ((hdelimits.2 pos' e he).mpr hlt) (lt_irrefl pos')

/-! ### When the searches are right -/

namespace OrderIndex

variable {R : Type*}

/-- The values of the entries. -/
def values (index : OrderIndex R W) : List W :=
  index.data.map (·.value)

/-- The four searches return the positions between which the entries of their comparison lie: those
below or not above the key come before the position, and those above or not below it come after. -/
structure SearchCorrect (index : OrderIndex R W) (key : W) : Prop where
  lt : ∃ pos, index.searchLT key = .ok pos ∧ Delimits index.values (· < key) pos
  lte : ∃ pos, index.searchLTE key = .ok pos ∧ Delimits index.values (· ≤ key) pos
  gt : ∃ pos, index.searchGT key = .ok pos ∧ Delimits index.values (fun e => ¬key < e) pos
  gte : ∃ pos, index.searchGTE key = .ok pos ∧ Delimits index.values (fun e => ¬key ≤ e) pos

/-- What the entries of an index must be like for the searches for a key to be right: the key
occurs, it is not the largest one and less than `2 ^ 31` entries are not above it, it has no or at
least two smaller entries, and if it has none then it occurs at one of the positive positions `n /
2`, `(n / 2 - 1) / 2` and so on. -/
structure Searchable (index : OrderIndex R W) (key : W) : Prop where
  mem : key ∈ index.values
  notLarger_lt : notLarger index.values key < index.values.length
  notLarger_int : notLarger index.values key < intLimit
  smaller_ne : smaller index.values key ≠ 1
  front : smaller index.values key = 0 →
    ∃ i, 2 ≤ (index.values.length / 2 + 1) / 2 ^ i ∧
      (index.values.length / 2 + 1) / 2 ^ i ≤ notLarger index.values key

variable {index : OrderIndex R W}

theorem searchCorrect_of_searchable (hs : index.values.Pairwise (· ≤ ·)) (h : index.Searchable key)
    : index.SearchCorrect key := by
  obtain ⟨k, hk⟩ := mem_iff_getElem?.mp h.mem
  have hklt := (List.getElem?_eq_some_iff.mp hk).1
  obtain ⟨pos, hsearch⟩ := exists_binarySearch_found hs hk (Nat.zero_le _) hklt.le le_rfl
  obtain ⟨hlower, hupper⟩ := found_bounds hs hsearch
  have hpos : pos ≠ 0 := by
    rintro rfl
    have hzero : smaller index.values key = 0 := by omega
    have := (binarySearch_front hs h.mem hzero le_rfl hsearch).mpr (h.front hzero)
    omega
  constructor
  · refine ⟨smaller index.values key, ?_, delimits_smaller hs⟩
    rw [searchLT]
    exact (binarySearchLT_of_found hs hsearch).trans (by rw [if_neg h.smaller_ne])
  · exact ⟨notLarger index.values key,
      (binarySearchLTE_of_found hs hsearch).mpr ⟨rfl, h.notLarger_lt, h.notLarger_int⟩,
      delimits_notLarger hs⟩
  · refine ⟨notLarger index.values key, ?_, ?_⟩
    · exact (binarySearchGT_of_found hs hsearch h.notLarger_lt).trans (by rw [if_neg hpos])
    · simpa only [not_lt] using delimits_notLarger hs
  · refine ⟨smaller index.values key, binarySearchGTE_of_found hs hsearch h.notLarger_int, ?_⟩
    simpa only [not_le] using delimits_smaller hs

theorem searchable_of_searchCorrect (hs : index.values.Pairwise (· ≤ ·))
    (h : index.SearchCorrect key) : index.Searchable key := by
  obtain ⟨lt, hlt, hltDelimits⟩ := h.lt
  obtain ⟨lte, hlte, -⟩ := h.lte
  obtain ⟨gt, hgt, hgtDelimits⟩ := h.gt
  have hmem : key ∈ index.values := by
    by_contra hmem
    exact not_delimits_binarySearchLT hmem hlt hltDelimits
  obtain ⟨k, hk⟩ := mem_iff_getElem?.mp hmem
  have hklt := (List.getElem?_eq_some_iff.mp hk).1
  obtain ⟨pos, hsearch⟩ := exists_binarySearch_found hs hk (Nat.zero_le _) hklt.le le_rfl
  obtain ⟨-, hlength, hint⟩ := (binarySearchLTE_of_found hs hsearch).mp hlte
  have hcount := smaller_lt_notLarger hs hmem
  refine ⟨hmem, hlength, hint, fun hone => ?_, fun hzero => ?_⟩
  · -- `SearchLT` returns zero
    have heq := (binarySearchLT_of_found hs hsearch).symm.trans hlt
    rw [if_pos hone, Except.ok.injEq] at heq
    have := hltDelimits.eq (delimits_smaller hs)
    omega
  · refine (binarySearch_front hs hmem hzero le_rfl hsearch).mp (Nat.pos_of_ne_zero ?_)
    rintro rfl
    -- `SearchGT` returns zero
    have heq := (binarySearchGT_of_found hs hsearch hlength).symm.trans hgt
    rw [if_pos rfl, Except.ok.injEq] at heq
    have hnotLarger : Delimits index.values (fun e => ¬key < e) (notLarger index.values key) := by
      simpa only [not_lt] using delimits_notLarger hs
    have := hgtDelimits.eq hnotLarger
    omega

/-- **The searches of an order index**: all four of them are right for a key exactly if the entries
are as `Searchable` says. -/
theorem searchCorrect_iff (index : OrderIndex R W) (hs : index.values.Pairwise (· ≤ ·)) (key : W) :
    index.SearchCorrect key ↔ index.Searchable key :=
  ⟨searchable_of_searchCorrect hs, searchCorrect_of_searchable hs⟩

/-- The entries 1 to 4, on a column of integers. -/
def upToFour : OrderIndex ℤ ℤ where
  expression := id
  data := [⟨1, 0⟩, ⟨2, 1⟩, ⟨3, 2⟩, ⟨4, 3⟩]

/-- The searches for the entry 3, which has two smaller ones and one larger one. -/
theorem searchCorrect_upToFour : upToFour.SearchCorrect 3 :=
  (searchCorrect_iff upToFour (by decide) 3).mpr
    ⟨by decide, by decide, by decide, by decide, fun h => absurd h (by decide)⟩

/-- `SearchLT` loses the entry 1 when it looks for those below 2: the position of the 2 is 1, the
loop over equal entries takes it to 0, and it stays there. -/
theorem not_searchCorrect_upToFour : upToFour.searchLT 2 = .ok 0 ∧ ¬upToFour.SearchCorrect 2 := by
  refine ⟨?_, fun h => (searchable_of_searchCorrect (by decide) h).smaller_ne (by decide)⟩
  simp [searchLT, binarySearchLT, binarySearch, skipDown, upToFour]

end OrderIndex

end DuckDB
