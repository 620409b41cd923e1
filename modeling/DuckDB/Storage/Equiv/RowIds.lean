import DuckDB.Storage.Equiv.Scan
import Mathlib.Algebra.Order.BigOperators.Group.List
import Mathlib.Algebra.Order.Ring.Nat

/-!
# The row ids of a scan

`Scan` builds row ids in two places. For base rows the id is the row number; for old versions it is
the index in the storage chunk, which is the row number in the first chunk only.

* `scanAll_perm`: the rows that a complete scan returns, with the ids that it gives them.
* `faithfulRowIds_iff`: the ids are row numbers exactly if no row of a later chunk is read from an
  old version.
-/

namespace DuckDB

open List

open List (Perm)

variable {V C : Type*}

/-- The tuple of the version that a transaction reads instead of the base row: the oldest one of the
versions before the first one it sees. -/
def RowSlot.oldVersion? (transaction : Transaction C) (slot : RowSlot V) : Option (List V) :=
  (slot.versionPointers.takeWhile fun v => !transaction.sees v.versionNumber).getLast?.bind
    (·.tupleData)

namespace DataTable

variable {chunk : StorageChunk V} {slot : RowSlot V} {row : ℕ}

/-! ### Positions -/

/-- The result row of `Scan` for the row with a given number. -/
def scannedRow (transaction : Transaction C) (columnIds : List ColumnId) (t : DataTable V)
    (row : ℕ) : Option (List (Cell V)) :=
  (t.getChunk row).bind fun chunk => chunk.rows[row - chunk.start]?.bind
    (resultRow transaction columnIds chunk.start (row - chunk.start))

/-- The result row for the row with a given number, with this number as its id. -/
def numberedRow (transaction : Transaction C) (columnIds : List ColumnId) (t : DataTable V)
    (row : ℕ) : Option (List (Cell V)) :=
  ((t.row? row).bind (readRow transaction)).map (resultCells columnIds row)

/-- **Faithful row ids**: a complete scan returns every row that the transaction sees, with the
number under which `Delete`, `Update` and `Fetch` find it. -/
def FaithfulRowIds (transaction : Transaction C) (t : DataTable V) : Prop :=
  ∀ columnIds, (scanAll transaction columnIds t).Perm
    ((List.range t.rows.length).filterMap (numberedRow transaction columnIds t))

variable (transaction : Transaction C) (columnIds : List ColumnId) {t : DataTable V}
  {tuple : List V} {n offset : ℕ}

/-- A vector consists of the rows from its first row number on. -/
theorem vectorRows_eq_range (hchunk : t.chunks[n]? = some chunk) :
    ((vectorRows chunk offset).filterMap fun e =>
        resultRow transaction columnIds chunk.start (offset + e.2) e.1) =
      (range' (chunk.start + offset) (vectorSlots chunk offset).length).filterMap
        (scannedRow transaction columnIds t) := by
  have hzip : vectorRows chunk offset = (vectorSlots chunk offset).zipIdx := rfl
  have hslots : ∀ i slot, (vectorSlots chunk offset)[i]? = some slot →
      chunk.rows[offset + i]? = some slot := fun i slot hslot =>
    getElem?_of_mem_vectorRows (e := (slot, i)) (mem_zipIdx_iff_getElem?.2 hslot)
  have hrow : ∀ i slot, (vectorSlots chunk offset)[i]? = some slot →
      scannedRow transaction columnIds t (chunk.start + offset + i) =
        resultRow transaction columnIds chunk.start (offset + i) slot := by
    intro i slot hslot
    have hget := hslots i slot hslot
    have hlt : offset + i < chunk.rows.length := (List.getElem?_eq_some_iff.1 hget).1
    have hholds : chunk.holds (chunk.start + offset + i) := by
      rw [StorageChunk.holds_iff, StorageChunk.count]
      omega
    have hfind : t.getChunk (chunk.start + offset + i) = some chunk :=
      t.contiguous.find?_eq_some hchunk hholds
    rw [scannedRow, hfind, Option.bind_some, Nat.add_assoc, Nat.add_sub_cancel_left, hget,
      Option.bind_some]
  have hindices : ((vectorRows chunk offset).filterMap fun e =>
        resultRow transaction columnIds chunk.start (offset + e.2) e.1) =
      (vectorRows chunk offset).filterMap fun e =>
        scannedRow transaction columnIds t (chunk.start + offset + e.2) :=
    filterMap_congr fun e he => (hrow e.2 e.1 (mem_zipIdx_iff_getElem?.1 he)).symm
  have hmap : range' (chunk.start + offset) (vectorSlots chunk offset).length =
      (vectorRows chunk offset).map fun e => chunk.start + offset + e.2 := by
    rw [range'_eq_map_range, range_eq_range', ← zipIdx_map_snd 0, map_map]
    rfl
  rw [hindices, hmap, filterMap_map]
  rfl

/-! ### Complete scans -/

theorem scanPosition_some (hchunk : t.chunks[n]? = some chunk) (hoffset : offset ≤ chunk.count) :
    scanPosition t ⟨some n, offset⟩ = chunk.start + offset := by
  have hrows : t.rows.length = ((t.chunks.take n).flatMap (·.rows)).length +
      ((t.chunks.drop n).flatMap (·.rows)).length := by
    rw [← length_append, ← flatMap_append, take_append_drop, rows]
  have hstart : chunk.start = ((t.chunks.take n).flatMap (·.rows)).length := by
    rw [t.contiguous.start_eq hchunk, Nat.zero_add, length_flatMap]
    rfl
  have hlen : chunk.count ≤ ((t.chunks.drop n).flatMap (·.rows)).length := by
    rw [drop_chunks hchunk, flatMap_cons, length_append, StorageChunk.count]
    omega
  simp only [scanPosition, remaining, length_drop]
  omega

theorem scan_rows {structure_ : ScanStructure} (hvalid : ValidScan t structure_) :
    ∃ count, (scan transaction columnIds t structure_).1.Perm
        ((range' (scanPosition t structure_) count).filterMap
          (scannedRow transaction columnIds t)) ∧
      scanPosition t (scan transaction columnIds t structure_).2 =
        scanPosition t structure_ + count := by
  have hvector : ∀ {n offset chunk}, t.chunks[n]? = some chunk → offset ≤ chunk.count →
      (scanVector transaction columnIds chunk offset).Perm
          ((range' (scanPosition t ⟨some n, offset⟩)
            (vectorSlots chunk offset).length).filterMap (scannedRow transaction columnIds t)) ∧
        scanPosition t (nextScan t n offset chunk) =
          scanPosition t ⟨some n, offset⟩ + (vectorSlots chunk offset).length := by
    intro n offset chunk hchunk hoffset
    have hperm := scanVector_perm transaction columnIds chunk offset
    rw [vectorRows_eq_range transaction columnIds hchunk,
      ← scanPosition_some hchunk hoffset] at hperm
    refine ⟨hperm, ?_⟩
    have hlen := congrArg length (remaining_eq_append hchunk hoffset).1
    have hdrop := congrArg length (remaining_eq_drop (t := t) ⟨some n, offset⟩)
    have hbound : (remaining t ⟨some n, offset⟩).length ≤ t.rows.length := by
      rw [hdrop, length_drop]
      omega
    rw [length_append] at hlen
    simp only [scanPosition]
    omega
  refine scan_induct (motive := fun structure_ result => ∃ count, result.1.Perm
    ((range' (scanPosition t structure_) count).filterMap
      (scannedRow transaction columnIds t)) ∧
    scanPosition t result.2 = scanPosition t structure_ + count)
    (fun _ => ⟨0, Perm.nil, rfl⟩) ?_ ?_ hvalid
  · rintro n offset chunk result hchunk hle hempty ⟨count, hrows, hposition⟩
    obtain ⟨hperm, hnext⟩ := hvector hchunk hle
    refine ⟨(vectorSlots chunk offset).length + count, ?_, ?_⟩
    · rw [hempty] at hperm
      rw [hnext] at hrows
      rw [← range'_append_1, filterMap_append, hperm.symm.eq_nil, nil_append]
      exact hrows
    · rw [hposition, hnext, Nat.add_assoc]
  · exact fun n offset chunk hchunk hle _ => ⟨_, hvector hchunk hle⟩

theorem scanPosition_le (structure_ : ScanStructure) : scanPosition t structure_ ≤ t.rows.length :=
  Nat.sub_le _ _

theorem scanFrom_perm : ∀ (fuel : ℕ) (structure_ : ScanStructure), ValidScan t structure_ →
    t.rows.length - scanPosition t structure_ < fuel →
    (scanFrom transaction columnIds t fuel structure_).Perm
      ((range' (scanPosition t structure_)
        (t.rows.length - scanPosition t structure_)).filterMap (scannedRow transaction columnIds t))
  | 0, _, _, hfuel => absurd hfuel (Nat.not_lt_zero _)
  | fuel + 1, structure_, hvalid, hfuel => by
    obtain ⟨count, hrows, hposition⟩ := scan_rows transaction columnIds hvalid
    have hspec := scan_spec transaction columnIds t hvalid
    have hle := scanPosition_le (t := t) (scan transaction columnIds t structure_).2
    have hsplit : t.rows.length - scanPosition t structure_ =
        count + (t.rows.length - (scanPosition t structure_ + count)) := by omega
    rw [scanFrom]
    rw [hsplit, ← range'_append_1, filterMap_append]
    split_ifs with hempty
    · -- the table has been read to its end
      have hnil := isEmpty_iff.1 hempty
      have hend : scanPosition t (scan transaction columnIds t structure_).2 = t.rows.length := by
        rw [scanPosition, hspec.finished hnil, length_nil, Nat.sub_zero]
      have hfirst : (range' (scanPosition t structure_) count).filterMap
          (scannedRow transaction columnIds t) = [] := by
        rw [hnil] at hrows
        exact hrows.symm.eq_nil
      rw [hfirst, ← hposition, hend, Nat.sub_self]
      exact Perm.nil
    · refine Perm.append hrows ?_
      rw [← hposition]
      refine scanFrom_perm fuel _ hspec.valid ?_
      have hpos : 0 < count := by
        refine Nat.pos_of_ne_zero fun hzero => hempty ?_
        subst hzero
        rw [hrows.eq_nil]
        rfl
      omega

/-- **A complete scan** returns each row that the transaction sees once. -/
theorem scanAll_perm (t : DataTable V) : (scanAll transaction columnIds t).Perm
    ((range t.rows.length).filterMap (scannedRow transaction columnIds t)) := by
  have hzero : scanPosition t initializeScan = 0 := by
    rw [scanPosition, remaining_initializeScan, Nat.sub_self]
  have hscan := scanFrom_perm transaction columnIds (t.rows.length + 1) initializeScan
    (validScan_initializeScan t) (by omega)
  rwa [hzero, Nat.sub_zero, ← range_eq_range'] at hscan

/-! ### Old versions -/

variable {transaction}

theorem getLast?_takeWhile_followVersions (version : VersionInformation V)
    (rest : List (VersionInformation V)) (h : transaction.sees version.versionNumber = false) :
    ((version :: rest).takeWhile fun v => !transaction.sees v.versionNumber).getLast? =
      some (followVersions transaction version rest) := by
  induction rest generalizing version with
  | nil => simp [h, followVersions]
  | cons next rest ih =>
    rw [takeWhile_cons_of_pos (by simp [h])]
    by_cases hnext : transaction.sees next.versionNumber
    · rw [takeWhile_cons_of_neg (by simp [hnext]), followVersions]
      simp only [Transaction.sees, Bool.or_eq_true, beq_iff_eq, decide_eq_true_eq] at hnext
      rcases hnext with hnext | hnext
      · simp [hnext]
      · simp [hnext]
    · have hfalse : transaction.sees next.versionNumber = false := by simpa using hnext
      have hsplit := hfalse
      simp only [Transaction.sees, Bool.or_eq_false_iff, beq_eq_false_iff_ne,
        decide_eq_false_iff_not] at hsplit
      rw [followVersions, if_neg hsplit.1, if_neg hsplit.2, ← ih next hfalse,
        takeWhile_cons_of_pos (by simp [hfalse])]
      exact getLast?_cons_cons

theorem chooseVersion_eq_alternate_iff : chooseVersion transaction slot = .alternate tuple ↔
      slot.oldVersion? transaction = some tuple := by
  unfold chooseVersion RowSlot.oldVersion?
  cases slot.versionPointers with
  | nil => cases slot.deleted <;> simp
  | cons version rest =>
    by_cases hsees : transaction.sees version.versionNumber
    · cases slot.deleted <;> simp [hsees]
    · rw [getLast?_takeWhile_followVersions version rest (by simpa using hsees), Option.bind_some]
      cases hdata : (followVersions transaction version rest).tupleData <;> simp [hsees, hdata]

/-- The result row of `Scan` has the row number as its id, unless it is an old version in a later
chunk. -/
theorem resultRow_eq_of_oldVersion? {start : ℕ} (hstart : start ≤ row)
    (h : start ≠ 0 → slot.oldVersion? transaction = none) :
    resultRow transaction columnIds start (row - start) slot =
      (readRow transaction slot).map (resultCells columnIds row) := by
  unfold resultRow readRow
  cases hchoice : chooseVersion transaction slot with
  | base => simp [Nat.add_sub_cancel' hstart]
  | skip => rfl
  | alternate tuple =>
    have hzero : start = 0 := by
      by_contra hne
      rw [chooseVersion_eq_alternate_iff, h hne] at hchoice
      exact absurd hchoice (by simp)
    simp [hzero]

/-- The row id of a result row without other columns. -/
def rowIdOf : List (Cell V) → ℕ
  | .rowId row :: _ => row
  | _ => 0

theorem sum_map_filterMap {α β : Type*} {f : α → Option β} {g : β → ℕ} {l : List α} :
    ((l.filterMap f).map g).sum = (l.map fun a => ((f a).map g).getD 0).sum := by
  induction l with
  | nil => rfl
  | cons a l ih => cases h : f a <;> simp [h, ih]

variable (transaction) in
theorem exists_slot (hrow : row < t.rows.length) :
    ∃ chunk ∈ t.chunks, ∃ slot ∈ chunk.rows, chunk.start ≤ row ∧
      scannedRow transaction columnIds t row =
        resultRow transaction columnIds chunk.start (row - chunk.start) slot ∧
      numberedRow transaction columnIds t row =
        (readRow transaction slot).map (resultCells columnIds row) := by
  obtain ⟨chunk, hchunk⟩ := exists_getChunk hrow
  have hget : chunk.rows[row - chunk.start]? = some t.rows[row] := by
    rw [getChunk_rows hchunk, getElem?_eq_getElem hrow]
  refine ⟨chunk, mem_of_find?_eq_some hchunk, t.rows[row], mem_of_getElem? hget,
    (StorageChunk.holds_iff.1 (holds_of_getChunk hchunk)).1, ?_, ?_⟩
  · rw [scannedRow, hchunk, Option.bind_some, hget, Option.bind_some]
  · rw [numberedRow, row?_eq, getElem?_eq_getElem hrow, Option.bind_some]

theorem rowIdOf_resultCells : rowIdOf (resultCells [.rowId] row tuple) = row := rfl

/-- The id that `Scan` gives to a row is at most its number. -/
theorem rowIdOf_scannedRow_le (hrow : row < t.rows.length) :
    ((scannedRow transaction [.rowId] t row).map rowIdOf).getD 0 ≤
      ((numberedRow transaction [.rowId] t row).map rowIdOf).getD 0 := by
  obtain ⟨chunk, -, slot, -, hstart, hscanned, hnumbered⟩ :=
    exists_slot transaction [.rowId] hrow
  rw [hscanned, hnumbered]
  unfold resultRow readRow
  cases chooseVersion transaction slot with
  | base => simp [rowIdOf_resultCells, Nat.add_sub_cancel' hstart]
  | alternate tuple => simp [rowIdOf_resultCells]
  | skip => simp

/-- An old version in a later chunk gets an id that is too small. -/
theorem not_faithfulRowIds (hchunk : chunk ∈ t.chunks) (hstart : chunk.start ≠ 0)
    (hslot : slot ∈ chunk.rows) (hold : (slot.oldVersion? transaction).isSome) :
    ¬FaithfulRowIds transaction t := by
  intro hfaithful
  obtain ⟨tuple, htuple⟩ := Option.isSome_iff_exists.1 hold
  -- the row ids of the scan have a smaller sum than the row numbers
  have hperm := (scanAll_perm transaction [.rowId] t).symm.trans (hfaithful [.rowId])
  have hsum := (hperm.map rowIdOf).sum_eq
  rw [sum_map_filterMap, sum_map_filterMap] at hsum
  refine absurd hsum (ne_of_lt (sum_lt_sum _ _ (fun row hrow =>
    rowIdOf_scannedRow_le (mem_range.1 hrow)) ?_))
  obtain ⟨n, hn⟩ := mem_iff_getElem?.1 hchunk
  obtain ⟨i, hi⟩ := mem_iff_getElem?.1 hslot
  have hholds : chunk.holds (chunk.start + i) := by
    have hlt : i < chunk.rows.length := (List.getElem?_eq_some_iff.1 hi).1
    rw [StorageChunk.holds_iff, StorageChunk.count]
    omega
  have hget : t.getChunk (chunk.start + i) = some chunk :=
    t.contiguous.find?_eq_some hn hholds
  refine ⟨chunk.start + i, mem_range.2 (lt_of_getChunk hget), ?_⟩
  have hchoice := chooseVersion_eq_alternate_iff.2 htuple
  have hi' : t.rows[chunk.start + i]? = some slot := by
    rw [← getChunk_rows hget, Nat.add_sub_cancel_left, hi]
  rw [scannedRow, numberedRow, hget, row?_eq, hi', Option.bind_some, Nat.add_sub_cancel_left, hi,
    Option.bind_some, Option.bind_some, resultRow, readRow, hchoice]
  simp [rowIdOf_resultCells, Nat.pos_of_ne_zero hstart]

/-- **Row ids are row numbers** exactly if no row of a storage chunk behind the first one is read
from an old version. -/
theorem faithfulRowIds_iff (transaction : Transaction C) (t : DataTable V) :
    FaithfulRowIds transaction t ↔ ∀ chunk ∈ t.chunks, chunk.start ≠ 0 →
      ∀ slot ∈ chunk.rows, slot.oldVersion? transaction = none := by
  constructor
  · intro hfaithful chunk hchunk hstart slot hslot
    by_contra hold
    exact not_faithfulRowIds hchunk hstart hslot (Option.isSome_iff_ne_none.2 hold) hfaithful
  · intro hfirst columnIds
    refine (scanAll_perm transaction columnIds t).trans (.of_eq ?_)
    refine filterMap_congr fun row hrow => ?_
    obtain ⟨chunk, hchunk, slot, hslot, hstart, hscanned, hnumbered⟩ :=
      exists_slot transaction columnIds (mem_range.1 hrow)
    rw [hscanned, hnumbered]
    exact resultRow_eq_of_oldVersion? columnIds hstart fun hne => hfirst chunk hchunk hne slot hslot

/-! ### A row of the second chunk -/

/-- The only row of the second chunk: a transaction with the commit id 2 has changed 8 to 9. -/
def changedRow : RowSlot ℕ where
  columns := [9]
  deleted := false
  versionPointers := [⟨⟨transactionIdStart, 0⟩, 2, some [8]⟩]

/-- A full chunk of rows without versions, and a second chunk with one row. -/
def changedSecondChunk : DataTable ℕ where
  columnCount := 1
  cardinality := 10241
  chunks :=
    [⟨0, List.replicate storageChunkSize ⟨[7], false, []⟩⟩, ⟨storageChunkSize, [changedRow]⟩]
  contiguous := ⟨rfl, by simp [StorageChunk.count], trivial⟩
  nonempty := cons_ne_nil _ _

/-- A transaction that began before the change gets the old value of the last row with the row id 0
instead of 10240. -/
theorem not_faithfulRowIds_changedSecondChunk :
    ¬FaithfulRowIds ({ startTime := 1, transactionId := transactionIdStart + 1 } : Transaction Unit)
      changedSecondChunk := by
  have hchunk : ⟨storageChunkSize, [changedRow]⟩ ∈ changedSecondChunk.chunks := by
    simp [changedSecondChunk]
  exact not_faithfulRowIds hchunk (by decide) (mem_singleton_self _) (by decide)

end DataTable

end DuckDB
