import DuckDB.Storage.Equiv.Geometry
import Mathlib.Data.List.Perm.Basic

/-!
# What `Scan` and `Fetch` return

`readRow` is the tuple a transaction gets for a row. The row ids in a result are left aside here
(`dataCells`); the values are those of `readRow`:

* `scan_spec`: a call of `Scan` returns the visible rows of the next part of the table, each once,
  in some order; an empty result means that the table has been read to its end.
* `fetch_eq`: `Fetch` returns the visible ones of the given rows, in the order of their ids, or
  throws if one of them does not exist.
* `scan_congr`, `fetch_congr`: tables whose rows read alike give the same results.
* `ValidScan.grows`: a scan that has begun can go on after the table has changed.
-/

namespace DuckDB

open List StorageChunk

open List (Perm)

variable {V C : Type*}

namespace DataTable

variable {chunk : StorageChunk V} {offset n : ℕ} {slot : RowSlot V}

/-- The tuple that a transaction reads for a row. -/
def readRow (transaction : Transaction C) (slot : RowSlot V) : Option (List V) :=
  match chooseVersion transaction slot with
  | .base => some slot.columns
  | .alternate tuple => some tuple
  | .skip => none

/-- The values of a result row, without the row ids. -/
def dataCells (result : List (Cell V)) : List (Option V) :=
  result.filterMap fun
    | .rowId _ => none
    | .value v => some v

/-- The columns of a tuple that a scan asks for, without the row ids. -/
def projection (columnIds : List ColumnId) (tuple : List V) : List (Option V) :=
  columnIds.filterMap fun
    | .rowId => none
    | .column j => some tuple[j]?

/-- One result row. -/
def resultCells (columnIds : List ColumnId) (rowId : ℕ) (tuple : List V) : List (Cell V) :=
  columnIds.map fun
    | .rowId => .rowId rowId
    | .column j => .value tuple[j]?

variable {structure_ : ScanStructure} {slots : List (RowSlot V)} {rowId : ℕ}

theorem dataCells_resultCells {columnIds : List ColumnId} {tuple : List V} :
    dataCells (resultCells columnIds rowId tuple) = projection columnIds tuple := by
  rw [dataCells, resultCells, filterMap_map, projection]
  refine filterMap_congr fun c _ => ?_
  cases c <;> rfl

/-- The result row for the row at `index` of a chunk that starts at `start`. -/
def resultRow (transaction : Transaction C) (columnIds : List ColumnId) (start index : ℕ)
    (slot : RowSlot V) : Option (List (Cell V)) :=
  match chooseVersion transaction slot with
  | .base => some (resultCells columnIds (start + index) slot.columns)
  | .alternate tuple => some (resultCells columnIds index tuple)
  | .skip => none

theorem dataCells_resultRow (transaction : Transaction C) (columnIds : List ColumnId)
    {start index : ℕ} (slot : RowSlot V) :
    (resultRow transaction columnIds start index slot).map dataCells =
      (readRow transaction slot).map (projection columnIds) := by
  unfold resultRow readRow
  cases chooseVersion transaction slot <;> simp [dataCells_resultCells]

/-! ### One vector -/

theorem retrieveVersionedData_eq {columnIds : List ColumnId} {alternates : List (List V × ℕ)} :
    retrieveVersionedData columnIds alternates =
      alternates.map fun a => resultCells columnIds a.2 a.1 := rfl

theorem retrieveBaseTableData_eq (columnIds : List ColumnId) (chunk : StorageChunk V) (offset : ℕ)
    {entries : List (RowSlot V × ℕ)} (h : ∀ e ∈ entries, chunk.rows[offset + e.2]? = some e.1) :
    retrieveBaseTableData columnIds chunk offset (entries.map (·.2)) =
      entries.map fun e => resultCells columnIds (chunk.start + (offset + e.2)) e.1.columns := by
  rw [retrieveBaseTableData, map_map]
  refine map_congr_left fun e he => map_congr_left fun c _ => ?_
  cases c with
  | rowId => rw [Nat.add_assoc]
  | column j => simp [h e he]

theorem getElem?_of_mem_vectorRows {e : RowSlot V × ℕ} (h : e ∈ vectorRows chunk offset) :
    chunk.rows[offset + e.2]? = some e.1 := by
  obtain ⟨slot, i⟩ := e
  have hi := mem_zipIdx_iff_getElem?.1 h
  rw [getElem?_take] at hi
  split_ifs at hi with hlt
  · rwa [getElem?_drop] at hi

/-- The row has no version and is not deleted. -/
def isPlain (slot : RowSlot V) : Bool :=
  !(slot.deleted || !slot.versionPointers.isEmpty)

/-- The row has a version. -/
def isVersioned (slot : RowSlot V) : Bool :=
  !slot.versionPointers.isEmpty

/-- The transaction reads the base data of the row. -/
def usesBase (transaction : Transaction C) (slot : RowSlot V) : Bool :=
  chooseVersion transaction slot matches .base

/-- The result row for a row that is read from an older version. -/
def alternateRow (transaction : Transaction C) (columnIds : List ColumnId) (index : ℕ)
    (slot : RowSlot V) : Option (List (Cell V)) :=
  match chooseVersion transaction slot with
  | .alternate tuple => some (resultCells columnIds index tuple)
  | _ => none

theorem chooseVersion_of_isPlain (transaction : Transaction C) (h : isPlain slot) :
    chooseVersion transaction slot = .base ∧ isVersioned slot = false := by
  simp only [isPlain, Bool.not_or, Bool.not_not, Bool.and_eq_true, Bool.not_eq_true',
    List.isEmpty_iff] at h
  simp [chooseVersion, isVersioned, h.1, h.2]

theorem chooseVersion_of_dead (transaction : Transaction C) (hplain : isPlain slot = false)
    (hversioned : isVersioned slot = false) : chooseVersion transaction slot = .skip := by
  have hvp : slot.versionPointers = [] := by simpa [isVersioned] using hversioned
  have hdel : slot.deleted = true := by simpa [isPlain, hvp] using hplain
  simp [chooseVersion, hvp, hdel]

theorem isPlain_eq_false (transaction : Transaction C)
    (h : chooseVersion transaction slot ≠ .base) : isPlain slot = false := by
  by_contra hno
  exact h (chooseVersion_of_isPlain transaction (by simpa using hno)).1

theorem isVersioned_eq_true (transaction : Transaction C) (hplain : isPlain slot = false)
    (h : chooseVersion transaction slot ≠ .skip) : isVersioned slot = true := by
  by_contra hno
  exact h (chooseVersion_of_dead transaction hplain (by simpa using hno))

/-- The three groups of rows of a vector, together, are the visible ones. -/
theorem groups_perm (transaction : Transaction C) (columnIds : List ColumnId)
    (start offset : ℕ) (vector : List (RowSlot V × ℕ)) :
    ((vector.filter fun e => isVersioned e.1).filterMap
        (fun e => alternateRow transaction columnIds (offset + e.2) e.1) ++
      ((vector.filter fun e => isPlain e.1) ++
        (vector.filter fun e => isVersioned e.1).filter fun e => usesBase transaction e.1).map
        fun e => resultCells columnIds (start + (offset + e.2)) e.1.columns).Perm
      (vector.filterMap fun e => resultRow transaction columnIds start (offset + e.2) e.1) := by
  induction vector with
  | nil => exact Perm.nil
  | cons e vector ih =>
    cases hchoice : chooseVersion transaction e.1 with
    | base =>
      have hrow : resultRow transaction columnIds start (offset + e.2) e.1 =
          some (resultCells columnIds (start + (offset + e.2)) e.1.columns) := by
        simp only [resultRow, hchoice]
      have halt : alternateRow transaction columnIds (offset + e.2) e.1 = none := by
        simp only [alternateRow, hchoice]
      have hbase : usesBase transaction e.1 = true := by simp only [usesBase, hchoice]
      by_cases hplain : isPlain e.1
      · have hversioned := (chooseVersion_of_isPlain transaction hplain).2
        simp only [filter_cons, hplain, hversioned, if_true, Bool.false_eq_true, if_false,
          filterMap_cons, hrow, cons_append, map_cons]
        exact perm_middle.trans (ih.cons _)
      · have hversioned := isVersioned_eq_true transaction (by simpa using hplain) (by simp [hchoice])
        simp only [filter_cons, hplain, hversioned, if_true, Bool.false_eq_true, if_false,
          filterMap_cons, hrow, halt, hbase, map_append, map_cons]
        rw [← append_assoc]
        refine perm_middle.trans (Perm.cons _ ?_)
        rw [append_assoc, ← map_append]
        exact ih
    | alternate tuple =>
      have hrow : resultRow transaction columnIds start (offset + e.2) e.1 =
          some (resultCells columnIds (offset + e.2) tuple) := by
        simp only [resultRow, hchoice]
      have halt : alternateRow transaction columnIds (offset + e.2) e.1 =
          some (resultCells columnIds (offset + e.2) tuple) := by
        simp only [alternateRow, hchoice]
      have hbase : usesBase transaction e.1 = false := by simp only [usesBase, hchoice]
      have hplain : isPlain e.1 = false := isPlain_eq_false transaction (by simp [hchoice])
      have hversioned := isVersioned_eq_true transaction hplain (by simp [hchoice])
      simp only [filter_cons, hplain, hversioned, if_true, Bool.false_eq_true, if_false,
        filterMap_cons, hrow, halt, hbase]
      exact ih.cons _
    | skip =>
      have hrow : resultRow transaction columnIds start (offset + e.2) e.1 = none := by
        simp only [resultRow, hchoice]
      have halt : alternateRow transaction columnIds (offset + e.2) e.1 = none := by
        simp only [alternateRow, hchoice]
      have hbase : usesBase transaction e.1 = false := by simp only [usesBase, hchoice]
      have hplain : isPlain e.1 = false := isPlain_eq_false transaction (by simp [hchoice])
      cases hversioned : isVersioned e.1 <;>
        simpa only [filter_cons, hplain, hversioned, if_true, Bool.false_eq_true, if_false,
          filterMap_cons, hrow, halt, hbase] using ih

/-- **One vector of `Scan`**: the visible rows of the vector, each once. -/
theorem scanVector_perm (transaction : Transaction C) (columnIds : List ColumnId)
    (chunk : StorageChunk V) (offset : ℕ) :
    (scanVector transaction columnIds chunk offset).Perm
      ((vectorRows chunk offset).filterMap fun e =>
        resultRow transaction columnIds chunk.start (offset + e.2) e.1) := by
  have hmem : ∀ e ∈ vectorRows chunk offset, chunk.rows[offset + e.2]? = some e.1 :=
    fun e he => getElem?_of_mem_vectorRows he
  refine Perm.trans (.of_eq ?_)
    (groups_perm transaction columnIds chunk.start offset (vectorRows chunk offset))
  unfold scanVector
  simp only
  split_ifs with hlt
  · rw [retrieveVersionedData_eq, map_filterMap, retrieveBaseTableData_eq columnIds chunk offset]
    · refine congrArg (· ++ _) (filterMap_congr fun e _ => ?_)
      unfold alternateRow
      cases chooseVersion transaction e.1 <;> rfl
    · intro e he
      rcases mem_append.1 he with he | he
      · exact hmem e (mem_filter.1 he).1
      · exact hmem e (mem_filter.1 (mem_filter.1 he).1).1
  · -- no row has a version
    have hall : ∀ e ∈ vectorRows chunk offset, isPlain e.1 = true :=
      length_filter_eq_length_iff.1 (le_antisymm (length_filter_le _ _) (not_lt.1 hlt))
    have hnone : (vectorRows chunk offset).filter (fun e => isVersioned e.1) = [] :=
      filter_eq_nil_iff.2 fun e he => by
        simp [(chooseVersion_of_isPlain transaction (hall e he)).2]
    rw [hnone, filterMap_nil, filter_nil, append_nil, nil_append]
    exact retrieveBaseTableData_eq columnIds chunk offset
      fun e he => hmem e (mem_filter.1 he).1

/-- The rows of a vector. -/
def vectorSlots (chunk : StorageChunk V) (offset : ℕ) : List (RowSlot V) :=
  (chunk.rows.drop offset).take standardVectorSize

theorem scanVector_data_perm (transaction : Transaction C) (columnIds : List ColumnId)
    (chunk : StorageChunk V) (offset : ℕ) :
    ((scanVector transaction columnIds chunk offset).map dataCells).Perm
      ((vectorSlots chunk offset).filterMap fun slot =>
        (readRow transaction slot).map (projection columnIds)) := by
  refine ((scanVector_perm transaction columnIds chunk offset).map dataCells).trans (.of_eq ?_)
  rw [map_filterMap]
  have hslots : vectorSlots chunk offset = (vectorRows chunk offset).map Prod.fst := by
    rw [vectorRows, zipIdx_map_fst]
    rfl
  rw [hslots, filterMap_map]
  exact filterMap_congr fun e _ => dataCells_resultRow transaction columnIds e.1

/-! ### The scan -/

/-- The rows a scan has not read yet. -/
def remaining (t : DataTable V) (structure_ : ScanStructure) : List (RowSlot V) :=
  match structure_.chunk with
  | none => []
  | some n => ((t.chunks.drop n).flatMap (·.rows)).drop structure_.offset

/-- The number of rows before the place where a scan goes on. -/
def scanPosition (t : DataTable V) (structure_ : ScanStructure) : ℕ :=
  t.rows.length - (remaining t structure_).length

/-- The scan structure points into the table. -/
def ValidScan (t : DataTable V) (structure_ : ScanStructure) : Prop :=
  ∀ n, structure_.chunk = some n → ∃ c, t.chunks[n]? = some c ∧ structure_.offset ≤ c.count

@[simp] theorem remaining_initializeScan {t : DataTable V} : remaining t initializeScan = t.rows :=
  rfl

theorem validScan_initializeScan (t : DataTable V) : ValidScan t initializeScan := by
  rintro n hn
  obtain rfl : 0 = n := Option.some.inj hn
  obtain ⟨c, cs, hc⟩ := exists_cons_of_ne_nil t.nonempty
  exact ⟨c, by simp [hc], Nat.zero_le _⟩

/-- The place after a vector. -/
def nextScan (t : DataTable V) (n offset : ℕ) (chunk : StorageChunk V) : ScanStructure :=
  if chunk.count ≤ offset + standardVectorSize then
    ⟨if n + 1 < t.chunks.length then some (n + 1) else none, 0⟩
  else ⟨some n, offset + standardVectorSize⟩

theorem drop_chunks {t : DataTable V} (h : t.chunks[n]? = some chunk) :
    t.chunks.drop n = chunk :: t.chunks.drop (n + 1) := by
  obtain ⟨hn, rfl⟩ := List.getElem?_eq_some_iff.1 h
  exact drop_eq_getElem_cons hn

/-- A vector is the next part of the table. -/
theorem remaining_eq_append {t : DataTable V} (h : t.chunks[n]? = some chunk)
    (hoffset : offset ≤ chunk.count) : remaining t ⟨some n, offset⟩ =
        vectorSlots chunk offset ++ remaining t (nextScan t n offset chunk) ∧
      ValidScan t (nextScan t n offset chunk) := by
  have hrest : remaining t ⟨some n, offset⟩ =
      chunk.rows.drop offset ++ (t.chunks.drop (n + 1)).flatMap (·.rows) := by
    simp only [remaining, drop_chunks h, flatMap_cons]
    exact drop_append_of_le_length hoffset
  rw [hrest, nextScan, vectorSlots]
  split_ifs with hend hnext
  · -- on to the next chunk
    refine ⟨?_, fun m hm => ?_⟩
    · rw [take_of_length_le (by simp only [StorageChunk.count] at hend; simp; omega)]
      rfl
    · obtain rfl := Option.some.inj hm
      exact ⟨t.chunks[n + 1], getElem?_eq_getElem hnext, Nat.zero_le _⟩
  · -- this was the last chunk
    refine ⟨?_, fun m hm => by simp at hm⟩
    rw [take_of_length_le (by simp only [StorageChunk.count] at hend; simp; omega),
      drop_eq_nil_of_le (not_lt.1 hnext)]
    rfl
  · refine ⟨?_, fun m hm => ?_⟩
    · have hnew : remaining t ⟨some n, offset + standardVectorSize⟩ =
          chunk.rows.drop (offset + standardVectorSize) ++
            (t.chunks.drop (n + 1)).flatMap (·.rows) := by
        simp only [remaining, drop_chunks h, flatMap_cons]
        exact drop_append_of_le_length (le_of_not_ge hend)
      have hdrop : chunk.rows.drop (offset + standardVectorSize) =
          (chunk.rows.drop offset).drop standardVectorSize := drop_drop.symm
      rw [hnew, ← append_assoc, hdrop, take_append_drop]
    · obtain rfl := Option.some.inj hm
      exact ⟨chunk, h, le_of_not_ge hend⟩

/-- A bound for the number of vectors left. -/
def vectorsLeft (t : DataTable V) (structure_ : ScanStructure) : ℕ :=
  (remaining t structure_).length +
    match structure_.chunk with
    | none => 0
    | some n => t.chunks.length - n

theorem vectorsLeft_nextScan {t : DataTable V} (h : t.chunks[n]? = some chunk)
    (hoffset : offset ≤ chunk.count) :
    vectorsLeft t (nextScan t n offset chunk) < vectorsLeft t ⟨some n, offset⟩ := by
  have hn : n < t.chunks.length := (List.getElem?_eq_some_iff.1 h).1
  have hlen := congrArg List.length (remaining_eq_append h hoffset).1
  rw [length_append] at hlen
  unfold vectorsLeft
  rw [hlen]
  unfold nextScan
  split_ifs with hend hnext
  · simp only
    omega
  · simp only
    omega
  · have hpos : 0 < (vectorSlots chunk offset).length := by
      simp only [StorageChunk.count, standardVectorSize] at hend
      simp only [vectorSlots, standardVectorSize, length_take, length_drop]
      omega
    simp only
    omega

/-- What one call of `Scan` returns and where it leaves off. -/
structure ScanResult (transaction : Transaction C) (columnIds : List ColumnId) (t : DataTable V)
    (structure_ : ScanStructure) (result : List (List (Cell V)) × ScanStructure) : Prop where
  rows : ∃ scanned, remaining t structure_ = scanned ++ remaining t result.2 ∧
    (result.1.map dataCells).Perm (scanned.filterMap fun slot =>
      (readRow transaction slot).map (projection columnIds))
  finished : result.1 = [] → remaining t result.2 = []
  valid : ValidScan t result.2

theorem vectorsLeft_lt (t : DataTable V) (structure_ : ScanStructure) :
    vectorsLeft t structure_ < t.rows.length + t.chunks.length + 1 := by
  unfold vectorsLeft remaining
  cases structure_.chunk with
  | none => simp
  | some n =>
    have hsub : ((t.chunks.drop n).flatMap (·.rows)).length ≤ t.rows.length := by
      rw [rows, ← take_append_drop n t.chunks, flatMap_append, length_append, take_append_drop]
      omega
    simp only [length_drop]
    omega

/-- **Induction over the vectors** that a call of `Scan` reads. -/
theorem scan_induct {transaction : Transaction C} {columnIds : List ColumnId} {t : DataTable V}
    {motive : ScanStructure → List (List (Cell V)) × ScanStructure → Prop}
    (hend : ∀ offset, motive ⟨none, offset⟩ ([], ⟨none, offset⟩))
    (hskip : ∀ n offset chunk result, t.chunks[n]? = some chunk → offset ≤ chunk.count →
      scanVector transaction columnIds chunk offset = [] →
      motive (nextScan t n offset chunk) result → motive ⟨some n, offset⟩ result)
    (hfound : ∀ n offset chunk, t.chunks[n]? = some chunk → offset ≤ chunk.count →
      scanVector transaction columnIds chunk offset ≠ [] → motive ⟨some n, offset⟩
        (scanVector transaction columnIds chunk offset, nextScan t n offset chunk))
    (hvalid : ValidScan t structure_) :
    motive structure_ (scan transaction columnIds t structure_) := by
  rw [scan]
  have hfuel := vectorsLeft_lt t structure_
  generalize t.rows.length + t.chunks.length + 1 = fuel at hfuel ⊢
  induction fuel generalizing structure_ with
  | zero => exact absurd hfuel (Nat.not_lt_zero _)
  | succ fuel ih =>
    obtain ⟨_ | n, offset⟩ := structure_
    · exact hend offset
    · obtain ⟨chunk, hchunk, hle⟩ : ∃ c, t.chunks[n]? = some c ∧ offset ≤ c.count := hvalid n rfl
      have hlt := vectorsLeft_nextScan hchunk hle
      have hloop : scanLoop transaction columnIds t (fuel + 1) ⟨some n, offset⟩ =
          if (scanVector transaction columnIds chunk offset).isEmpty then
            scanLoop transaction columnIds t fuel (nextScan t n offset chunk)
          else (scanVector transaction columnIds chunk offset, nextScan t n offset chunk) := by
        simp [scanLoop, hchunk, nextScan]
      rw [hloop]
      split_ifs with hempty
      · refine hskip n offset chunk _ hchunk hle (isEmpty_iff.1 hempty) ?_
        exact ih (remaining_eq_append hchunk hle).2 (by omega)
      · exact hfound n offset chunk hchunk hle (mt isEmpty_iff.2 hempty)

/-- **`Scan`**: a call reads on from where the last one left off, and returns the rows it has read
as the transaction sees them; when it returns nothing, the table has been read to its end. -/
theorem scan_spec (transaction : Transaction C) (columnIds : List ColumnId) (t : DataTable V)
    (hvalid : ValidScan t structure_) :
    ScanResult transaction columnIds t structure_ (scan transaction columnIds t structure_) := by
  refine scan_induct (fun offset => ?_) ?_ ?_ hvalid
  · exact ⟨⟨[], rfl, Perm.nil⟩, fun _ => rfl, fun n hn => by simp at hn⟩
  · -- nothing visible in this vector
    rintro n offset chunk result hchunk hle hempty ⟨⟨scanned, hscanned, hrows⟩, hfinished, hvalid⟩
    have hperm := scanVector_data_perm transaction columnIds chunk offset
    refine ⟨⟨vectorSlots chunk offset ++ scanned, ?_, ?_⟩, hfinished, hvalid⟩
    · rw [(remaining_eq_append hchunk hle).1, hscanned, append_assoc]
    · rw [hempty, map_nil] at hperm
      rw [filterMap_append, hperm.symm.eq_nil, nil_append]
      exact hrows
  · intro n offset chunk hchunk hle hne
    obtain ⟨hsplit, hvalid⟩ := remaining_eq_append hchunk hle
    exact ⟨⟨vectorSlots chunk offset, hsplit,
      scanVector_data_perm transaction columnIds chunk offset⟩, fun hnil => absurd hnil hne, hvalid⟩

/-- The rows left are the last ones of the table. -/
theorem remaining_eq_drop {t : DataTable V} (structure_ : ScanStructure) :
    remaining t structure_ = t.rows.drop (scanPosition t structure_) := by
  have hsuffix : remaining t structure_ <:+ t.rows := by
    unfold remaining
    cases structure_.chunk with
    | none => exact nil_suffix
    | some n =>
      refine (drop_suffix _ _).trans ?_
      rw [rows]
      conv_rhs => rw [← take_append_drop n t.chunks, flatMap_append]
      exact suffix_append _ _
  obtain ⟨before, hbefore⟩ := hsuffix
  have hpos : scanPosition t structure_ = before.length := by
    rw [scanPosition, ← hbefore, length_append]
    omega
  rw [hpos, ← hbefore, drop_left]

/-! ### Fetch -/

theorem fetchRow_eq (transaction : Transaction C) (columnIds : List ColumnId) {t : DataTable V}
    (h : t.getChunk rowId = some chunk) : fetchRow transaction columnIds chunk rowId =
      ((t.rows[rowId]?.bind (readRow transaction)).map (resultCells columnIds rowId)).toList := by
  have hrow := getChunk_rows h
  have hstart := (holds_iff.1 (holds_of_getChunk h)).1
  unfold fetchRow
  rw [← hrow]
  cases hslot : chunk.rows[rowId - chunk.start]? with
  | none => rfl
  | some slot =>
    simp only [Option.bind_some, readRow]
    cases chooseVersion transaction slot with
    | base =>
      have hmem : ∀ e ∈ [(slot, rowId - chunk.start)], chunk.rows[0 + e.2]? = some e.1 := by
        simpa using hslot
      have hentries := retrieveBaseTableData_eq columnIds chunk 0 hmem
      simpa [Nat.add_sub_cancel' hstart] using hentries
    | alternate tuple => rfl
    | skip => rfl

/-- **`Fetch`**: the visible ones of the rows, in the order of their ids. -/
theorem fetch_eq {transaction : Transaction C} {columnIds : List ColumnId} {t : DataTable V}
    {rowIdentifiers : List ℕ} : fetch transaction columnIds t rowIdentifiers =
      if ∀ rowId ∈ rowIdentifiers, rowId < t.rows.length then
        .ok ((rowIdentifiers.mergeSort (· ≤ ·)).filterMap fun rowId =>
          (t.rows[rowId]?.bind (readRow transaction)).map (resultCells columnIds rowId))
      else .error outOfBounds := by
  have key : ∀ (ids : List ℕ) (result : List (List (Cell V))),
      ids.foldlM (fetchNext transaction columnIds t) result =
      if ∀ rowId ∈ ids, rowId < t.rows.length then
        .ok (result ++ ids.filterMap fun rowId =>
          (t.rows[rowId]?.bind (readRow transaction)).map (resultCells columnIds rowId))
      else .error outOfBounds := by
    intro ids
    induction ids with
    | nil => intro result; simp [pure, Except.pure]
    | cons rowId ids ih =>
      intro result
      rw [foldlM_cons, fetchNext]
      cases hchunk : t.getChunk rowId with
      | none =>
        have hout : ¬rowId < t.rows.length := not_lt.2 ((t.getChunk_eq_none_iff rowId).1 hchunk)
        rw [if_neg fun hall => hout (hall rowId mem_cons_self)]
        rfl
      | some chunk =>
        have hin := lt_of_getChunk hchunk
        refine (ih _).trans ?_
        rw [fetchRow_eq transaction columnIds hchunk]
        by_cases hall : ∀ rowId ∈ ids, rowId < t.rows.length
        · have hcons : ∀ id ∈ rowId :: ids, id < t.rows.length :=
            forall_mem_cons.2 ⟨hin, hall⟩
          rw [if_pos hall, if_pos hcons, filterMap_cons]
          cases (t.rows[rowId]?.bind (readRow transaction)).map (resultCells columnIds rowId) <;>
            simp
        · rw [if_neg hall, if_neg fun h => hall (forall_mem_cons.1 h).2]
  rw [fetch, key]
  simp only [nil_append, mem_mergeSort]

/-! ### Tables that read alike -/

/-- What a transaction can tell about a row. -/
def reading (transaction : Transaction C) (slot : RowSlot V) : List V × RowChoice V :=
  (slot.columns, chooseVersion transaction slot)

/-- What a transaction can tell about a chunk. -/
def chunkReading (transaction : Transaction C) (chunk : StorageChunk V) :
    ℕ × List (List V × RowChoice V) :=
  (chunk.start, chunk.rows.map (reading transaction))

/-- The result row, from what the transaction can tell about the row. -/
def rowOfReading (columnIds : List ColumnId) (start index : ℕ) (r : List V × RowChoice V) :
    Option (List (Cell V)) :=
  match r.2 with
  | .base => some (resultCells columnIds (start + index) r.1)
  | .alternate tuple => some (resultCells columnIds index tuple)
  | .skip => none

theorem vectorRows_filterMap {transaction : Transaction C} {columnIds : List ColumnId} :
    ((vectorRows chunk offset).filterMap fun e =>
      resultRow transaction columnIds chunk.start (offset + e.2) e.1) =
      ((((chunkReading transaction chunk).2.drop offset).take standardVectorSize).zipIdx).filterMap
        fun e => rowOfReading columnIds (chunkReading transaction chunk).1 (offset + e.2) e.1 := by
  simp only [chunkReading, vectorRows, ← map_drop, ← map_take, zipIdx_map, filterMap_map]
  rfl

variable {t t' : DataTable V} {transaction : Transaction C} {columnIds : List ColumnId}

theorem scanVector_congr (columnIds : List ColumnId) {chunk' : StorageChunk V}
    (h : chunkReading transaction chunk = chunkReading transaction chunk') (offset : ℕ) :
    (scanVector transaction columnIds chunk offset).Perm
      (scanVector transaction columnIds chunk' offset) := by
  refine (scanVector_perm transaction columnIds chunk offset).trans (Perm.trans (.of_eq ?_)
    (scanVector_perm transaction columnIds chunk' offset).symm)
  rw [vectorRows_filterMap, vectorRows_filterMap, h]

theorem scanLoop_congr
    (h : t.chunks.map (chunkReading transaction) = t'.chunks.map (chunkReading transaction)) :
    ∀ (fuel : ℕ) (structure_ : ScanStructure),
      (scanLoop transaction columnIds t fuel structure_).1.Perm
          (scanLoop transaction columnIds t' fuel structure_).1 ∧
        (scanLoop transaction columnIds t fuel structure_).2 =
          (scanLoop transaction columnIds t' fuel structure_).2
  | 0, _ => ⟨Perm.nil, rfl⟩
  | fuel + 1, ⟨none, offset⟩ => ⟨Perm.nil, rfl⟩
  | fuel + 1, ⟨some n, offset⟩ => by
    have hlen : t.chunks.length = t'.chunks.length := by simpa using congrArg length h
    have hn : (t.chunks[n]?).map (chunkReading transaction) =
        (t'.chunks[n]?).map (chunkReading transaction) := by
      rw [← getElem?_map, ← getElem?_map, h]
    cases hc : t.chunks[n]? with
    | none =>
      have hc' : t'.chunks[n]? = none := by simpa [hc] using hn.symm
      simp [scanLoop, hc, hc']
    | some chunk =>
      rw [hc, Option.map_some] at hn
      obtain ⟨chunk', hc', hread⟩ := Option.map_eq_some_iff.1 hn.symm
      have hcount : chunk.count = chunk'.count := by
        simpa [chunkReading, StorageChunk.count] using congrArg (fun r => r.2.length) hread.symm
      have hperm := scanVector_congr columnIds hread.symm offset
      have hnext : nextScan t n offset chunk = nextScan t' n offset chunk' := by
        simp only [nextScan, hcount, hlen]
      have hloop : ∀ (u : DataTable V) (c : StorageChunk V), u.chunks[n]? = some c →
          scanLoop transaction columnIds u (fuel + 1) ⟨some n, offset⟩ =
            if (scanVector transaction columnIds c offset).isEmpty then
              scanLoop transaction columnIds u fuel (nextScan u n offset c)
            else (scanVector transaction columnIds c offset, nextScan u n offset c) := by
        intro u c hu
        simp [scanLoop, hu, nextScan]
      rw [hloop t chunk hc, hloop t' chunk' hc', hperm.isEmpty_eq, hnext]
      split_ifs
      · exact scanLoop_congr h fuel _
      · exact ⟨hperm, rfl⟩

/-- The chunks are cut in the same way. -/
def SameShape (t t' : DataTable V) : Prop :=
  t.chunks.map (fun c => (c.start, c.count)) = t'.chunks.map fun c => (c.start, c.count)

theorem sameShape_modifyRow {row : ℕ} {f : RowSlot V → RowSlot V} :
    SameShape (t.modifyRow row f) t := by
  simp only [SameShape, modifyRow, map_map]
  refine map_congr_left fun c _ => ?_
  by_cases h : c.holds row <;>
    simp [h, modifyRow_start, modifyRow_count]

/-- Tables of the same shape whose rows read alike have chunks that read alike. -/
theorem SameShape.chunks_eq (hshape : SameShape t t')
    (hrows : t.rows.map (reading transaction) = t'.rows.map (reading transaction)) :
    t.chunks.map (chunkReading transaction) = t'.chunks.map (chunkReading transaction) := by
  have hrows_eq : ∀ u : DataTable V, u.rows.map (reading transaction) =
      (u.chunks.map fun c => c.rows.map (reading transaction)).flatten := by
    intro u
    rw [rows, map_flatMap, flatMap_def]
  have hcount : ∀ u : DataTable V,
      (u.chunks.map fun c => (c.start, c.count)).map Prod.snd =
        (u.chunks.map fun c => c.rows.map (reading transaction)).map length := by
    intro u
    simp [Function.comp_def, StorageChunk.count]
  have hflat : (t.chunks.map fun c => c.rows.map (reading transaction)) =
      t'.chunks.map fun c => c.rows.map (reading transaction) := by
    refine eq_iff_flatten_eq.2 ⟨?_, ?_⟩
    · rw [← hrows_eq, ← hrows_eq, hrows]
    · rw [← hcount, ← hcount, hshape]
  have hstart : t.chunks.map (·.start) = t'.chunks.map (·.start) := by
    simpa [Function.comp_def] using congrArg (map Prod.fst) hshape
  have hzip := congrArg₂ zip hstart hflat
  rw [zip_map', zip_map'] at hzip
  exact hzip

theorem scan_congr (hshape : SameShape t t')
    (hrows : t.rows.map (reading transaction) = t'.rows.map (reading transaction))
    (columnIds : List ColumnId) (structure_ : ScanStructure) :
    (scan transaction columnIds t structure_).1.Perm (scan transaction columnIds t' structure_).1 ∧
      (scan transaction columnIds t structure_).2 =
        (scan transaction columnIds t' structure_).2 := by
  have hfuel : t.rows.length + t.chunks.length + 1 = t'.rows.length + t'.chunks.length + 1 := by
    have h₁ : t.rows.length = t'.rows.length := by simpa using congrArg length hrows
    have h₂ : t.chunks.length = t'.chunks.length := by
      simpa [SameShape] using congrArg length hshape
    rw [h₁, h₂]
  rw [scan, scan, hfuel]
  exact scanLoop_congr (hshape.chunks_eq hrows) _ _

theorem readRow_eq_of_reading {slot' : RowSlot V}
    (h : reading transaction slot = reading transaction slot') :
    readRow transaction slot = readRow transaction slot' := by
  simp only [reading, Prod.mk.injEq] at h
  unfold readRow
  rw [h.1, h.2]

theorem fetch_congr (hrows : t.rows.map (reading transaction) = t'.rows.map (reading transaction))
    (columnIds : List ColumnId) (rowIdentifiers : List ℕ) :
    fetch transaction columnIds t rowIdentifiers =
      fetch transaction columnIds t' rowIdentifiers := by
  have hlen : t.rows.length = t'.rows.length := by simpa using congrArg length hrows
  have hread : ∀ row : ℕ, t.rows[row]?.bind (readRow transaction) =
      t'.rows[row]?.bind (readRow transaction) := by
    intro row
    have h := congrArg (fun l : List (List V × RowChoice V) => l[row]?) hrows
    simp only [getElem?_map] at h
    cases hslot : t.rows[row]? with
    | none =>
      have hslot' : t'.rows[row]? = none := by simpa [hslot] using h.symm
      rw [hslot']
    | some slot =>
      rw [hslot, Option.map_some] at h
      obtain ⟨slot', hslot', heq⟩ := Option.map_eq_some_iff.1 h.symm
      rw [hslot', Option.bind_some, Option.bind_some, readRow_eq_of_reading heq]
  simp only [fetch_eq, hlen, hread]

/-! ### Growing tables -/

/-- The columns stay, and chunks are never removed or cut. -/
structure Grows (t t' : DataTable V) : Prop where
  columnCount : t'.columnCount = t.columnCount
  chunks : ∀ (n : ℕ) c, t.chunks[n]? = some c → ∃ c', t'.chunks[n]? = some c' ∧ c.count ≤ c'.count

theorem Grows.refl (t : DataTable V) : Grows t t :=
  ⟨rfl, fun _ c hc => ⟨c, hc, le_rfl⟩⟩

theorem Grows.trans {t'' : DataTable V} (h : Grows t t') (h' : Grows t' t'') : Grows t t'' := by
  refine ⟨h'.columnCount.trans h.columnCount, fun n c hc => ?_⟩
  obtain ⟨c', hc', hle⟩ := h.chunks n c hc
  obtain ⟨c'', hc'', hle'⟩ := h'.chunks n c' hc'
  exact ⟨c'', hc'', hle.trans hle'⟩

/-- A scan can go on in a table that has grown. -/
theorem ValidScan.grows (h : ValidScan t structure_) (hgrows : Grows t t') :
    ValidScan t' structure_ := by
  intro n hn
  obtain ⟨c, hc, hle⟩ := h n hn
  obtain ⟨c', hc', hle'⟩ := hgrows.chunks n c hc
  exact ⟨c', hc', hle.trans hle'⟩

theorem grows_modifyRow (row : ℕ) (f : RowSlot V → RowSlot V) (t : DataTable V) :
    Grows t (t.modifyRow row f) := by
  refine ⟨rfl, fun n c hc => ?_⟩
  refine ⟨if c.holds row then c.modifyRow (row - c.start) f else c, ?_, ?_⟩
  · simp [modifyRow, hc]
  · split_ifs
    · exact (modifyRow_count).ge
    · exact le_rfl

theorem grows_extendTail (t : DataTable V) : Grows t (t.extendTail slots) := by
  refine ⟨rfl, fun n c hc => ?_⟩
  rw [← dropLast_append_getLast t.nonempty, getElem?_append] at hc
  simp only [extendTail, getElem?_append]
  split_ifs at hc ⊢ with hlt
  · exact ⟨c, hc, le_rfl⟩
  · obtain ⟨hzero, hlast⟩ := List.getElem?_eq_some_iff.1 hc
    have hn : n - t.chunks.dropLast.length = 0 := by simpa using hzero
    rw [hn] at hc ⊢
    obtain rfl : t.tailChunk = c := by simpa [tailChunk] using hc
    exact ⟨_, rfl, by simp [StorageChunk.count]⟩

theorem grows_addChunk : Grows t (t.addChunk slots) := by
  refine ⟨rfl, fun n c hc => ?_⟩
  refine ⟨c, ?_, le_rfl⟩
  rw [addChunk, getElem?_append_left (List.getElem?_eq_some_iff.1 hc).1, hc]

theorem grows_append (checks : TableChecks V C) (table : ℕ) (chunk : DataChunk V)
    (transaction : Transaction C) (t : DataTable V) :
    Grows t (append checks table chunk transaction t).2.1 := by
  unfold append
  split_ifs
  · exact Grows.refl t
  · exact Grows.refl t
  · split
    · exact Grows.refl t
    · split
      · exact Grows.refl t
      · dsimp only
        split_ifs
        · exact grows_extendTail t
        · exact (grows_extendTail t).trans (grows_addChunk)

/-- A preorder on tables that contains every change of a row. -/
structure RowPreorder (R : DataTable V → DataTable V → Prop) : Prop where
  refl : ∀ t, R t t
  trans : ∀ {t t' t''}, R t t' → R t' t'' → R t t''
  modifyRow : ∀ row f t, R t (t.modifyRow row f)

theorem rowPreorder_grows : RowPreorder (Grows (V := V)) :=
  ⟨Grows.refl, Grows.trans, grows_modifyRow⟩

namespace RowPreorder

variable {R : DataTable V → DataTable V → Prop}

theorem pushRows (hR : RowPreorder R) (flag : TupleFlag) (conflict : String)
    (after : RowSlot V → RowSlot V) (chunk : StorageChunk V) (table : ℕ) (ids : List ℕ)
    (transaction : Transaction C) (t : DataTable V) :
    R t (pushRows flag conflict after chunk table ids transaction t).2.1 := by
  induction ids generalizing transaction t with
  | nil => exact hR.refl t
  | cons id ids ih =>
    rw [DataTable.pushRows]
    split
    · exact hR.refl t
    · split_ifs
      · exact hR.refl t
      · exact hR.trans (hR.modifyRow _ _ _) (ih _ _)

theorem delete (hR : RowPreorder R) (table : ℕ) (rowIdentifiers : List ℕ)
    (transaction : Transaction C) (t : DataTable V) :
    R t (delete table rowIdentifiers transaction t).2.1 := by
  unfold DataTable.delete
  split
  · exact hR.refl t
  · split
    · exact hR.refl t
    · exact hR.pushRows _ _ _ _ _ _ _ _

theorem writeCells (hR : RowPreorder R) (cells : List (ℕ × ℕ × V)) (t : DataTable V) :
    R t (writeCells cells t) := by
  induction cells generalizing t with
  | nil => exact hR.refl t
  | cons cell cells ih => exact hR.trans (hR.modifyRow _ _ _) (ih _)

theorem update (hR : RowPreorder R) (checks : TableChecks V C) (table : ℕ)
    (updates : UpdateChunk V) (transaction : Transaction C) (t : DataTable V) :
    R t (update checks table updates transaction t).2.1 := by
  unfold DataTable.update
  split
  · exact hR.refl t
  · split
    · exact hR.refl t
    · split
      · exact hR.refl t
      · split
        · exact hR.refl t
        · dsimp only
          split
          · exact hR.pushRows _ _ _ _ _ _ _ _
          · exact hR.trans (hR.pushRows _ _ _ _ _ _ _ _) (hR.writeCells _ _)

end RowPreorder

end DataTable

end DuckDB
