import DuckDB.Storage.Equiv.UniqueIndex
import DuckDB.Storage.IndexedTable

/-!
# The layout of appended rows

Rows are appended to the last storage chunk until it is full.

* `Filled.append`: every chunk but the last one is full, and stays so.
* `layout_appends`: after any sequence of `Append` calls the chunks lie one behind the other, each
  row number belongs to one chunk, and the next append stores its rows at, and hands them to the
  indexes with, the row numbers that follow.
-/

namespace DuckDB

open List UniqueIndex DataTable

variable {V W C : Type*}

/-! ### Storage chunks -/

namespace DataTable

variable {t : DataTable V}

/-- Every chunk but the last one is full. -/
structure Filled (t : DataTable V) : Prop where
  full : ∀ chunk ∈ t.chunks.dropLast, chunk.count = storageChunkSize
  tail : t.tailChunk.count ≤ storageChunkSize

variable {slots : List (RowSlot V)} {chunk : StorageChunk V}

theorem columns_pushDeletedEntries (table firstRow : ℕ) (tuples : List (List V))
    (transaction : Transaction C) :
    (pushDeletedEntries table firstRow tuples transaction).2.map (·.columns) = tuples := by
  induction tuples generalizing firstRow transaction with
  | nil => rfl
  | cons tuple tuples ih => exact congrArg (tuple :: ·) (ih _ _)

theorem length_pushDeletedEntries {table firstRow : ℕ} {tuples : List (List V)}
    {transaction : Transaction C} :
    (pushDeletedEntries table firstRow tuples transaction).2.length = tuples.length := by
  rw [← length_map (f := RowSlot.columns), columns_pushDeletedEntries]

theorem Filled.extendTail (h : t.Filled)
    (hfits : t.tailChunk.count + slots.length ≤ storageChunkSize) :
    (t.extendTail slots).Filled where
  full := by simpa [DataTable.extendTail] using h.full
  tail := by simpa [DataTable.extendTail, tailChunk, StorageChunk.count] using hfits

theorem Filled.addChunk (h : t.Filled) (hfull : t.tailChunk.count = storageChunkSize)
    (hfits : slots.length ≤ storageChunkSize) : (t.addChunk slots).Filled where
  full := by
    intro chunk hchunk
    have hmem : chunk ∈ t.chunks := by simpa [DataTable.addChunk] using hchunk
    rw [← dropLast_append_getLast t.nonempty, mem_append, mem_singleton] at hmem
    rcases hmem with hmem | rfl
    · exact h.full chunk hmem
    · exact hfull
  tail := by simpa [DataTable.addChunk, tailChunk, StorageChunk.count] using hfits

theorem tailChunk_extendTail :
    (t.extendTail slots).tailChunk.count = t.tailChunk.count + slots.length := by
  simp [extendTail, tailChunk, StorageChunk.count]

/-- **`Append`** starts a new chunk only when the last one is full. -/
theorem Filled.append (h : t.Filled) (checks : TableChecks V C) (table : ℕ) (chunk : DataChunk V)
    (transaction : Transaction C) : (t.append checks table chunk transaction).2.1.Filled := by
  unfold DataTable.append
  split_ifs
  · exact h
  · exact h
  · split
    · exact h
    · split
      · exact h
      · have htail := h.tail
        have hsize : chunk.rows.length ≤ storageChunkSize :=
          chunk.size_le.trans (by decide)
        dsimp only
        split_ifs with hall
        · refine h.extendTail ?_
          rw [length_pushDeletedEntries, length_take]
          omega
        · -- the first part fills the last chunk
          refine (h.extendTail ?_).addChunk ?_ ?_
          · rw [length_pushDeletedEntries, length_take]
            omega
          · rw [tailChunk_extendTail, length_pushDeletedEntries, length_take]
            omega
          · rw [length_pushDeletedEntries, length_drop]
            omega

theorem filled_empty (columnCount : ℕ) : (empty columnCount : DataTable V).Filled where
  full := by simp [empty]
  tail := Nat.zero_le _

/-- The layout of the chunks, in terms of their places in the list. -/
structure Layout (t : DataTable V) : Prop where
  full : ∀ (i : ℕ) (chunk : StorageChunk V), t.chunks[i]? = some chunk →
    i + 1 < t.chunks.length → chunk.count = storageChunkSize
  start : ∀ (i : ℕ) (chunk : StorageChunk V), t.chunks[i]? = some chunk →
    chunk.start = ((t.chunks.take i).map (·.count)).sum
  getChunk : ∀ row < t.rows.length, ∃! i : ℕ, ∃ chunk : StorageChunk V,
    t.chunks[i]? = some chunk ∧ chunk.holds row ∧ t.getChunk row = some chunk

theorem Filled.layout (h : t.Filled) : t.Layout where
  full i chunk hi hlast := by
    refine h.full chunk (mem_iff_getElem?.2 ⟨i, ?_⟩)
    rw [getElem?_dropLast, if_pos (by omega), hi]
  start i chunk hi := by
    rw [t.contiguous.start_eq hi, Nat.zero_add]
  getChunk row hrow := by
    obtain ⟨chunk, hchunk⟩ := exists_getChunk hrow
    have hholds := holds_of_getChunk hchunk
    obtain ⟨i, hi⟩ := mem_iff_getElem?.1 (mem_of_find?_eq_some hchunk)
    refine ⟨i, ⟨chunk, hi, hholds, hchunk⟩, ?_⟩
    rintro j ⟨other, hj, hother, -⟩
    have hin := StorageChunk.holds_iff.1 hholds
    have hin' := StorageChunk.holds_iff.1 hother
    rcases lt_trichotomy i j with hij | hij | hij
    · have := t.contiguous.end_le_start hi hj hij
      omega
    · exact hij.symm
    · have := t.contiguous.end_le_start hj hi hij
      omega

end DataTable

/-! ### Indexes -/

namespace IndexedTable

variable [LinearOrder V] [LE W] {chunk : DataChunk (Option V)} {s : IndexedTable V W}

/-- The rows of a chunk are stored at the end of the table, and every index has an entry for each of
them under the row number it is stored at (a unique index only if its key has no NULL). -/
structure Appended (s : IndexedTable V W) (chunk : DataChunk (Option V)) (s' : IndexedTable V W) :
    Prop where
  stored : ∀ (k : ℕ) (tuple : List (Option V)), chunk.rows[k]? = some tuple →
    ∃ slot, s'.table.row? (s.table.rows.length + k) = some slot ∧ slot.columns = tuple
  unique : List.Forall₂ (fun index index' => ∀ key, index'.root.onPath key =
      index.root.onPath key ++ ((chunk.rows.zipIdx s.table.rows.length).filter fun e =>
        decide (keyOf index.keys e.1 = key ∧ none ∉ key)).map (·.2))
    s.uniqueIndexes s'.uniqueIndexes
  order : List.Forall₂ (fun index index' => index'.data.Perm
      (index.data ++ (chunk.rows.zipIdx s.table.rows.length).map fun e =>
        ⟨index.expression e.1, e.2⟩))
    s.indexes s'.indexes

variable {transaction : Transaction C}

theorem rowsWithKey_appendEntries {start : ℕ} {index : UniqueIndex V}
    {entries : List (IndexEntry V)}
    (h : appendEntries chunk start index = .ok entries) {key : List (Option V)} :
    rowsWithKey entries key = ((chunk.rows.zipIdx start).filter fun e =>
      decide (keyOf index.keys e.1 = key ∧ none ∉ key)).map (·.2) := by
  unfold appendEntries at h
  dsimp only at h
  split_ifs at h
  obtain rfl := Except.ok.inj h
  rw [rowsWithKey, filter_map, map_map]
  have hfilter : ∀ e : List (Option V) × ℕ,
      ((fun e : IndexEntry V => !e.hasNull && decide (e.tuple = key)) ∘
        fun e => appendEntry index e.1 e.2) e =
      decide (keyOf index.keys e.1 = key ∧ none ∉ key) := by
    intro e
    by_cases hkey : keyOf index.keys e.1 = key <;>
      simp [appendEntry, hkey]
  rw [funext hfilter]
  rfl

variable {context : AppendContext V W}

theorem table_append : (s.append context chunk transaction).2.1.table =
      (s.table.append (s.checks context) context.number chunk transaction).2.1 := by
  rw [append]
  split_ifs <;> rfl

theorem error_append : (s.append context chunk transaction).2.2 =
      (s.table.append (s.checks context) context.number chunk transaction).2.2 := by
  rw [append]
  split_ifs <;> rfl

theorem filled_appends (calls : List (DataChunk (Option V) × Transaction C)) (h : s.table.Filled) :
    (s.appends context calls).table.Filled := by
  induction calls generalizing s with
  | nil => exact h
  | cons call calls ih =>
    refine ih ?_
    rw [table_append]
    exact h.append ..

/-- An append that succeeds has passed the checks of the unique indexes, unless it has no rows. -/
theorem append_eq_none (h : (s.append context chunk transaction).2.2 = none) :
    chunk.rows = [] ∧ s.reachesIndexes context chunk = false ∨
      s.reachesIndexes context chunk = true ∧
        (UniqueIndex.append context.allocator transaction s.table chunk s.uniqueIndexes).2 =
          none := by
  rw [error_append, append_eq_none_iff, appendedRows] at h
  by_cases hnil : chunk.rows = []
  · exact .inl ⟨hnil, by simp [reachesIndexes, hnil]⟩
  · rw [ite_eq_right_iff] at h
    have hpassed := mt h (Ne.symm hnil)
    simp only [checks, Bool.or_eq_true, not_or, Bool.not_eq_true] at hpassed
    obtain ⟨⟨hcount, hverify⟩, hunique⟩ := hpassed
    refine .inr ⟨?_, by simpa using hunique⟩
    simpa [reachesIndexes, hcount, hnil] using hverify

/-- **The next append** continues the row numbers. -/
theorem appended_append (h : (s.append context chunk transaction).2.2 = none) :
    s.Appended chunk (s.append context chunk transaction).2.1 where
  stored k tuple hk := by
    have hrows : (s.append context chunk transaction).2.1.table.rows = s.table.rows ++
        (pushDeletedEntries context.number s.table.rows.length chunk.rows
          transaction).2 := by
      rw [error_append] at h
      rw [table_append, (append_spec _ _ _ _ _).2,
        (append_eq_none_iff _ _ _ _ _).1 h]
    rw [row?_eq, hrows, getElem?_append_right (Nat.le_add_right _ _),
      Nat.add_sub_cancel_left]
    rw [← columns_pushDeletedEntries context.number s.table.rows.length chunk.rows
      transaction, getElem?_map, Option.map_eq_some_iff] at hk
    exact hk
  unique := by
    rcases append_eq_none h with ⟨hnil, hreach⟩ | ⟨hreach, hunique⟩
    · rw [append, hreach]
      simp [hnil, forall₂_same]
    · rw [append, if_pos hreach]
      refine (addToIndexes_accepted hunique).imp fun index index' => ?_
      rintro ⟨entries, root, hentries, rfl, haccepted⟩ key
      rw [s.table.tailChunk_end] at hentries
      rw [haccepted.onPath, rowsWithKey_appendEntries hentries]
  order := by
    rcases append_eq_none h with ⟨hnil, hreach⟩ | ⟨hreach, hunique⟩
    · rw [append, hreach]
      simp [hnil, forall₂_same]
    · rw [append, if_pos hreach]
      simp only [hunique, Option.isSome_none, Bool.false_eq_true, if_false]
      rw [forall₂_map_right_iff, forall₂_same, s.table.tailChunk_end]
      intro index _
      exact context.sorting.perm _

/-- **Append geometry**: after any sequence of `Append` calls, every storage chunk but the last one
is full, the chunks start one where the other ends, and every row number below the total is found in
one chunk; and the rows of a further append get the row numbers from the total on, in the chunks and
in all indexes. -/
theorem layout_appends (context : AppendContext V W) (columnCount : ℕ)
    (constraints : List (List ℕ × Bool)) (expressions : List (List (Option V) → W))
    (calls : List (DataChunk (Option V) × Transaction C)) :
    let s := (initial columnCount constraints expressions).appends context calls
    s.table.Layout ∧ ∀ (chunk : DataChunk (Option V)) (transaction : Transaction C),
      (s.append context chunk transaction).2.2 = none →
        s.Appended chunk (s.append context chunk transaction).2.1 :=
  ⟨(filled_appends calls (filled_empty columnCount)).layout, fun _ _ => appended_append⟩

/-- No constraints but those of the unique indexes. -/
def unverified : AppendContext ℕ ℕ where
  number := 0
  verify _ _ := none
  allocator := .bump
  sorting := .merge ℕ

/-- A second row after a first one, in a table with a primary key and an index on the second
column. -/
theorem layout_appends_secondRow :
    let transaction : Transaction Unit := { startTime := 1, transactionId := transactionIdStart }
    let s := (initial 2 [([0], false)] [fun row => (row[1]?.join).getD 0]).appends
      unverified [(.single [some 1, some 10], transaction)]
    s.Appended (.single [some 2, some 5])
      (s.append unverified (.single [some 2, some 5]) transaction).2.1 :=
  (layout_appends unverified 2 [([0], false)] [fun row => (row[1]?.join).getD 0]
    [(.single [some 1, some 10], _)]).2 _ _ (by decide)

end IndexedTable

end DuckDB
