import DuckDB.Storage.Equiv.IndexLocks

/-!
# Keys with a NULL

A UNIQUE index should not hold a NULL against anyone: whatever the check of an operation refuses
should also be refused without the rows whose new key has a NULL. This is so for an append, which
skips these rows. An update looks for duplicates among all of its tuples, with the bytes under a
NULL as if they were values, and takes a row whose key has a NULL in a column that is not updated
for a row without NULL.

## Main results

- `KeyOperation.nullsHarmless_iff` — when rows with a NULL do no harm
-/

namespace DuckDB

open Theory List

variable {V C : Type*} [LinearOrder V]

namespace KeyOperation

open UniqueIndex

omit [LinearOrder V] in
/-- The key that the row `rowIdentifiers[k]` has after an update. -/
def updatedKey (updates : UpdateChunk (Option V)) (t : DataTable (Option V)) (index : UniqueIndex V)
    (row k : ℕ) : List (Option V) :=
  index.keys.map fun column =>
    match updates.columnIds.idxOf? column with
    | none => (t.row? row).bind fun slot => slot.columns[column]?.join
    | some j => updates.value j k

/-- The entries that an operation has for an index, each with the new key of its row. -/
def newEntries (underNull : ℕ → ℕ → V) (t : DataTable (Option V)) (index : UniqueIndex V) :
    KeyOperation V → List (IndexEntry V × List (Option V))
  | .append chunk =>
    (chunk.rows.zipIdx (t.tailChunk.start + t.tailChunk.count)).map fun e =>
      (appendEntry index e.1 e.2, keyOf index.keys e.1)
  | .update updates =>
    if (affectedColumns updates.columnIds index).all (·.isNone) then []
    else updates.rowIdentifiers.zipIdx.map fun e =>
      (updateEntry underNull updates t index e.1 e.2, updatedKey updates t index e.1 e.2)

/-- The check of an operation on one index, for the given entries. -/
def check (allocator : Allocator) (transaction : Transaction C) (t : DataTable (Option V))
    (index : UniqueIndex V) (entries : List (IndexEntry V)) : KeyOperation V → Option Exception
  | .append _ => (addEntries allocator transaction [] t index entries { root := index.root }).2
  | .update updates =>
    if (entries.map (·.tuple)).Nodup then
      (addEntries allocator transaction updates.rowIdentifiers t index entries
        { root := index.root }).2
    else some duplicateKey

section Check

variable (allocator : Allocator) (underNull : ℕ → ℕ → V) (transaction : Transaction C)
  (t : DataTable (Option V)) (keys : List ℕ) (root : IndexTree V)

theorem addToIndexes_singleton (ignored : List ℕ)
    (prepare : UniqueIndex V → Except Exception (List (IndexEntry V))) (index : UniqueIndex V) :
    (addToIndexes allocator transaction ignored t prepare [index]).2 =
      match prepare index with
      | .error e => some e
      | .ok entries =>
        (addEntries allocator transaction ignored t index entries { root := index.root }).2 := by
  rw [addToIndexes]
  cases prepare index with
  | error e => rfl
  | ok entries =>
    dsimp only
    cases (addEntries allocator transaction ignored t index entries { root := index.root }).2 <;> rfl

/-- The check of an append is the one that `UniqueIndex::Append` makes. -/
theorem append_eq_check (chunk : DataChunk (Option V)) :
    (UniqueIndex.append allocator transaction t chunk [⟨keys, true, root⟩]).2 =
      (KeyOperation.append chunk).check allocator transaction t ⟨keys, true, root⟩
        (((KeyOperation.append chunk).newEntries underNull t ⟨keys, true, root⟩).map (·.1)) := by
  rw [UniqueIndex.append, addToIndexes_singleton]
  simp only [appendEntries, check, newEntries, map_map, Function.comp_def, Bool.not_true,
    Bool.false_and, Bool.false_eq_true, if_false]

/-- The check of an update is the one that `UniqueIndex::Update` makes. -/
theorem update_eq_check (updates : UpdateChunk (Option V)) :
    (UniqueIndex.update allocator underNull transaction t updates [⟨keys, true, root⟩]).2 =
      (KeyOperation.update updates).check allocator transaction t ⟨keys, true, root⟩
        (((KeyOperation.update updates).newEntries underNull t ⟨keys, true, root⟩).map (·.1)) := by
  rw [UniqueIndex.update, addToIndexes_singleton, updateEntries, check, newEntries]
  by_cases hnone :
      (affectedColumns updates.columnIds ⟨keys, true, root⟩).all (·.isNone) = true
  · rw [if_pos hnone, if_pos hnone]
    exact (if_pos nodup_nil).symm
  · rw [if_neg hnone, if_neg hnone]
    simp only [map_map, Function.comp_def, Bool.not_true, Bool.false_and, Bool.false_eq_true,
      if_false]
    split_ifs <;> rfl

end Check

/-! ### Rows without NULL -/

omit [LinearOrder V] in
theorem all_isSome_iff {key : List (Option V)} : key.all (·.isSome) = true ↔ none ∉ key := by
  rw [all_eq_true]
  constructor
  · intro h hnone
    exact Bool.false_ne_true (h none hnone)
  · intro h value hvalue
    exact Option.isSome_iff_ne_none.mpr fun hnone => h (hnone ▸ hvalue)

omit [LinearOrder V] in
/-- The entries of the rows whose new key has no NULL. -/
def withoutNulls (entries : List (IndexEntry V × List (Option V))) : List (IndexEntry V) :=
  (entries.filter (·.2.all (·.isSome))).map (·.1)

/-- If the check fails, then it also fails without the rows whose new key has a NULL. -/
def NullsHarmless (allocator : Allocator) (underNull : ℕ → ℕ → V) (transaction : Transaction C)
    (t : DataTable (Option V)) (index : UniqueIndex V) (operation : KeyOperation V) : Prop :=
  operation.check allocator transaction t index
      ((operation.newEntries underNull t index).map (·.1)) ≠ none →
    operation.check allocator transaction t index
      (withoutNulls (operation.newEntries underNull t index)) ≠ none

/-- The entries have different tuples and none of them conflicts with an entry of the index. -/
def Acceptable (transaction : Transaction C) (ignored : List ℕ) (t : DataTable (Option V))
    (index : UniqueIndex V) (entries : List (IndexEntry V)) : Prop :=
  (entries.map (·.tuple)).Nodup ∧
    ∀ entry ∈ entries, entry.hasNull = false → ∀ row ∈ index.root.onPath entry.tuple,
      conflicts transaction index.keys ignored t entry.tuple row = .ok false

theorem check_update_eq_none_iff {allocator : Allocator} {transaction : Transaction C}
    {t : DataTable (Option V)} {keys : List ℕ} {root : IndexTree V}
    {updates : UpdateChunk (Option V)} {entries : List (IndexEntry V)} :
    (KeyOperation.update updates).check allocator transaction t ⟨keys, true, root⟩ entries = none ↔
      Acceptable transaction updates.rowIdentifiers t ⟨keys, true, root⟩ entries := by
  rw [check, Acceptable]
  split
  next hnodup =>
    rw [(visitedByEntries_eq allocator transaction updates.rowIdentifiers t (.inl rfl) hnodup
      { root := root } fun _ _ => rfl).2, and_iff_right hnodup]
    exact forall_mem_equalEntries
  next hnodup => exact iff_of_false (by simp) fun h => hnodup h.1

/-- An append does not look at rows with a NULL. -/
theorem addEntries_filter (allocator : Allocator) (transaction : Transaction C) (ignored : List ℕ)
    (t : DataTable (Option V)) (keys : List ℕ) (root : IndexTree V) (entries : List (IndexEntry V))
    (added : AddedEntries V) :
    addEntries allocator transaction ignored t ⟨keys, true, root⟩ (entries.filter (!·.hasNull)) added =
      addEntries allocator transaction ignored t ⟨keys, true, root⟩ entries added := by
  induction entries generalizing added with
  | nil => rfl
  | cons entry entries ih =>
    cases hnull : entry.hasNull with
    | true =>
      rw [filter_cons_of_neg (by simp [hnull]), ih]
      conv_rhs => rw [addEntries, if_pos hnull, if_pos rfl]
    | false =>
      rw [filter_cons_of_pos (by simp [hnull]), addEntries, addEntries]
      simp only [hnull, Bool.false_eq_true, if_false]
      split
      · rfl
      · rfl
      · exact ih _

/-- What an operation must be like for its rows with a NULL to do no harm. An append has no
condition. For an update, the rows without NULL are refused themselves; or the tuples are all
different, with whatever stands under a NULL, and the rows that only have a NULL in a column that is
not updated do not conflict with an entry of the index. -/
def NullsApart (underNull : ℕ → ℕ → V) (transaction : Transaction C) (t : DataTable (Option V))
    (index : UniqueIndex V) : KeyOperation V → Prop
  | .append _ => True
  | .update updates =>
    let entries := (KeyOperation.update updates).newEntries underNull t index
    ¬Acceptable transaction updates.rowIdentifiers t index (withoutNulls entries) ∨
    ((entries.map (·.1)).map (·.tuple)).Nodup ∧
      ∀ entry ∈ entries, none ∈ entry.2 → entry.1.hasNull = false →
        ∀ row ∈ index.root.onPath entry.1.tuple,
          conflicts transaction index.keys updates.rowIdentifiers t entry.1.tuple row = .ok false

/-- **Keys with a NULL**: the rows of an operation whose new key for a UNIQUE index has a NULL do
not make its check fail exactly if they are apart from each other and from the entries of the index.
-/
theorem nullsHarmless_iff (allocator : Allocator) (underNull : ℕ → ℕ → V)
    (transaction : Transaction C) (t : DataTable (Option V)) (keys : List ℕ) (root : IndexTree V)
    (operation : KeyOperation V) :
    operation.NullsHarmless allocator underNull transaction t ⟨keys, true, root⟩ ↔
      operation.NullsApart underNull transaction t ⟨keys, true, root⟩ := by
  cases operation with
  | append chunk =>
    refine iff_of_true (fun h => ?_) trivial
    rw [check, ← addEntries_filter] at h ⊢
    have hentries : (withoutNulls ((KeyOperation.append chunk).newEntries underNull t
          ⟨keys, true, root⟩)).filter (!·.hasNull) =
        (((KeyOperation.append chunk).newEntries underNull t ⟨keys, true, root⟩).map (·.1)).filter
          (!·.hasNull) := by
      simp only [withoutNulls, newEntries, filter_map, filter_filter, appendEntry,
        map_map, Function.comp_def]
      refine congrArg _ (filter_congr fun e _ => ?_)
      rw [Bool.eq_iff_iff, Bool.and_eq_true, all_isSome_iff]
      simp
    rwa [hentries]
  | update updates =>
    rw [NullsHarmless, Ne, Ne, check_update_eq_none_iff, check_update_eq_none_iff, NullsApart]
    generalize (KeyOperation.update updates).newEntries underNull t ⟨keys, true, root⟩ = entries
    by_cases hwithout : Acceptable transaction updates.rowIdentifiers t ⟨keys, true, root⟩
        (withoutNulls entries)
    · rw [not_imp_not, or_iff_right (not_not_intro hwithout)]
      refine (forall_prop_of_true hwithout).trans (and_congr_right fun _ => ?_)
      rw [forall_mem_map]
      refine forall₂_congr fun entry hentry => ⟨fun h _ => h, fun h => ?_⟩
      by_cases hnull : none ∈ entry.2
      · exact h hnull
      · refine hwithout.2 entry.1 (mem_map_of_mem (mem_filter.mpr ⟨hentry, ?_⟩))
        exact all_isSome_iff.mpr hnull
    · exact iff_of_true (fun _ => hwithout) (.inl hwithout)

/-- The rows `(1, NULL)` and `(2, NULL)`. -/
def twoNulls : DataTable (Option ℕ) where
  columnCount := 2
  cardinality := 2
  chunks := [⟨0, [⟨[some 1, none], false, []⟩, ⟨[some 2, none], false, []⟩]⟩]
  contiguous := ⟨rfl, trivial⟩
  nonempty := List.cons_ne_nil _ _

/-- Both rows get the value 5 in the first column. -/
def setFive : UpdateChunk (Option ℕ) where
  rowIdentifiers := [0, 1]
  columnIds := [0]
  data := [[some 5, some 5]]
  data_length := rfl
  vector_length := by decide

/-- The update is refused by a UNIQUE index on both columns, although both new keys have a NULL. -/
theorem not_nullsHarmless_twoNulls :
    let transaction : Transaction Unit := { startTime := 1, transactionId := transactionIdStart }
    (UniqueIndex.update .bump (fun _ _ => 0) transaction twoNulls setFive
        [⟨[0, 1], true, .empty⟩]).2 = some duplicateKey ∧
      ¬(KeyOperation.update setFive).NullsHarmless .bump (fun _ _ => 0) transaction twoNulls
        ⟨[0, 1], true, .empty⟩ :=
  ⟨rfl, fun h => h (by decide) rfl⟩

end KeyOperation

end DuckDB
