import DuckDB.Storage.Equiv.UniqueIndex
import DuckDB.Storage.IndexLocks

/-!
# When an index check waits for its own lock

An append has the lock of the last chunk, which `AddEntry` never requests. An update that is not on
the last chunk waits for itself as soon as `AddEntry` looks at an entry whose row lies in the
updated chunk. The new keys of an update are distinct, so that the entries it looks at were all
there before it: they are the equal entries on the search paths of the new keys, up to the first
conflict.

## Main results

- `UniqueIndex.visitedByIndexes_update` — what an update looks at
- `KeyOperation.held_not_mem_requested_iff` — when the own lock is not requested
-/

namespace DuckDB

open Theory List

variable {V C : Type*} [LinearOrder V]

namespace UniqueIndex

variable {checks : List (ℕ × Except Exception Bool)}

/-! ### Checks in sequence -/

/-- The rows that are looked at if the checks have the given outcomes. -/
def untilConflict : List (ℕ × Except Exception Bool) → List ℕ
  | [] => []
  | (row, .ok false) :: rest => row :: untilConflict rest
  | (row, .ok true) :: _ => [row]
  | (row, .error _) :: _ => [row]

variable {rest : List (ℕ × Except Exception Bool)}

theorem mem_untilConflict_cons (row : ℕ) (outcome : Except Exception Bool)
    (rest : List (ℕ × Except Exception Bool)) : row ∈ untilConflict ((row, outcome) :: rest) := by
  match outcome with
  | .ok false | .ok true | .error _ => exact mem_cons_self

theorem untilConflict_append_of_passed (h : ∀ check ∈ checks, check.2 = .ok false) :
    untilConflict (checks ++ rest) = untilConflict checks ++ untilConflict rest := by
  induction checks with
  | nil => rfl
  | cons check checks ih =>
    obtain ⟨row, outcome⟩ := check
    obtain rfl : outcome = .ok false := h _ mem_cons_self
    rw [cons_append, untilConflict, untilConflict, cons_append,
      ih fun c hc => h c (mem_cons_of_mem _ hc)]

theorem untilConflict_append_of_failed (h : ¬∀ check ∈ checks, check.2 = .ok false) :
    untilConflict (checks ++ rest) = untilConflict checks := by
  induction checks with
  | nil => exact absurd (fun _ hmem => absurd hmem not_mem_nil) h
  | cons check checks ih =>
    match check with
    | (row, .ok false) =>
      rw [cons_append, untilConflict, untilConflict, ih]
      intro hall
      refine h fun c hc => ?_
      rcases mem_cons.mp hc with rfl | hc
      · rfl
      · exact hall c hc
    | (row, .ok true) => rfl
    | (row, .error e) => rfl

/-! ### One entry -/

/-- The entries with a key and the outcome of their checks. -/
def equalTo (conflict : ℕ → Except Exception Bool) (rows : List ℕ) :
    List (ℕ × Except Exception Bool) :=
  rows.map fun row => (row, conflict row)

theorem visited_eq {conflict : ℕ → Except Exception Bool} {tuple : List (Option V)}
    {nodes : SearchTree (List (Option V)) UniqueIndexNode} : visited conflict tuple nodes =
      untilConflict (equalTo conflict ((nodes.onPath tuple).map (·.rowIdentifier))) := by
  induction nodes with
  | leaf => rfl
  | node left entry node right ihl ihr =>
    rw [visited, SearchTree.onPath]
    by_cases heq : compare entry tuple = .eq
    · cases hc : conflict node.rowIdentifier with
      | error e => simp [heq, hc, equalTo, untilConflict]
      | ok b =>
        cases b with
        | true => simp [heq, hc, equalTo, untilConflict]
        | false =>
          by_cases hleft : SearchTree.goesLeft entry tuple <;> simp_all [equalTo, untilConflict]
    · by_cases hleft : SearchTree.goesLeft entry tuple <;> simp_all [equalTo]

/-! ### The entries of an update -/

section Update

variable {allocator : Allocator} {transaction : Transaction C} {ignored : List ℕ}
  {t : DataTable (Option V)} {index : UniqueIndex V} {entries : List (IndexEntry V)}

/-- The equal entries of an index that new entries meet on their search paths. -/
def equalEntries (transaction : Transaction C) (ignored : List ℕ) (t : DataTable (Option V))
    (index : UniqueIndex V) (entries : List (IndexEntry V)) : List (ℕ × Except Exception Bool) :=
  (entries.filter (!·.hasNull)).flatMap fun entry =>
    equalTo (conflicts transaction index.keys ignored t entry.tuple) (index.root.onPath entry.tuple)

variable {updates : UpdateChunk (Option V)} {underNull : ℕ → ℕ → V}

theorem mem_equalEntries {check : ℕ × Except Exception Bool} :
    check ∈ equalEntries transaction ignored t index entries ↔
      ∃ entry ∈ entries, entry.hasNull = false ∧ ∃ row ∈ index.root.onPath entry.tuple,
        (row, conflicts transaction index.keys ignored t entry.tuple row) = check := by
  simp only [equalEntries, mem_flatMap, mem_filter, Bool.not_eq_true', equalTo, mem_map, and_assoc]

theorem forall_mem_equalEntries :
    (∀ check ∈ equalEntries transaction ignored t index entries, check.2 = .ok false) ↔
      ∀ entry ∈ entries, entry.hasNull = false → ∀ row ∈ index.root.onPath entry.tuple,
        conflicts transaction index.keys ignored t entry.tuple row = .ok false := by
  constructor
  · intro h entry hentry hnull row hrow
    exact h (row, _) (mem_equalEntries.mpr ⟨entry, hentry, hnull, row, hrow, rfl⟩)
  · intro h check hcheck
    obtain ⟨entry, hentry, hnull, row, hrow, rfl⟩ := mem_equalEntries.mp hcheck
    exact h entry hentry hnull row hrow

theorem forall_mem_equalTo {conflict : ℕ → Except Exception Bool} {rows : List ℕ} :
    (∀ check ∈ equalTo conflict rows, check.2 = .ok false) ↔ ∀ row ∈ rows, conflict row = .ok false := by
  rw [equalTo, forall_mem_map]

variable (allocator transaction ignored t) in
/-- Entries with distinct keys only meet entries that were there before. -/
theorem visitedByEntries_eq (hnull : index.allowNulls = true ∨ ∀ e ∈ entries, e.hasNull = false)
    (hnodup : (entries.map (·.tuple)).Nodup) (added : AddedEntries V)
    (hadded : ∀ e ∈ entries, added.root.onPath e.tuple = index.root.onPath e.tuple) :
    visitedByEntries allocator transaction ignored t index entries added =
        untilConflict (equalEntries transaction ignored t index entries) ∧
      ((addEntries allocator transaction ignored t index entries added).2 = none ↔
        ∀ check ∈ equalEntries transaction ignored t index entries, check.2 = .ok false) := by
  induction entries generalizing added with
  | nil => exact ⟨rfl, iff_of_true rfl fun _ h => absurd h not_mem_nil⟩
  | cons entry entries ih =>
    obtain ⟨hnew, hnodup⟩ := nodup_cons.mp hnodup
    have hnull' : index.allowNulls = true ∨ ∀ e ∈ entries, e.hasNull = false :=
      hnull.imp_right fun h e he => h e (mem_cons_of_mem _ he)
    rw [visitedByEntries, addEntries]
    cases hentry : entry.hasNull with
    | true =>
      have hallow : index.allowNulls = true := hnull.resolve_right fun h => by
        rw [h entry mem_cons_self] at hentry
        cases hentry
      have hskip : equalEntries transaction ignored t index (entry :: entries) =
          equalEntries transaction ignored t index entries := by
        rw [equalEntries, filter_cons_of_neg (by simp [hentry]), equalEntries]
      simp only [hallow, if_true, hskip]
      exact ih hnull' hnodup added fun e he => hadded e (mem_cons_of_mem _ he)
    | false =>
      have hpath := hadded entry mem_cons_self
      have hcons : equalEntries transaction ignored t index (entry :: entries) =
          equalTo (conflicts transaction index.keys ignored t entry.tuple)
            (index.root.onPath entry.tuple) ++ equalEntries transaction ignored t index entries := by
        rw [equalEntries, filter_cons_of_pos (by simp [hentry]), flatMap_cons, equalEntries]
      have hvisited : visited (conflicts transaction index.keys ignored t entry.tuple) entry.tuple
          added.root.nodes = untilConflict (equalTo
            (conflicts transaction index.keys ignored t entry.tuple)
            (index.root.onPath entry.tuple)) := by
        rw [visited_eq, ← hpath]
        rfl
      simp only [Bool.false_eq_true, if_false, hcons, hvisited]
      by_cases hpassed : ∀ row ∈ added.root.onPath entry.tuple,
          conflicts transaction index.keys ignored t entry.tuple row = .ok false
      · have hadd : addEntry allocator (conflicts transaction index.keys ignored t entry.tuple)
            entry.tuple entry.rowIdentifier added = .ok (some
              ⟨added.root.place allocator entry.tuple entry.rowIdentifier,
                (added.root.newNode allocator entry.tuple entry.rowIdentifier).address ::
                  added.nodes⟩) := addEntry_eq_some_iff.mpr ⟨hpassed, rfl⟩
        rw [hpath] at hpassed
        have hplaced : ∀ e ∈ entries,
            (added.root.place allocator entry.tuple entry.rowIdentifier).onPath e.tuple =
              index.root.onPath e.tuple := by
          intro e he
          rw [IndexTree.onPath_place, if_neg, append_nil]
          · exact hadded e (mem_cons_of_mem _ he)
          · exact fun h => hnew (mem_map.mpr ⟨e, he, h.symm⟩)
        simp only [hadd]
        have hrest := ih hnull' hnodup ⟨added.root.place allocator entry.tuple entry.rowIdentifier,
            (added.root.newNode allocator entry.tuple entry.rowIdentifier).address :: added.nodes⟩
          hplaced
        rw [untilConflict_append_of_passed (forall_mem_equalTo.mpr hpassed),
          forall_mem_append, ← hrest.2]
        exact ⟨congrArg _ hrest.1, (and_iff_right (forall_mem_equalTo.mpr hpassed)).symm⟩
      · have hfailed : ¬∀ check ∈ equalTo (conflicts transaction index.keys ignored t entry.tuple)
            (index.root.onPath entry.tuple), check.2 = .ok false := by
          rwa [forall_mem_equalTo, ← hpath]
        rw [untilConflict_append_of_failed hfailed, forall_mem_append]
        cases hadd : addEntry allocator (conflicts transaction index.keys ignored t entry.tuple)
            entry.tuple entry.rowIdentifier added with
        | error e => exact ⟨append_nil _, iff_of_false (by simp) fun h => hfailed h.1⟩
        | ok result =>
          cases result with
          | none => exact ⟨append_nil _, iff_of_false (by simp) fun h => hfailed h.1⟩
          | some added' => exact absurd (addEntry_eq_some_iff.mp hadd).1 hpassed

/-- The equal entries that the new keys of all indexes meet. Nothing is looked at from the first
index on whose keys are refused as they are. -/
def equalEntriesOf (transaction : Transaction C) (ignored : List ℕ) (t : DataTable (Option V))
    (prepare : UniqueIndex V → Except Exception (List (IndexEntry V))) :
    List (UniqueIndex V) → List (ℕ × Except Exception Bool)
  | [] => []
  | index :: indexes =>
    match prepare index with
    | .error _ => []
    | .ok entries =>
      equalEntries transaction ignored t index entries ++
        equalEntriesOf transaction ignored t prepare indexes

theorem updateEntries_distinct (h : updateEntries underNull updates t index = .ok entries) :
    (index.allowNulls = true ∨ ∀ e ∈ entries, e.hasNull = false) ∧
      (entries.map (·.tuple)).Nodup := by
  rw [updateEntries] at h
  split at h
  · cases h
    exact ⟨.inr fun _ he => absurd he not_mem_nil, nodup_nil⟩
  · simp only at h
    split at h
    · cases h
    next hnull =>
      split at h
      next hnodup =>
        cases h
        refine ⟨?_, hnodup⟩
        rw [Bool.and_eq_true, not_and_or] at hnull
        rcases hnull with hallow | hany
        · exact .inl (by simpa using hallow)
        · refine .inr fun e he => ?_
          rw [any_eq_true] at hany
          exact Bool.eq_false_of_not_eq_true fun h => hany ⟨e, he, h⟩
      next => cases h

/-- **What an update looks at**: the equal entries that were there before, up to the first conflict.
-/
theorem visitedByIndexes_update {indexes : List (UniqueIndex V)} :
    visitedByIndexes allocator transaction ignored t (updateEntries underNull updates t) indexes =
      untilConflict
        (equalEntriesOf transaction ignored t (updateEntries underNull updates t) indexes) := by
  induction indexes with
  | nil => rfl
  | cons index indexes ih =>
    rw [visitedByIndexes, equalEntriesOf]
    cases hentries : updateEntries underNull updates t index with
    | error e => rfl
    | ok entries =>
      obtain ⟨hnull, hnodup⟩ := updateEntries_distinct hentries
      obtain ⟨hvisited, hok⟩ := visitedByEntries_eq allocator transaction ignored t hnull hnodup
        { root := index.root } fun _ _ => rfl
      simp only [hvisited]
      cases hresult : (addEntries allocator transaction ignored t index entries
          { root := index.root }).2 with
      | none =>
        rw [untilConflict_append_of_passed (hok.mp hresult)]
        exact congrArg _ ih
      | some e =>
        rw [untilConflict_append_of_failed fun h => by rw [hok.mpr h] at hresult; cases hresult]
        exact append_nil _

end Update

end UniqueIndex

/-! ### The own lock -/

omit [LinearOrder V] in
theorem DataTable.mem_sharedLocks {t : DataTable V} {rows : List ℕ} {chunk : ℕ} :
    chunk ∈ t.sharedLocks rows ↔
      chunk ≠ t.tailIndex ∧ ∃ row ∈ rows, t.chunkIndex row = some chunk := by
  rw [sharedLocks, mem_filter, mem_filterMap, decide_eq_true_iff, and_comm]

namespace KeyOperation

open UniqueIndex

/-- An update is on the last chunk, or none of the equal entries that its new keys meet up to the
first conflict belongs to a row of the updated chunk. An append has no condition. -/
def SparesHeld (underNull : ℕ → ℕ → V) (transaction : Transaction C) (t : DataTable (Option V))
    (indexes : List (UniqueIndex V)) : KeyOperation V → Prop
  | .append _ => True
  | .update updates =>
    ∀ chunk, (KeyOperation.update updates).held t = some chunk → chunk ≠ t.tailIndex →
      ∀ row ∈ untilConflict (equalEntriesOf transaction updates.rowIdentifiers t
          (updateEntries underNull updates t) indexes),
        t.chunkIndex row ≠ some chunk

/-- **No waiting for the own lock**: the chunk whose exclusive lock the operation has is not among
those that are locked during the index check exactly if the operation spares it. -/
theorem held_not_mem_requested_iff (allocator : Allocator) (underNull : ℕ → ℕ → V)
    (transaction : Transaction C) (t : DataTable (Option V)) (indexes : List (UniqueIndex V))
    (operation : KeyOperation V) :
    (∀ chunk, operation.held t = some chunk →
      chunk ∉ operation.requested allocator underNull transaction t indexes) ↔
    operation.SparesHeld underNull transaction t indexes := by
  cases operation with
  | append chunk =>
    refine iff_of_true (fun c hc => ?_) trivial
    rw [requested, DataTable.mem_sharedLocks]
    exact fun h => h.1 (Option.some.inj hc).symm
  | update updates =>
    refine forall₂_congr fun chunk _ => ?_
    rw [requested, DataTable.mem_sharedLocks, visitedByIndexes_update]
    simp only [not_and, not_exists, ne_eq]

/-- A row with one column. -/
def slotOf (value : Option ℕ) : RowSlot (Option ℕ) where
  columns := [value]
  deleted := false
  versionPointers := []

/-- A full chunk whose first row has the key 1 and whose other rows have the key NULL, and a second
chunk with one more such row. -/
def oneKey : DataTable (Option ℕ) where
  columnCount := 1
  cardinality := 10241
  chunks :=
    [⟨0, slotOf (some 1) :: List.replicate (storageChunkSize - 1) (slotOf none)⟩,
      ⟨storageChunkSize, [slotOf none]⟩]
  contiguous := by
    refine ⟨rfl, ?_, trivial⟩
    rw [StorageChunk.count, length_cons, length_replicate, storageChunkSize]
  nonempty := cons_ne_nil _ _

/-- The index on the column; a NULL has no entry. -/
def oneKeyIndex : UniqueIndex ℕ :=
  { keys := [0], allowNulls := true, root := IndexTree.empty.place .bump [some 1] 0 }

/-- When the first row gets its own key once more, the update has the lock of the first chunk and
waits for it. -/
theorem held_mem_requested_oneKey :
    let transaction : Transaction Unit := { startTime := 1, transactionId := transactionIdStart }
    let operation : KeyOperation ℕ := .update (.single 0 0 (some 1))
    operation.held oneKey = some 0 ∧
      0 ∈ operation.requested .bump (fun _ _ => 0) transaction oneKey [oneKeyIndex] := by
  intro transaction operation
  have hrow : oneKey.chunkIndex 0 = some 0 := by
    rw [DataTable.chunkIndex, oneKey, findIdx?_cons, if_pos]
    simp [StorageChunk.holds, StorageChunk.count]
  refine ⟨?_, DataTable.mem_sharedLocks.mpr ⟨Nat.zero_ne_one, 0, ?_, hrow⟩⟩
  · simp only [operation, held, UpdateChunk.single, head?_cons, Option.bind_some, hrow]
  rw [visitedByIndexes_update]
  -- the only entry of the index has the new key
  exact mem_untilConflict_cons 0 (conflicts transaction [0] [0] oneKey [some 1] 0) []

end KeyOperation

end DuckDB
