import DuckDB.Storage.Equiv.DataTable
import DuckDB.Storage.UniqueIndex

/-!
# What a unique index accepts

* `addToIndexes_error`: when a chunk is refused, all indexes are as they were before.
* `addToIndexes_accepted`: when it is accepted, every index has the new entries, and no new entry
  conflicts with an entry of the same key that was there before it.
* `keyOf_update`: the key of an updated row, if it has no NULL, is the tuple of `SerializeUpdate`,
  provided that the update names each key column once.
-/

namespace DuckDB

open Theory List SearchTree

variable {V C : Type*} [LinearOrder V]

namespace IndexTree

/-! ### Nodes -/

theorem onPath_place (allocator : Allocator) (tuple : List (Option V)) (row : ℕ)
    (tree : IndexTree V) (key : List (Option V)) : (tree.place allocator tuple row).onPath key =
      tree.onPath key ++ if tuple = key then [row] else [] := by
  rw [onPath, place, SearchTree.onPath_place, map_append]
  split_ifs <;> rfl

/-- The node that was placed last can be removed: it has no children, and its parent pointer leads
to the node it hangs from. -/
theorem removeEntry_place {allocator : Allocator} {tuple : List (Option V)} {row : ℕ}
    {tree : IndexTree V} :
    (tree.place allocator tuple row).removeEntry (tree.newNode allocator tuple row).address =
      tree := by
  have hfresh : ∀ node ∈ tree.nodes.values,
      node.address ≠ (tree.newNode allocator tuple row).address := fun node hnode heq =>
    allocator.fresh tree.addresses (mem_map.2 ⟨node, hnode, heq⟩)
  have hnodes : removeNode (tree.newNode allocator tuple row).address
      (tree.nodes.place tuple (tree.newNode allocator tuple row)) = tree.nodes := by
    rw [removeNode, subtree?_place hfresh]
    cases hlast : tree.nodes.lastOnPath tuple none with
    | none =>
      -- the tree was empty and the node is its root
      have hparent : (tree.newNode allocator tuple row).parent = none := by simp [newNode, hlast]
      simp only [hparent]
      exact (lastOnPath_eq_none_iff.1 hlast).2.symm
    | some parent =>
      have hparent : (tree.newNode allocator tuple row).parent = some parent.address := by
        simp [newNode, hlast]
      simp only [hparent]
      exact resetChild_place tree.distinct hfresh hlast
  cases tree
  simpa [removeEntry, place] using hnodes

end IndexTree

namespace UniqueIndex

variable {row k : ℕ} {updates : UpdateChunk (Option V)} {conflict : ℕ → Except Exception Bool}
  {tuple : List (Option V)}

/-! ### Adding entries -/

variable {added added' : AddedEntries V} {allocator : Allocator} {slot : RowSlot (Option V)}
  {column : ℕ} {columns : List (Option V)}

theorem traverse_eq_false_iff {t : SearchTree (List (Option V)) UniqueIndexNode} :
    traverse conflict tuple t = .ok false ↔
      ∀ node ∈ t.onPath tuple, conflict node.rowIdentifier = .ok false := by
  induction t with
  | leaf => simp [traverse, onPath]
  | node left entry node right ihl ihr =>
    by_cases heq : compare entry tuple = .eq
    · cases hc : conflict node.rowIdentifier with
      | error e => simp [traverse, onPath, heq, hc]
      | ok b =>
        cases b with
        | true => simp [traverse, onPath, heq, hc]
        | false =>
          by_cases hleft : goesLeft entry tuple <;>
            simp [traverse, onPath, heq, hc, hleft, ihl, ihr]
    · by_cases hleft : goesLeft entry tuple <;>
        simp [traverse, onPath, heq, hleft, ihl, ihr]

theorem addEntry_eq_some_iff : addEntry allocator conflict tuple row added = .ok (some added') ↔
      (∀ r ∈ added.root.onPath tuple, conflict r = .ok false) ∧
        added' = ⟨added.root.place allocator tuple row,
          (added.root.newNode allocator tuple row).address :: added.nodes⟩ := by
  rw [IndexTree.onPath, forall_mem_map, ← traverse_eq_false_iff, addEntry]
  cases traverse conflict tuple added.root.nodes with
  | error e => simp
  | ok b => cases b <;> simp [eq_comm]

theorem removeAll_addEntry (h : addEntry allocator conflict tuple row added = .ok (some added')) :
    added'.removeAll = added.removeAll := by
  rw [(addEntry_eq_some_iff.1 h).2, AddedEntries.removeAll, foldl_cons,
    IndexTree.removeEntry_place, AddedEntries.removeAll]

section AddEntries

variable {allocator : Allocator} {transaction : Transaction C} {ignored : List ℕ}
  {t : DataTable (Option V)} {index : UniqueIndex V}

variable (allocator transaction ignored t index) in
theorem removeAll_addEntries (entries : List (IndexEntry V)) (added : AddedEntries V) :
    (addEntries allocator transaction ignored t index entries added).1.removeAll = added.removeAll := by
  induction entries generalizing added with
  | nil => rfl
  | cons entry entries ih =>
    rw [addEntries]
    split_ifs
    · exact ih added
    · rfl
    · split
      · rfl
      · rfl
      · next added' h => exact (ih added').trans (removeAll_addEntry h)

/-- The entries that go into the tree under a key. -/
def rowsWithKey (entries : List (IndexEntry V)) (key : List (Option V)) : List ℕ :=
  (entries.filter fun e => !e.hasNull && decide (e.tuple = key)).map (·.rowIdentifier)

/-- The entries were added, and none of them conflicts with an older entry. -/
structure Accepted (transaction : Transaction C) (ignored : List ℕ) (t : DataTable (Option V))
    (index : UniqueIndex V) (entries : List (IndexEntry V))
    (before after : IndexTree V) : Prop where
  onPath : ∀ key, after.onPath key = before.onPath key ++ rowsWithKey entries key
  existing : ∀ entry ∈ entries, entry.hasNull = false → ∀ row ∈ before.onPath entry.tuple,
    conflicts transaction index.keys ignored t entry.tuple row = .ok false
  earlier : entries.Pairwise fun e e' => e.hasNull = false → e'.hasNull = false →
    e.tuple = e'.tuple →
      conflicts transaction index.keys ignored t e'.tuple e.rowIdentifier = .ok false

theorem addEntries_accepted {entries : List (IndexEntry V)}
    (h : (addEntries allocator transaction ignored t index entries added).2 = none) :
    Accepted transaction ignored t index entries added.root
      (addEntries allocator transaction ignored t index entries added).1.root := by
  induction entries generalizing added with
  | nil => exact ⟨fun key => by simp [addEntries, rowsWithKey], by simp, .nil⟩
  | cons entry entries ih =>
    rw [addEntries] at h ⊢
    split_ifs at h ⊢ with hnull hallow
    · -- an entry with a NULL is skipped
      have hrest := ih h
      refine ⟨fun key => ?_, fun e he hne => ?_, pairwise_cons.2 ⟨?_, hrest.earlier⟩⟩
      · rw [hrest.onPath key]
        simp [rowsWithKey, hnull]
      · rcases mem_cons.1 he with rfl | he
        · simp [hnull] at hne
        · exact hrest.existing e he hne
      · intro e' _ hne
        simp [hnull] at hne
    · cases hadd : addEntry allocator (conflicts transaction index.keys ignored t entry.tuple) entry.tuple
          entry.rowIdentifier added with
      | error e => simp [hadd] at h
      | ok result =>
        cases result with
        | none => simp [hadd] at h
        | some added' =>
          simp only [hadd] at h ⊢
          obtain ⟨hfree, rfl⟩ := addEntry_eq_some_iff.1 hadd
          have hrest := ih h
          have hplaced : ∀ key,
              (added.root.place allocator entry.tuple entry.rowIdentifier).onPath key =
                added.root.onPath key ++
                  if entry.tuple = key then [entry.rowIdentifier] else [] :=
            fun key => IndexTree.onPath_place ..
          refine ⟨fun key => ?_, fun e he hne row hrow => ?_,
            pairwise_cons.2 ⟨fun e' he' _ hne' heq => ?_, hrest.earlier⟩⟩
          · rw [hrest.onPath key, hplaced, append_assoc]
            by_cases hkey : entry.tuple = key <;> simp [rowsWithKey, hnull, hkey]
          · rcases mem_cons.1 he with rfl | he
            · exact hfree row hrow
            · exact hrest.existing e he hne row (hplaced e.tuple ▸ mem_append_left _ hrow)
          · refine hrest.existing e' he' hne' _ ?_
            rw [hplaced, if_pos heq]
            simp

end AddEntries

section AddToIndexes

variable {allocator : Allocator} {transaction : Transaction C} {ignored : List ℕ}
  {t : DataTable (Option V)} {prepare : UniqueIndex V → Except Exception (List (IndexEntry V))}
  {indexes : List (UniqueIndex V)}

/-- **A refused chunk** leaves the indexes as they were. -/
theorem addToIndexes_error {e : Exception}
    (h : (addToIndexes allocator transaction ignored t prepare indexes).2 = some e) :
    (addToIndexes allocator transaction ignored t prepare indexes).1 = indexes := by
  induction indexes generalizing e with
  | nil => simp [addToIndexes] at h
  | cons index indexes ih =>
    rw [addToIndexes] at h ⊢
    cases hprepare : prepare index with
    | error e' => rfl
    | ok entries =>
      have hremove := removeAll_addEntries allocator transaction ignored t index entries
        { root := index.root }
      have hindex : { index with root := (addEntries allocator transaction ignored t index entries
          { root := index.root }).1.removeAll } = index := by
        rw [hremove]
        rfl
      simp only [hprepare] at h ⊢
      cases hadded : (addEntries allocator transaction ignored t index entries { root := index.root }).2 with
      | some e' => simp only [hindex]
      | none =>
        simp only [hadded] at h ⊢
        cases hrest : (addToIndexes allocator transaction ignored t prepare indexes).2 with
        | some e' => simp only [hindex, ih hrest]
        | none => simp [hrest] at h

/-- **An accepted chunk** leaves its entries in every index. -/
theorem addToIndexes_accepted
    (h : (addToIndexes allocator transaction ignored t prepare indexes).2 = none) :
    List.Forall₂ (fun index index' => ∃ entries root, prepare index = .ok entries ∧
        index' = { index with root := root } ∧
          Accepted transaction ignored t index entries index.root root)
      indexes (addToIndexes allocator transaction ignored t prepare indexes).1 := by
  induction indexes with
  | nil => exact .nil
  | cons index indexes ih =>
    rw [addToIndexes] at h ⊢
    cases hprepare : prepare index with
    | error e => simp [hprepare] at h
    | ok entries =>
      simp only [hprepare] at h ⊢
      cases hadded : (addEntries allocator transaction ignored t index entries { root := index.root }).2 with
      | some e => simp [hadded] at h
      | none =>
        simp only [hadded] at h ⊢
        cases hrest : (addToIndexes allocator transaction ignored t prepare indexes).2 with
        | some e => simp [hrest] at h
        | none =>
          exact .cons ⟨entries, _, hprepare, rfl, addEntries_accepted hadded⟩ (ih hrest)

theorem exists_accepted
    (h : (addToIndexes allocator transaction ignored t prepare indexes).2 = none)
    {index' : UniqueIndex V}
    (hindex' : index' ∈ (addToIndexes allocator transaction ignored t prepare indexes).1) :
    ∃ index ∈ indexes, ∃ entries root, prepare index = .ok entries ∧
      index' = { index with root := root } ∧
        Accepted transaction ignored t index entries index.root root := by
  have hall := addToIndexes_accepted h
  obtain ⟨n, hn, rfl⟩ := mem_iff_getElem.1 hindex'
  have hn' : n < indexes.length := hall.length_eq ▸ hn
  exact ⟨indexes[n], getElem_mem hn', hall.get hn' hn⟩

end AddToIndexes

/-- **Rollback of the indexes**: when `Append` or `Update` throws, every index has the nodes that it
had before, at the same addresses and with the same parents and children. -/
theorem restored_of_error (allocator : Allocator) (transaction : Transaction C)
    (t : DataTable (Option V)) (indexes : List (UniqueIndex V)) :
    (∀ chunk e, (append allocator transaction t chunk indexes).2 = some e →
      (append allocator transaction t chunk indexes).1 = indexes) ∧
    (∀ underNull updates e,
      (update allocator underNull transaction t updates indexes).2 = some e →
        (update allocator underNull transaction t updates indexes).1 = indexes) :=
  ⟨fun _ _ => addToIndexes_error, fun _ _ _ => addToIndexes_error⟩

/-- Two indexes on a table with one row; the first one has the entry of this row. -/
def indexesOfOneRow : List (UniqueIndex ℕ) :=
  [{ keys := [0], allowNulls := true, root := IndexTree.empty.place .bump [some 5] 0 },
    { keys := [1], allowNulls := false }]

/-- The table with the row `(5, 7)`. -/
def tableOfOneRow : DataTable (Option ℕ) where
  columnCount := 2
  cardinality := 1
  chunks := [⟨0, [{ deleted := false, columns := [some 5, some 7], versionPointers := [] }]⟩]
  contiguous := ⟨rfl, trivial⟩
  nonempty := cons_ne_nil _ _

/-- Two rows go into the first index before the second one refuses a NULL; an update of the row is
refused when its new key is NULL. -/
theorem restored_of_error_indexesOfOneRow :
    let transaction : Transaction Unit := { startTime := 1, transactionId := transactionIdStart }
    let chunk : DataChunk (Option ℕ) := ⟨[[some 3, some 1], [some 8, none]], by decide⟩
    (append .bump transaction tableOfOneRow chunk indexesOfOneRow).1 = indexesOfOneRow ∧
      (update .bump (fun _ _ => 0) transaction tableOfOneRow (.single 0 1 none)
        indexesOfOneRow).1 = indexesOfOneRow :=
  ⟨(restored_of_error .bump _ tableOfOneRow indexesOfOneRow).1 _ nullKey (by decide),
    (restored_of_error .bump _ tableOfOneRow indexesOfOneRow).2 _ _ nullKey (by decide)⟩

/-! ### The keys of updated rows -/

/-- The last value that goes with a key that occurs in a list. -/
theorem exists_last_zip {α β : Type*} [DecidableEq α] {keys : List α} {key : α} (h : key ∈ keys) :
    ∃ k : ℕ, keys[k]? = some key ∧ ∀ values : List β, values.length = keys.length →
      ∃ before value, values[k]? = some value ∧
        (keys.zip values).filter (·.1 = key) = before ++ [(key, value)] := by
  induction keys with
  | nil => simp at h
  | cons a keys ih =>
    by_cases hmem : key ∈ keys
    · obtain ⟨k, hk, hlast⟩ := ih hmem
      refine ⟨k + 1, by simpa using hk, fun values hlength => ?_⟩
      cases values with
      | nil => simp at hlength
      | cons b values =>
        obtain ⟨before, value, hvalue, hfilter⟩ := hlast values (by simpa using hlength)
        refine ⟨(if a = key then [(a, b)] else []) ++ before, value, by simpa using hvalue, ?_⟩
        by_cases ha : a = key <;> simp [ha, hfilter]
    · obtain rfl : key = a := (mem_cons.1 h).resolve_right hmem
      refine ⟨0, rfl, fun values hlength => ?_⟩
      cases values with
      | nil => simp at hlength
      | cons b values =>
        have hrest : (keys.zip values).filter (·.1 = key) = [] := by
          refine filter_eq_nil_iff.2 fun e he => ?_
          have hne : e.1 ≠ key := fun heq => hmem (heq ▸ (of_mem_zip he).1)
          simpa using hne
        exact ⟨[], b, rfl, by simp [hrest]⟩

omit [LinearOrder V] in
/-- The values that an update writes to one row, in order. -/
theorem filter_cells {updates : UpdateChunk V} : (updates.cells.filter (·.1 = row)).map (·.2) =
      (updates.columnIds.zip updates.data).flatMap fun c =>
        ((updates.rowIdentifiers.zip c.2).filter (·.1 = row)).map fun e => (c.1, e.2) := by
  rw [UpdateChunk.cells, filter_flatMap, map_flatMap]
  refine flatMap_congr fun c _ => ?_
  rw [filter_map, map_map]
  rfl

/-- The columns of a row after an update. -/
abbrev rowAfter (updates : UpdateChunk (Option V)) (row : ℕ) (columns : List (Option V)) :
    List (Option V) :=
  ((updates.cells.filter (·.1 = row)).map (·.2)).foldl (fun l w => l.set w.1 w.2) columns

/-- `k` is the last place where an update has the row. -/
def LastAt (updates : UpdateChunk (Option V)) (row k : ℕ) : Prop :=
  ∀ values : List (Option V), values.length = updates.rowIdentifiers.length →
    ∃ before value, values[k]? = some value ∧
      (updates.rowIdentifiers.zip values).filter (·.1 = row) = before ++ [(row, value)]

omit [LinearOrder V] in
theorem getElem?_rowAfter_of_notMem (hmem : column ∉ updates.columnIds) :
    (rowAfter updates row columns)[column]? = columns[column]? := by
  rw [rowAfter, filter_cells, getElem?_foldl_set_of_ne]
  intro w hw
  obtain ⟨c, hc, hw⟩ := mem_flatMap.1 hw
  obtain ⟨e, -, rfl⟩ := mem_map.1 hw
  exact fun heq => hmem (heq ▸ (of_mem_zip hc).1)

omit [LinearOrder V] in
/-- A column after an update that names it at most once. -/
theorem getElem?_update (columns : List (Option V)) (hlast : LastAt updates row k)
    (honce : updates.columnIds.count column ≤ 1) : (rowAfter updates row columns)[column]? =
      match updates.columnIds.idxOf? column with
      | none => columns[column]?
      | some j => if column < columns.length then some (updates.value j k) else none := by
  cases hidx : updates.columnIds.idxOf? column with
  | none => exact getElem?_rowAfter_of_notMem (idxOf?_eq_none_iff.1 hidx)
  | some j =>
    obtain ⟨hj, hget, -⟩ := idxOf?_eq_some_iff.1 hidx
    have hjdata : j < updates.data.length := updates.data_length ▸ hj
    have hcolumns : updates.columnIds =
        updates.columnIds.take j ++ column :: updates.columnIds.drop (j + 1) := by
      rw [← hget, ← drop_eq_getElem_cons hj, take_append_drop]
    have hdata : updates.data =
        updates.data.take j ++ updates.data[j] :: updates.data.drop (j + 1) := by
      rw [← drop_eq_getElem_cons hjdata, take_append_drop]
    -- the column is named only there
    have hnotin : column ∉ updates.columnIds.drop (j + 1) := by
      rw [hcolumns, count_append, count_cons_self] at honce
      exact count_eq_zero.1 (by omega)
    have hzip : updates.columnIds.zip updates.data =
        (updates.columnIds.take j).zip (updates.data.take j) ++ (column, updates.data[j]) ::
          (updates.columnIds.drop (j + 1)).zip (updates.data.drop (j + 1)) := by
      conv_lhs => rw [hcolumns, hdata]
      rw [zip_append (by simp [updates.data_length]), zip_cons_cons]
    obtain ⟨before, v, hv, hfilter⟩ :=
      hlast updates.data[j] (updates.vector_length _ (getElem_mem hjdata))
    have hjoin : updates.value j k = v := by
      simp [UpdateChunk.value, hjdata, hv]
    rw [rowAfter, filter_cells, hzip, flatMap_append, flatMap_cons, hfilter, map_append, append_assoc,
      map_singleton, singleton_append, ← append_assoc, getElem?_foldl_set_append]
    · simp only [hjoin]
    · intro w hw
      obtain ⟨c, hc, hw⟩ := mem_flatMap.1 hw
      obtain ⟨e, -, rfl⟩ := mem_map.1 hw
      exact fun (heq : c.1 = column) => hnotin (heq ▸ (of_mem_zip hc).1)

omit [LinearOrder V] in
theorem column_update {value : V} (hlast : LastAt updates row k)
    (honce : updates.columnIds.count column ≤ 1)
    (hvalue : (rowAfter updates row columns)[column]?.join = some value) :
    (match updates.columnIds.idxOf? column with
      | none => columns[column]?.join
      | some j => updates.value j k) = some value := by
  rw [getElem?_update columns hlast honce] at hvalue
  cases hidx : updates.columnIds.idxOf? column with
  | none => simpa [hidx] using hvalue
  | some j =>
    simp only [hidx] at hvalue
    split_ifs at hvalue
    · simpa using hvalue
    · simp at hvalue

variable {index : UniqueIndex V} {t : DataTable (Option V)}

omit [LinearOrder V] in
/-- **The key of an updated row**, unless it has a NULL, is the tuple that the index gets for the
last place where the row occurs. -/
theorem keyOf_update (underNull : ℕ → ℕ → V) (hslot : t.row? row = some slot)
    (hlast : LastAt updates row k)
    (honce : ∀ column ∈ index.keys, updates.columnIds.count column ≤ 1)
    (hnull : none ∉ keyOf index.keys (rowAfter updates row slot.columns)) :
    keyOf index.keys (rowAfter updates row slot.columns) =
      serializeUpdate underNull updates t index row k ∧
    ∀ affected ∈ affectedColumns updates.columnIds index, ∀ j ∈ affected,
      (updates.value j k).isNone = false := by
  have hcolumn : ∀ column ∈ index.keys,
      ∃ value, (rowAfter updates row slot.columns)[column]?.join = some value := by
    intro column hcolumn
    refine Option.ne_none_iff_exists'.1 fun hnone => hnull ?_
    exact mem_map.2 ⟨column, hcolumn, hnone⟩
  constructor
  · have hzip : index.keys.zip (affectedColumns updates.columnIds index) =
        index.keys.map fun column => (column, updates.columnIds.idxOf? column) := by
      rw [affectedColumns, ← zip_map', map_id']
    rw [serializeUpdate, hzip, keyOf, map_map]
    refine map_congr_left fun column hmem => ?_
    obtain ⟨value, hvalue⟩ := hcolumn column hmem
    have hupdate := column_update hlast (honce column hmem) hvalue
    rw [hvalue]
    cases hidx : updates.columnIds.idxOf? column with
    | none => simpa [hidx, hslot, eq_comm] using hupdate
    | some j =>
      simp only [hidx] at hupdate
      simp [hidx, hupdate]
  · intro affected haffected j hj
    obtain ⟨column, hmem, rfl⟩ := mem_map.1 haffected
    obtain ⟨value, hvalue⟩ := hcolumn column hmem
    have hupdate := column_update hlast (honce column hmem) hvalue
    rw [Option.mem_def.1 hj] at hupdate
    simp [hupdate]

omit [LinearOrder V] in
/-- An update that names no key column leaves the key alone. -/
theorem keyOf_of_not_affected (h : (affectedColumns updates.columnIds index).all (·.isNone)) :
    keyOf index.keys (rowAfter updates row columns) = keyOf index.keys columns := by
  refine map_congr_left fun column hcolumn => ?_
  have hidx : updates.columnIds.idxOf? column = none := by
    simpa [affectedColumns] using all_eq_true.1 h _ (mem_map_of_mem hcolumn)
  rw [getElem?_rowAfter_of_notMem (idxOf?_eq_none_iff.1 hidx)]

/-- The entries of an update are those of its rows, with different tuples. -/
theorem updateEntries_eq_ok {underNull : ℕ → ℕ → V} {entries : List (IndexEntry V)}
    (h : updateEntries underNull updates t index = .ok entries) :
    (affectedColumns updates.columnIds index).all (·.isNone) = true ∨
      entries = updates.rowIdentifiers.zipIdx.map
          (fun e => updateEntry underNull updates t index e.1 e.2) ∧
        (entries.map (·.tuple)).Nodup := by
  unfold updateEntries at h
  by_cases haffected : (affectedColumns updates.columnIds index).all (·.isNone)
  · exact .inl haffected
  · rw [if_neg haffected] at h
    dsimp only at h
    split_ifs at h with hnull hnodup
    obtain rfl := Except.ok.inj h
    exact .inr ⟨rfl, hnodup⟩

omit [LinearOrder V] in
theorem exists_updateEntry (underNull : ℕ → ℕ → V) (hslot : t.row? row = some slot)
    (hrow : row ∈ updates.rowIdentifiers)
    (honce : ∀ column ∈ index.keys, updates.columnIds.count column ≤ 1)
    (hnull : none ∉ keyOf index.keys (rowAfter updates row slot.columns)) :
    ∃ k, updates.rowIdentifiers[k]? = some row ∧
      (updateEntry underNull updates t index row k).hasNull = false ∧
        (updateEntry underNull updates t index row k).tuple =
          keyOf index.keys (rowAfter updates row slot.columns) := by
  obtain ⟨k, hk, hlast⟩ := exists_last_zip hrow
  obtain ⟨hkey, hvalues⟩ := keyOf_update underNull hslot hlast honce hnull
  refine ⟨k, hk, ?_, hkey.symm⟩
  rw [updateEntry, any_eq_false]
  intro affected haffected
  cases affected with
  | none => simp
  | some j =>
    rw [Option.any_some, hvalues (some j) haffected j rfl]
    exact Bool.false_ne_true

end UniqueIndex

end DuckDB
