import DuckDB.Execution.JoinHashTable
import DuckDB.Theory.Run

/-!
# What a join hash table holds

* `LinkedHashTable.meets_buildsChains_iff`: when the chains of the table in memory hold each entry
  once, in the bucket of its hash.
-/

namespace DuckDB

open Theory List JoinKey

variable {α β V : Type*} {k : HashedKeys α β V} {nodes : List (List (β × ℕ))} {size : ℕ+}

theorem HashedKeys.map_snd_rehashAll [DecidableEq V] :
    (k.rehashAll size nodes).map Prod.snd = nodes.flatten := by
  rw [rehashAll, map_flatten]
  refine congrArg _ (ext_getElem? fun i => ?_)
  rw [getElem?_map, getElem?_mapIdx, Option.map_map]
  refine (Option.map_congr fun node _ => ?_).trans Option.map_id'
  exact ext_getElem? fun position => by simp [Function.comp_def]

theorem HashedKeys.forall_rehashAll_iff [DecidableEq V] {f : β × ℕ → ℕ} :
    (∀ x ∈ k.rehashAll size nodes, x.1 = f x.2) ↔
      ∀ (i : ℕ) node, nodes[i]? = some node → ∀ (position : ℕ) entry, node[position]? = some entry →
        k.hash (k.deserialized (nodes.take (i + 1)) position entry.1) % size = f entry := by
  constructor
  · rintro h i node hnode position entry hentry
    obtain ⟨hi, rfl⟩ := List.getElem?_eq_some_iff.1 hnode
    obtain ⟨hposition, rfl⟩ := List.getElem?_eq_some_iff.1 hentry
    exact h _ (mem_flatten.2 ⟨_, mem_mapIdx.2 ⟨i, hi, rfl⟩, mem_mapIdx.2 ⟨position, hposition, rfl⟩⟩)
  · intro h x hx
    obtain ⟨_, hl, hx⟩ := mem_flatten.1 hx
    obtain ⟨i, hi, rfl⟩ := mem_mapIdx.1 hl
    obtain ⟨position, hposition, rfl⟩ := mem_mapIdx.1 hx
    exact h i _ (getElem?_eq_getElem hi) position _ (getElem?_eq_getElem hposition)

namespace LinkedHashTable

variable [DecidableEq β] (k : HashedKeys α β V) (table : LinkedHashTable β)

/-- The bucket of an entry. -/
def bucket (entry : β × ℕ) : ℕ :=
  k.hash (k.stored entry.1) % table.capacity

/-- The chains end, and every entry is in one of them once, that of its bucket. -/
def IsReachable : Prop :=
  ∃ chains, table.links.Represents chains ∧ chains.Stores (table.bucket k) table.nodes.flatten

/-- The entries have different addresses, and those in the log of the insertions since the last
`Resize`. -/
structure Logs (log : List (ℕ × (β × ℕ))) : Prop where
  addresses : (table.nodes.flatten.map Prod.snd).Perm (range table.nodes.flatten.length)
  links : table.links = Links.insertAll {} log
  perm : (log.map Prod.snd).Perm table.nodes.flatten

variable {k table} {log : List (ℕ × (β × ℕ))} {chunk : List β}

variable {rows : List β}

/-- The pointers make the right chains when the insertions were made in the right buckets. -/
theorem Logs.isReachable_iff (h : table.Logs log) :
    table.IsReachable k ↔ ∀ x ∈ log, x.1 = table.bucket k x.2 := by
  have hentries : table.nodes.flatten.Nodup :=
    Pairwise.of_map _ (fun _ _ => ne_of_apply_ne _) (h.addresses.nodup_iff.2 nodup_range)
  have hrepresents : table.links.Represents (Chains.empty.insertAll log) := by
    rw [h.links]
    exact Links.Represents.insertAll (fun _ => rfl) (h.perm.nodup_iff.2 hentries)
      fun _ _ _ => not_mem_nil
  rw [← Chains.stores_insertAll_iff h.perm]
  constructor
  · rintro ⟨chains, hchains, hstores⟩
    rwa [← funext fun i => (hchains i).eq (hrepresents i)]
  · exact fun hstores => ⟨_, hrepresents, hstores⟩

theorem flatten_addEntries : (table.addEntries k rows).nodes.flatten =
      rows.zipIdx table.nodes.flatten.length ++ table.nodes.flatten := by
  cases rows <;> rfl

theorem bucket_addEntries : (table.addEntries k rows).bucket k = table.bucket k := by
  cases rows <;> rfl

variable [DecidableEq V]

/-- `Build` adds an entry for each row that can be stored, and all entries are reachable. -/
def BuildsChains (k : HashedKeys α β V) (table : LinkedHashTable β) (chunk : List β) : Prop :=
  (table.build k chunk).nodes.flatten.map Prod.fst =
      chunk.filter (storable k.keys) ++ table.nodes.flatten.map Prod.fst ∧
    (table.build k chunk).IsReachable k

/-- If `Build` resizes, the bucket of every entry is the same when the keys are replaced by
`NullValue` in whose column the same node or a newer one has `NullValue` at the same position. -/
def KeepsBuckets (k : HashedKeys α β V) (table : LinkedHashTable β) (chunk : List β) : Prop :=
  chunk ≠ [] → table.capacity / 2 < table.count + chunk.length →
    ∀ (i : ℕ) node, table.nodes[i]? = some node →
      ∀ (position : ℕ) entry, node[position]? = some entry →
        k.hash (k.deserialized (table.nodes.take (i + 1)) position entry.1) % (table.capacity * 2) =
          k.hash (k.stored entry.1) % (table.capacity * 2)

theorem Logs.makeRoom (h : table.Logs log) (hreachable : table.IsReachable k) (hchunk : chunk ≠ []) :
    ∃ log', (table.makeRoom k chunk.length).Logs log' ∧
      ((∀ x ∈ log', x.1 = (table.makeRoom k chunk.length).bucket k x.2) ↔
        table.KeepsBuckets k chunk) := by
  unfold LinkedHashTable.makeRoom
  split_ifs with hgt
  · refine ⟨_, ⟨h.addresses, rfl, Perm.of_eq (HashedKeys.map_snd_rehashAll ..)⟩,
      (HashedKeys.forall_rehashAll_iff ..).trans ?_⟩
    exact ⟨fun h _ _ => h, fun h => h hchunk hgt⟩
  · exact ⟨log, ⟨h.addresses, h.links, h.perm⟩,
      iff_of_true (h.isReachable_iff.1 hreachable) fun _ hlt => absurd hlt hgt⟩

omit [DecidableEq V] in
/-- New entries get new addresses and go to their buckets. -/
theorem Logs.addEntries (h : table.Logs log) (rows : List β) :
    (table.addEntries k rows).Logs (log ++
      (rows.zipIdx table.nodes.flatten.length).map fun entry => (table.bucket k entry, entry)) where
  addresses := by
    rw [flatten_addEntries, map_append, length_append, zipIdx_map_snd, length_zipIdx]
    rw [range_eq_range', Nat.add_comm, ← range'_append_1, ← range_eq_range', Nat.zero_add]
    exact perm_append_comm.trans (h.addresses.append_right _)
  links := by
    have hlinks : (table.addEntries k rows).links = table.links.insertAll
        ((rows.zipIdx table.nodes.flatten.length).map fun entry => (table.bucket k entry, entry)) := by
      cases rows <;> rfl
    rw [hlinks, h.links, Links.insertAll, Links.insertAll, Links.insertAll, foldl_append]
  perm := by
    rw [flatten_addEntries, map_append, map_map]
    exact (h.perm.append (Perm.of_eq (map_id _))).trans perm_append_comm

/-- **`Build`** adds its entries, and all entries are reachable exactly under the condition. -/
theorem Logs.build (h : table.Logs log) (hreachable : table.IsReachable k) (chunk : List β) :
    (∃ log, (table.build k chunk).Logs log) ∧
      (table.KeepsBuckets k chunk ↔ table.BuildsChains k chunk) := by
  by_cases hchunk : chunk = []
  · subst hchunk
    exact ⟨⟨log, h⟩, iff_of_true (fun hne => absurd rfl hne) ⟨rfl, hreachable⟩⟩
  obtain ⟨log', hroom, hiff⟩ := h.makeRoom hreachable hchunk
  have hlogs := hroom.addEntries (k := k) (chunk.filter (storable k.keys))
  have hnodes : (table.makeRoom k chunk.length).nodes = table.nodes := by
    unfold LinkedHashTable.makeRoom
    split_ifs <;> rfl
  have hbuild : table.build k chunk =
      (table.makeRoom k chunk.length).addEntries k (chunk.filter (storable k.keys)) :=
    if_neg (by simpa using hchunk)
  rw [BuildsChains, hbuild, hlogs.isReachable_iff, bucket_addEntries, forall_mem_append, hiff,
    flatten_addEntries, map_append, zipIdx_map_fst, hnodes]
  exact ⟨⟨_, hlogs⟩, fun hkeeps => ⟨rfl, hkeeps, forall_mem_map.2 fun _ _ => rfl⟩,
    fun hbuilds => hbuilds.2.1⟩

theorem meets_keepsBuckets_iff (k : HashedKeys α β V) (capacity : ℕ+) (chunks : List (List β)) :
    Meets (build k) (KeepsBuckets k) { capacity := capacity } chunks ↔
      Meets (build k) (BuildsChains k) { capacity := capacity } chunks := by
  refine meets_congr (I := fun table => table.IsReachable k ∧ ∃ log, table.Logs log) ?_ ?_ ?_
  · rintro table chunk ⟨hreachable, log, h⟩ hkeeps
    have hbuild := h.build hreachable chunk
    exact ⟨(hbuild.2.1 hkeeps).2, hbuild.1⟩
  · rintro table chunk ⟨hreachable, log, h⟩
    exact (h.build hreachable chunk).2
  · exact ⟨⟨Chains.empty, fun _ => rfl, Chains.stores_empty _⟩, [], by simp, rfl, by simp⟩

/-- **The chains of the table**: along a run of `Build` from an empty table, the entries are those of
the rows that can be stored, and each one is reached once, from its bucket, exactly when no `Resize`
takes a key for NULL that changes a bucket. -/
theorem meets_buildsChains_iff (k : HashedKeys α β V) (capacity : ℕ+) (chunks : List (List β)) :
    Meets (build k) (BuildsChains k) { capacity := capacity } chunks ↔
      Meets (build k) (KeepsBuckets k) { capacity := capacity } chunks :=
  (meets_keepsBuckets_iff k capacity chunks).symm

/-- Keys that are their own hash; 0 is the `NullValue`. -/
def numberKeys : HashedKeys ℕ ℕ ℕ where
  keys := [⟨some, some, .equal, false, rfl, by simp⟩]
  hash := List.sum
  nullValue _ := 0

/-- The third chunk makes the table grow from 4 to 8. `Resize` reads the second node first and takes
its 0 for NULL, and then the 1 of the first node, which is at the same position. -/
theorem not_buildsChains_zero :
    ¬Meets (build numberKeys) (BuildsChains numberKeys) { capacity := 4 } [[1], [0], [2]] := by
  rw [← meets_keepsBuckets_iff]
  rintro ⟨-, -, hkeeps, -⟩
  have hbucket := hkeeps (by decide) (by decide) 1 [(1, 0)] rfl 0 (1, 0) rfl
  exact absurd hbucket (by decide)

end LinkedHashTable

end DuckDB
