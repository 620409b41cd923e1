import DuckDB.Transaction.Equiv.UndoBuffer
import DuckDB.Transaction.History

/-!
# The database refines the abstract store

`Database.store` is the abstract store a database stands for. `Database.Invariant` ties the undo
buffers to the version chains: the chain of a row consists of the versions in the undo buffer of the
active transaction that changed the row, if any, followed by those of the recently committed
transactions, last one first.

* `Database.Invariant.step`: an operation keeps the invariant and does to the store what its events
  do.
* `Database.Invariant.run`: so does a run.
-/

namespace DuckDB

open Theory List Transaction Database TransactionManager VersionInformation Function Store RowSlot

variable {V C : Type*}
  {table row number : ℕ} {transaction : Transaction C} {k : VersionPointer × ℕ} {α β : Type*}
  {l : List α} {a : α}

/-! ### The abstract store and the chains -/

/-- An active transaction, as the abstract store has it. -/
def Transaction.running (transaction : Transaction C) : Running :=
  ⟨transaction.transactionId, transaction.startTime⟩

/-- A committed transaction, as the abstract store has it. -/
def Transaction.finished (transaction : Transaction C) : Finished :=
  ⟨transaction.transactionId, transaction.commitId⟩

/-- The abstract store a database stands for. -/
def Database.store (db : Database V C) : Store V where
  clock := db.transactionManager.currentStartTimestamp
  nextId := db.transactionManager.currentTransactionId
  active := db.transactionManager.activeTransactions.map running
  recent := db.transactionManager.recentlyCommittedTransactions.map finished
  rows table := (db.tables table).rows.map RowSlot.versioned

/-- Where a version lives and its number. -/
def VersionInformation.key (v : VersionInformation V) : VersionPointer × ℕ :=
  (v.pointer, v.versionNumber)

/-- The versions of a row that one transaction made, newest first, under the given number. -/
def Transaction.block (table row number : ℕ) (transaction : Transaction C) :
    List (VersionPointer × ℕ) :=
  (transaction.pointersOn table row).reverse.map (·, number)

/-- The versions of a row according to the undo buffers. -/
def TransactionManager.chain (table row : ℕ) (manager : TransactionManager C) :
    List (VersionPointer × ℕ) :=
  manager.activeTransactions.flatMap (fun t => t.block table row t.transactionId) ++
    manager.recentlyCommittedTransactions.reverse.flatMap (fun t => t.block table row t.commitId)

/-- The versions of a row according to its version chain. -/
def Database.keys (table row : ℕ) (db : Database V C) : List (VersionPointer × ℕ) :=
  (db.row? table row).elim [] fun slot => slot.versionPointers.map key

/-- What all reachable databases have in common. -/
structure Database.Invariant (db : Database V C) : Prop where
  store : db.store.Invariant
  chains : ∀ table row, db.keys table row = db.transactionManager.chain table row
  uncommitted : ∀ t ∈ db.transactionManager.activeTransactions, t.commitId = 0

variable {f : α → List β}

theorem Transaction.mem_block : k ∈ transaction.block table row number ↔
      k.1 ∈ transaction.pointersOn table row ∧ k.2 = number := by
  rw [block, mem_map]
  constructor
  · rintro ⟨p, hp, rfl⟩
    exact ⟨mem_reverse.1 hp, rfl⟩
  · rintro ⟨hp, rfl⟩
    exact ⟨k.1, mem_reverse.2 hp, rfl⟩

theorem Transaction.block_eq_nil (h : transaction.pointersOn table row = []) :
    transaction.block table row number = [] := by
  simp [block, h]

theorem Transaction.owner_of_mem_block (h : k ∈ transaction.block table row number) :
    k.1.owner = transaction.transactionId :=
  owner_of_mem_pointersOn (mem_block.1 h).1

theorem TransactionManager.mem_chain {manager : TransactionManager C} :
    k ∈ manager.chain table row ↔
      (∃ t ∈ manager.activeTransactions, k ∈ t.block table row t.transactionId) ∨
        ∃ t ∈ manager.recentlyCommittedTransactions, k ∈ t.block table row t.commitId := by
  simp only [chain, mem_append, mem_flatMap, mem_reverse]

/-- If only one element of a list maps to anything, the list maps to its image. -/
theorem flatMap_eq_of_unique (ha : a ∈ l) (hnd : l.Nodup) (h : ∀ b ∈ l, b ≠ a → f b = []) :
    l.flatMap f = f a := by
  induction l with
  | nil => simp at ha
  | cons b l ih =>
    obtain ⟨hb, hnd⟩ := nodup_cons.1 hnd
    rw [flatMap_cons]
    by_cases hba : b = a
    · subst hba
      have hrest : l.flatMap f = [] :=
        flatMap_eq_nil_iff.2 fun c hc =>
          h c (mem_cons_of_mem _ hc) fun hcb => hb (hcb ▸ hc)
      rw [hrest, append_nil]
    · rw [h b mem_cons_self hba, nil_append]
      exact ih ((mem_cons.1 ha).resolve_left (Ne.symm hba)) hnd
        fun c hc => h c (mem_cons_of_mem _ hc)

/-- Leaving an element out changes nothing when it maps to nothing, or when it is alone. -/
theorem flatMap_filter_append {p : α → Bool} (ha : a ∈ l) (hp : ∀ b ∈ l, p b = false ↔ b = a)
    (hnd : l.Nodup) (h : f a = [] ∨ ∀ b ∈ l, b ≠ a → f b = []) :
    l.flatMap f = f a ++ (l.filter p).flatMap f := by
  rcases h with h | h
  · rw [h, nil_append]
    clear ha hnd
    induction l with
    | nil => rfl
    | cons b l ih =>
      have ih := ih fun c hc => hp c (mem_cons_of_mem _ hc)
      by_cases hb : p b
      · rw [filter_cons_of_pos hb, flatMap_cons, flatMap_cons, ih]
      · have hba : b = a := (hp b mem_cons_self).1 (by simpa using hb)
        rw [filter_cons_of_neg hb, flatMap_cons, hba, h, nil_append, ih]
  · have hrest : (l.filter p).flatMap f = [] := by
      refine flatMap_eq_nil_iff.2 fun b hb => ?_
      obtain ⟨hbl, hpb⟩ := mem_filter.1 hb
      exact h b hbl fun hba => by simp [(hp b hbl).2 hba] at hpb
    rw [flatMap_eq_of_unique ha hnd h, hrest, append_nil]

namespace Database.Invariant

variable {db : Database V C} {table row : ℕ} {slot : RowSlot V} {u : Transaction C}
  {t : Transaction C}

theorem mem_running (ht : t ∈ db.transactionManager.activeTransactions) :
    t.running ∈ db.store.active :=
  mem_map_of_mem ht

section

variable (h : db.Invariant)

include h

theorem ids_nodup :
    (db.transactionManager.activeTransactions.map (·.transactionId) ++
      db.transactionManager.recentlyCommittedTransactions.map (·.transactionId)).Nodup := by
  have := h.store.nodup
  simp only [Database.store, map_map] at this
  exact this

theorem active_nodup : db.transactionManager.activeTransactions.Nodup :=
  (nodup_append.1 h.ids_nodup).1.of_map _

variable {t : Transaction C}

/-- Transactions are told apart by their ids. -/
theorem active_ext (ht : t ∈ db.transactionManager.activeTransactions)
    (hu : u ∈ db.transactionManager.activeTransactions) (hid : t.transactionId = u.transactionId) :
    t = u :=
  inj_on_of_nodup_map (nodup_append.1 h.ids_nodup).1 ht hu hid

theorem recent_ext (ht : t ∈ db.transactionManager.recentlyCommittedTransactions)
    (hu : u ∈ db.transactionManager.recentlyCommittedTransactions)
    (hid : t.transactionId = u.transactionId) : t = u :=
  inj_on_of_nodup_map (nodup_append.1 h.ids_nodup).2.1 ht hu hid

theorem active_ne_recent (ht : t ∈ db.transactionManager.activeTransactions)
    (hu : u ∈ db.transactionManager.recentlyCommittedTransactions) :
    t.transactionId ≠ u.transactionId :=
  (nodup_append.1 h.ids_nodup).2.2 _ (mem_map_of_mem ht) _ (mem_map_of_mem hu)

theorem active?_eq_some_iff {id : ℕ} : db.transactionManager.active? id = some t ↔
      t ∈ db.transactionManager.activeTransactions ∧ t.transactionId = id := by
  constructor
  · intro ht
    exact ⟨mem_of_find?_eq_some ht, by simpa using find?_some ht⟩
  · rintro ⟨ht, hid⟩
    cases hfind : db.transactionManager.active? id with
    | none =>
      have := find?_eq_none.1 hfind t ht
      simp [hid] at this
    | some u =>
      have hu : u.transactionId = id := by simpa using find?_some hfind
      rw [h.active_ext (mem_of_find?_eq_some hfind) ht (hu.trans hid.symm)]

theorem runs_iff {id : ℕ} :
    Runs db.store.active id ↔ ∃ t, db.transactionManager.active? id = some t := by
  constructor
  · rintro ⟨a, ha, rfl⟩
    obtain ⟨t, ht, rfl⟩ := mem_map.1 ha
    exact ⟨t, h.active?_eq_some_iff.2 ⟨ht, rfl⟩⟩
  · rintro ⟨t, ht⟩
    obtain ⟨htm, htid⟩ := h.active?_eq_some_iff.1 ht
    exact ⟨_, mem_running htm, htid⟩

/-- The versions of a transaction on a row, by owner. -/
theorem mem_block_of_owner (hk : k ∈ db.transactionManager.chain table row) :
    (∀ t ∈ db.transactionManager.activeTransactions, k.1.owner = t.transactionId →
      k ∈ t.block table row t.transactionId) ∧
    (∀ t ∈ db.transactionManager.recentlyCommittedTransactions, k.1.owner = t.transactionId →
      k ∈ t.block table row t.commitId) := by
  rcases mem_chain.1 hk with ⟨u, hu, huk⟩ | ⟨u, hu, huk⟩
  · have hown := owner_of_mem_block huk
    refine ⟨fun t ht hid => ?_, fun t ht hid => ?_⟩
    · exact h.active_ext hu ht (hown.symm.trans hid) ▸ huk
    · exact absurd (hown.symm.trans hid) (h.active_ne_recent hu ht)
  · have hown := owner_of_mem_block huk
    refine ⟨fun t ht hid => ?_, fun t ht hid => ?_⟩
    · exact absurd (hown.symm.trans hid).symm (h.active_ne_recent ht hu)
    · exact h.recent_ext hu ht (hown.symm.trans hid) ▸ huk

end

theorem keys_eq (hslot : db.row? table row = some slot) :
    db.keys table row = slot.versionPointers.map key := by
  rw [keys, hslot]
  rfl

theorem key_mem_chain (h : db.Invariant) (hslot : db.row? table row = some slot)
    {v : VersionInformation V} (hv : v ∈ slot.versionPointers) :
    v.key ∈ db.transactionManager.chain table row := by
  rw [← h.chains, keys_eq hslot]
  exact mem_map_of_mem hv

/-- All versions of one transaction on a row have the same number. -/
theorem sameNumbers (h : db.Invariant) (hslot : db.row? table row = some slot) :
    SameNumbers slot.versionPointers := by
  intro v hv w hw hown
  have hvk := h.key_mem_chain hslot hv
  have hwk := h.mem_block_of_owner (h.key_mem_chain hslot hw)
  rcases mem_chain.1 hvk with ⟨t, ht, htk⟩ | ⟨t, ht, htk⟩
  · have hwt := hwk.1 t ht (hown.symm.trans (owner_of_mem_block htk))
    exact (mem_block.1 htk).2.trans (mem_block.1 hwt).2.symm
  · have hwt := hwk.2 t ht (hown.symm.trans (owner_of_mem_block htk))
    exact (mem_block.1 htk).2.trans (mem_block.1 hwt).2.symm

theorem row?_eq (db : Database V C) (table row : ℕ) :
    db.row? table row = (db.tables table).rows[row]? :=
  Tables.row?_eq db.tables table row

theorem versioned_mem (hslot : db.row? table row = some slot) :
    slot.versioned ∈ db.store.rows table := by
  rw [row?_eq] at hslot
  exact mem_map_of_mem (mem_of_getElem? hslot)

theorem rowInvariant (h : db.Invariant) (hslot : db.row? table row = some slot) :
    RowInvariant db.store.active db.store.recent slot.versioned :=
  h.store.rows table _ (versioned_mem hslot)

/-- A transaction with versions on a row has a record there. -/
theorem exists_record (h : db.Invariant) (ht : t ∈ db.transactionManager.activeTransactions)
    (hptr : t.pointersOn table row ≠ []) : ∃ slot, db.row? table row = some slot ∧
      ∃ r ∈ slot.versioned.records, r.owner = t.transactionId := by
  obtain ⟨p, hp⟩ := exists_mem_of_ne_nil _ hptr
  have hk : (p, t.transactionId) ∈ db.keys table row := by
    rw [h.chains]
    exact mem_chain.2 (.inl ⟨t, ht, mem_block.2 ⟨hp, rfl⟩⟩)
  cases hslot : db.row? table row with
  | none => simp [keys, hslot] at hk
  | some slot =>
    rw [keys_eq hslot] at hk
    obtain ⟨v, hv, hvk⟩ := mem_map.1 hk
    obtain ⟨r, hr, hrv⟩ := exists_record_of_mem slot.columns hv
    refine ⟨slot, rfl, r, hr, hrv.trans ?_⟩
    have hpv : v.pointer = p := congrArg Prod.fst hvk
    rw [hpv]
    exact owner_of_mem_pointersOn hp

/-- A record of an active transaction is the newest one. -/
theorem head_of_active (h : db.Invariant) (hslot : db.row? table row = some slot)
    (ht : t ∈ db.transactionManager.activeTransactions) {r : Record V}
    (hr : r ∈ slot.versioned.records) (hown : r.owner = t.transactionId) :
    slot.versioned.ownedBy t.transactionId := by
  cases hrec : slot.versioned.records with
  | nil => simp [hrec] at hr
  | cons r' older =>
    rcases mem_cons.1 (hrec ▸ hr) with rfl | hr'
    · simp [VersionedRow.ownedBy, hrec, hown]
    · have hc := (h.rowInvariant hslot).committed_of_mem_tail hrec hr'
      exact absurd hown (h.store.recent_ne ⟨_, mem_running ht, rfl⟩ _ hc)

/-- **At most one active transaction has changed a row.** -/
theorem exclusive (h : db.Invariant) (ht : t ∈ db.transactionManager.activeTransactions)
    (hu : u ∈ db.transactionManager.activeTransactions) (htp : t.pointersOn table row ≠ [])
    (hup : u.pointersOn table row ≠ []) : t = u := by
  obtain ⟨slot, hslot, r, hr, hrt⟩ := h.exists_record ht htp
  obtain ⟨slot', hslot', r', hr', hru⟩ := h.exists_record hu hup
  obtain rfl := Option.some.inj (hslot.symm.trans hslot')
  have h₁ := h.head_of_active hslot ht hr hrt
  have h₂ := h.head_of_active hslot hu hr' hru
  exact h.active_ext ht hu (VersionedRow.eq_of_ownedBy h₁ h₂)

end Database.Invariant

/-! ### Refinement steps -/

/-- Going from `db` to `db'` is what the events do. -/
structure Refines (db db' : Database V C) (events : List (Event V)) : Prop where
  invariant : db'.Invariant
  store : db'.store = events.foldl apply db.store
  allowed : Meets apply Allowed db.store events

namespace Refines

variable {db db' db'' : Database V C}

theorem refl (h : db.Invariant) : Refines db db [] :=
  ⟨h, rfl, trivial⟩

theorem trans {es es' : List (Event V)} (h : Refines db db' es) (h' : Refines db' db'' es') :
    Refines db db'' (es ++ es') where
  invariant := h'.invariant
  store := by rw [foldl_append, ← h.store, h'.store]
  allowed := meets_append.2 ⟨h.allowed, h.store ▸ h'.allowed⟩

theorem of_eq (h : db.Invariant)
    (hclock : db'.transactionManager.currentStartTimestamp =
      db.transactionManager.currentStartTimestamp)
    (hnext : db'.transactionManager.currentTransactionId =
      db.transactionManager.currentTransactionId)
    (hactive : db'.transactionManager.activeTransactions = db.transactionManager.activeTransactions)
    (hrecent : db'.transactionManager.recentlyCommittedTransactions =
      db.transactionManager.recentlyCommittedTransactions)
    (hrows : ∀ table, (db'.tables table).rows = (db.tables table).rows) : Refines db db' [] := by
  have hstore : db'.store = db.store := by
    simp only [Database.store, hclock, hnext, hactive, hrecent, hrows]
  refine ⟨⟨hstore ▸ h.store, fun table row => ?_, hactive ▸ h.uncommitted⟩, hstore, trivial⟩
  have hrow : db'.row? table row = db.row? table row := by
    rw [Database.Invariant.row?_eq, Database.Invariant.row?_eq, hrows]
  have hchain : db'.transactionManager.chain table row = db.transactionManager.chain table row := by
    simp only [TransactionManager.chain, hactive, hrecent]
  rw [Database.keys, hrow, hchain]
  exact h.chains table row

theorem of_event {e : Event V} (h : db.Invariant) (hok : db.store.Allowed e)
    (hstore : db'.store = db.store.apply e)
    (hchains : ∀ table row, db'.keys table row = db'.transactionManager.chain table row)
    (hun : ∀ t ∈ db'.transactionManager.activeTransactions, t.commitId = 0) : Refines db db' [e] :=
  ⟨⟨hstore ▸ h.store.apply hok, hchains, hun⟩, hstore, ⟨hok, trivial⟩⟩

end Refines

/-! ### Storing a transaction back -/

namespace Database.Invariant

variable {db : Database V C} {id : ℕ} {t t' : Transaction C}

section

variable (h : db.Invariant)

include h

section

variable (ht : db.transactionManager.active? id = some t)

include ht

section

variable (hid : t'.transactionId = id)

include hid

theorem setTransaction_eq :
    ∀ u ∈ db.transactionManager.activeTransactions,
      (if u.transactionId = t'.transactionId then t' else u) = t' ∧ u = t ∨
      (if u.transactionId = t'.transactionId then t' else u) = u ∧ u ≠ t := by
  obtain ⟨htm, htid⟩ := h.active?_eq_some_iff.1 ht
  intro u hu
  by_cases hut : u.transactionId = t'.transactionId
  · exact .inl ⟨if_pos hut, h.active_ext hu htm (hut.trans (hid.trans htid.symm))⟩
  · refine .inr ⟨if_neg hut, fun heq => hut ?_⟩
    rw [heq, htid, hid]

theorem setTransaction_running (hstart : t'.startTime = t.startTime) :
    (db.transactionManager.setTransaction t').activeTransactions.map running =
      db.transactionManager.activeTransactions.map running := by
  have htid := (h.active?_eq_some_iff.1 ht).2
  rw [setTransaction, map_map]
  refine map_congr_left fun u hu => ?_
  rcases h.setTransaction_eq ht hid u hu with ⟨heq, rfl⟩ | ⟨heq, -⟩
  · rw [comp_apply, heq, running, running, hid, htid, hstart]
  · rw [comp_apply, heq]

theorem setTransaction_uncommitted (hcommit : t'.commitId = t.commitId) :
    ∀ u ∈ (db.transactionManager.setTransaction t').activeTransactions, u.commitId = 0 := by
  intro u hu
  obtain ⟨w, hw, rfl⟩ := mem_map.1 hu
  rcases h.setTransaction_eq ht hid w hw with ⟨heq, rfl⟩ | ⟨heq, -⟩
  · rw [heq, hcommit]
    exact h.uncommitted w hw
  · rw [heq]
    exact h.uncommitted w hw

/-- Rows whose versions the stored transaction did not change. -/
theorem chain_setTransaction (hptr : t'.pointersOn table row = t.pointersOn table row) :
    (db.transactionManager.setTransaction t').chain table row =
      db.transactionManager.chain table row := by
  have htid := (h.active?_eq_some_iff.1 ht).2
  simp only [TransactionManager.chain, setTransaction, flatMap_map]
  congr 1
  refine flatMap_congr fun u hu => ?_
  rcases h.setTransaction_eq ht hid u hu with ⟨heq, rfl⟩ | ⟨heq, -⟩
  · rw [heq, block, block, hptr, hid, htid]
  · rw [heq]

/-- A new version of a row that no other active transaction has changed. -/
theorem chain_setTransaction_push {p : VersionPointer}
    (hptr : t'.pointersOn table row = t.pointersOn table row ++ [p])
    (hothers : ∀ u ∈ db.transactionManager.activeTransactions, u ≠ t →
      u.pointersOn table row = []) : (db.transactionManager.setTransaction t').chain table row =
      (p, id) :: db.transactionManager.chain table row := by
  obtain ⟨htm, htid⟩ := h.active?_eq_some_iff.1 ht
  simp only [TransactionManager.chain, setTransaction, flatMap_map]
  have hold : db.transactionManager.activeTransactions.flatMap
      (fun u => u.block table row u.transactionId) = t.block table row t.transactionId :=
    flatMap_eq_of_unique htm h.active_nodup fun u hu hne =>
      block_eq_nil (hothers u hu hne)
  have hnew : db.transactionManager.activeTransactions.flatMap
      (fun u => (if u.transactionId = t'.transactionId then t' else u).block table row
        (if u.transactionId = t'.transactionId then t' else u).transactionId) =
      t'.block table row t'.transactionId := by
    refine (flatMap_eq_of_unique htm h.active_nodup fun u hu hne => ?_).trans ?_
    · rcases h.setTransaction_eq ht hid u hu with ⟨-, heq⟩ | ⟨heq, -⟩
      · exact absurd heq hne
      · rw [heq]
        exact block_eq_nil (hothers u hu hne)
    · rw [if_pos (htid.trans hid.symm)]
  rw [hold, hnew, block, block, hptr, reverse_append, hid, htid]
  rfl

end

/-- The row can be changed by `t`, so no other active transaction has changed it. -/
theorem others_pointersOn {slot : RowSlot V} (hslot : db.row? table row = some slot)
    (hconf : DataTable.conflicts t slot = false) :
    ∀ u ∈ db.transactionManager.activeTransactions, u ≠ t → u.pointersOn table row = [] := by
  obtain ⟨htm, -⟩ := h.active?_eq_some_iff.1 ht
  rw [conflicts_eq t (h.sameNumbers hslot)] at hconf
  intro u hu hne
  by_contra hptr
  obtain ⟨slot', hslot', r, hr, hru⟩ := h.exists_record hu hptr
  obtain rfl := Option.some.inj (hslot.symm.trans hslot')
  have howned := h.head_of_active hslot hu hr hru
  -- the newest record is the one of `u`, which is a conflict for `t`
  have hids := h.store.active_ge
  by_cases hown : slot.versioned.ownedBy t.transactionId
  · exact hne (h.active_ext hu htm (VersionedRow.eq_of_ownedBy howned hown))
  · have hall := (h.rowInvariant hslot).committed_of_not_conflicts hids hconf (by simpa using hown)
    exact h.store.recent_ne ⟨_, mem_running hu, rfl⟩ _ (hall r hr) hru

end

end

end Database.Invariant

/-! ### Changing rows -/

theorem map_modify_eq {g : α → β} {f : α → α} {f' : β → β} {i : ℕ} (ha : l[i]? = some a)
    (h : g (f a) = f' (g a)) : (l.modify i f).map g = (l.map g).modify i f' := by
  refine ext_getElem? fun j => ?_
  rw [getElem?_map, getElem?_modify, getElem?_modify, getElem?_map]
  by_cases hij : i = j
  · subst hij
    simp [ha, h]
  · simp [hij]

theorem store_rows_modifyRow {tables : Tables V} {slot : RowSlot V}
    (hslot : tables.row? table row = some slot) {f : RowSlot V → RowSlot V}
    {f' : VersionedRow V → VersionedRow V} (hf : (f slot).versioned = f' slot.versioned) :
    (fun table' => ((tables.modifyRow table row f) table').rows.map versioned) =
      update (fun table' => (tables table').rows.map versioned) table
        (((tables table).rows.map versioned).modify row f') := by
  funext table'
  rw [Tables.modifyRow, Tables.modifyTable]
  by_cases ht : table' = table
  · subst ht
    rw [update_self, update_self, DataTable.rows_modifyRow]
    rw [Tables.row?_eq] at hslot
    exact map_modify_eq hslot hf
  · rw [update_of_ne ht, update_of_ne ht]

namespace Database.Invariant

variable {db : Database V C} {id : ℕ} {t t' : Transaction C} {slot : RowSlot V}

theorem refines_idle (h : db.Invariant) (ht : db.transactionManager.active? id = some t)
    (t' : Transaction C) (hid : t'.transactionId = id) (hstart : t'.startTime = t.startTime)
    (hcommit : t'.commitId = t.commitId)
    (hptr : ∀ table row, t'.pointersOn table row = t.pointersOn table row) :
    Refines db { db with transactionManager := db.transactionManager.setTransaction t' } [] := by
  have hstore : ({ db with
      transactionManager := db.transactionManager.setTransaction t' } : Database V C).store =
      db.store := by
    simp only [Database.store, h.setTransaction_running ht hid hstart]
    rfl
  refine ⟨⟨hstore ▸ h.store, fun table row => ?_, h.setTransaction_uncommitted ht hid hcommit⟩,
    hstore, trivial⟩
  refine (h.chains table row).trans (h.chain_setTransaction ht hid (hptr table row)).symm

theorem refines_push (h : db.Invariant) (ht : db.transactionManager.active? id = some t)
    (hslot : db.row? table row = some slot) (hconf : DataTable.conflicts t slot = false)
    (flag : TupleFlag) {f : RowSlot V → RowSlot V} {w : RowWrite V} (hw : w.isInsert = false)
    (hkeys : (f slot).versionPointers.map key =
      (⟨id, t.nextIndex⟩, id) :: slot.versionPointers.map key)
    (hf : (f slot).versioned = slot.versioned.write id w) :
    Refines db
      { transactionManager :=
          db.transactionManager.setTransaction (t.createEntry (.tuple flag table row))
        tables := db.tables.modifyRow table row f } [.write id ⟨table, row, w⟩] := by
  obtain ⟨htm, htid⟩ := h.active?_eq_some_iff.1 ht
  have hid : (t.createEntry (.tuple flag table row)).transactionId = id := htid
  refine Refines.of_event h ⟨⟨_, mem_running htm, htid⟩, ?_⟩ ?_ (fun table' row' => ?_)
    (h.setTransaction_uncommitted ht hid rfl)
  · rw [conflicts_eq t (h.sameNumbers hslot), htid] at hconf
    refine (writable_iff_of_not_insert hw).2 ⟨_, ?_, hconf⟩
    rw [row?_eq] at hslot
    simp [Database.store, hslot]
  · have hrunning := h.setTransaction_running ht hid rfl
    rw [apply, writeRow_of_not_insert _ _ hw]
    simp only [Database.store, hrunning, store_rows_modifyRow hslot hf]
    rfl
  · have hptr := t.pointersOn_createEntry_tuple flag table row table' row'
    rw [keys, row?, Tables.row?_modifyRow]
    by_cases hsame : table = table' ∧ row = row'
    · obtain ⟨rfl, rfl⟩ := hsame
      rw [if_pos ⟨rfl, rfl⟩] at hptr ⊢
      change ((db.row? table row).map f).elim _ _ = _
      rw [h.chain_setTransaction_push ht hid hptr (h.others_pointersOn ht hslot hconf),
        ← h.chains, keys_eq hslot, hslot, htid]
      exact hkeys
    · rw [if_neg hsame, append_nil] at hptr
      rw [if_neg hsame, h.chain_setTransaction ht hid hptr, ← h.chains]
      rfl

theorem refines_insert (h : db.Invariant) (ht : db.transactionManager.active? id = some t)
    (table : ℕ) (tuple : List V) {db' : Database V C}
    (hmanager : db'.transactionManager = db.transactionManager.setTransaction
      (t.createEntry (.tuple .insertTuple table (db.tables table).rows.length)))
    (hrows : (db'.tables table).rows =
      (db.tables table).rows ++ [inserted ⟨id, t.nextIndex⟩ id tuple])
    (hothers : ∀ table', table' ≠ table → (db'.tables table').rows = (db.tables table').rows) :
    Refines db db' [.write id ⟨table, (db.tables table).rows.length, .insert tuple⟩] := by
  obtain ⟨htm, htid⟩ := h.active?_eq_some_iff.1 ht
  have hid : (t.createEntry
      (.tuple .insertTuple table (db.tables table).rows.length)).transactionId = id := htid
  refine Refines.of_event h ⟨⟨_, mem_running htm, htid⟩, ?_⟩ ?_ (fun table' row' => ?_) ?_
  · simp [Writable, Database.store]
  · have hrunning := h.setTransaction_running ht hid rfl
    simp only [Database.store, apply, writeRow, hmanager, hrunning]
    congr 1
    funext table'
    by_cases htable : table' = table
    · subst htable
      rw [update_self, hrows, map_append]
      rfl
    · rw [update_of_ne htable, hothers table' htable]
  · have hptr := t.pointersOn_createEntry_tuple .insertTuple table (db.tables table).rows.length
      table' row'
    rw [hmanager]
    by_cases hsame : table = table' ∧ (db.tables table).rows.length = row'
    · obtain ⟨rfl, rfl⟩ := hsame
      rw [if_pos ⟨rfl, rfl⟩] at hptr
      -- the row is new, so no transaction has a version of it
      have hnone : db.row? table (db.tables table).rows.length = none := by
        rw [row?_eq]
        exact getElem?_eq_none le_rfl
      have hempty : ∀ u ∈ db.transactionManager.activeTransactions,
          u.pointersOn table (db.tables table).rows.length = [] := by
        intro u hu
        by_contra hne
        obtain ⟨slot, hslot, -⟩ := h.exists_record hu hne
        simp [hnone] at hslot
      rw [h.chain_setTransaction_push ht hid hptr fun u hu _ => hempty u hu, ← h.chains,
        keys, keys, hnone, row?_eq, hrows, htid]
      simp [inserted, key]
    · rw [if_neg hsame, append_nil] at hptr
      rw [h.chain_setTransaction ht hid hptr, ← h.chains, keys, keys, row?_eq, row?_eq]
      by_cases htable : table' = table
      · subst htable
        have hne : row' ≠ (db.tables table').rows.length := fun heq => hsame ⟨rfl, heq.symm⟩
        rw [hrows]
        rcases Nat.lt_or_ge row' (db.tables table').rows.length with hlt | hge
        · rw [getElem?_append_left hlt]
        · rw [getElem?_eq_none (by simp; omega), getElem?_eq_none hge]
      · rw [hothers table' htable]
  · rw [hmanager]
    exact h.setTransaction_uncommitted ht hid rfl

theorem refines_set (h : db.Invariant) (ht : db.transactionManager.active? id = some t)
    (hslot : db.row? table row = some slot) (hsaved : slot.savedBy id) (column : ℕ) (value : V) :
    Refines db
      { db with tables := db.tables.modifyRow table row (setColumn column value) }
      [.write id ⟨table, row, .set column value⟩] := by
  obtain ⟨htm, htid⟩ := h.active?_eq_some_iff.1 ht
  have hsame := h.sameNumbers hslot
  refine Refines.of_event h ⟨⟨_, mem_running htm, htid⟩, ?_⟩ ?_ (fun table' row' => ?_)
    h.uncommitted
  · have hnew := h.store.recent_ne ⟨_, mem_running htm, htid⟩
    refine (writable_iff_of_not_insert rfl).2 ⟨_, ?_,
      VersionedRow.not_conflicts_of_ownedBy (h.rowInvariant hslot) (hsaved.ownedBy hsame) hnew⟩
    rw [row?_eq] at hslot
    simp [Database.store, hslot]
  · rw [apply, writeRow_of_not_insert _ _ rfl]
    simp only [Database.store,
      store_rows_modifyRow hslot (hsaved.versioned_setColumn hsame column value)]
  · rw [keys, row?, Tables.row?_modifyRow]
    by_cases hrow : table = table' ∧ row = row'
    · obtain ⟨rfl, rfl⟩ := hrow
      rw [if_pos ⟨rfl, rfl⟩, ← h.chains, keys]
      change ((db.row? table row).map _).elim _ _ = _
      rw [hslot]
      rfl
    · rw [if_neg hrow, ← h.chains]
      rfl

end Database.Invariant

end DuckDB
