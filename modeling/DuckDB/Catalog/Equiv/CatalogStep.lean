import DuckDB.Catalog.Equiv.CatalogSet

/-!
# Operations on a catalog set keep the invariant

`CatalogWrite.apply_cases` says what `CreateEntry`, `AlterEntry` and `DropEntry` can do: leave the
set alone, or put one version on top of a chain whose newest version has no conflict. From this,
and from what commit, rollback and cleanup do to one name, every operation keeps
`CatalogState.Invariant` (`step`), and so does every run (`run`).
-/

namespace DuckDB

open List Transaction Function CatalogHistory CatalogSet TransactionManager Database CatalogVersion

variable {E : Type*}

/-! ### The transactions -/

namespace TransactionManager.Managed

variable {m : TransactionManager EntryPointer} {t t' : Transaction EntryPointer} {id : ℕ}

theorem active?_eq_some_iff (h : m.Managed) :
    m.active? id = some t ↔ t ∈ m.activeTransactions ∧ t.transactionId = id := by
  obtain ⟨tables, h⟩ := h
  exact h.active?_eq_some_iff

theorem le_id (h : m.Managed) (ht : t ∈ m.activeTransactions) :
    transactionIdStart ≤ t.transactionId := by
  obtain ⟨tables, h⟩ := h
  exact h.store.active_ge _ (Database.Invariant.mem_running ht)

theorem startTime_lt (h : m.Managed) (ht : t ∈ m.activeTransactions) :
    t.startTime < m.currentStartTimestamp ∧ t.startTime < transactionIdStart := by
  obtain ⟨tables, h⟩ := h
  exact h.store.active_start _ (Database.Invariant.mem_running ht)

theorem id_lt (h : m.Managed) (ht : t ∈ m.activeTransactions) :
    t.transactionId < m.currentTransactionId := by
  obtain ⟨tables, h⟩ := h
  exact (h.store.active_id _ (Database.Invariant.mem_running ht)).2

theorem split (h : m.Managed) (ht : t ∈ m.activeTransactions) :
    ∃ before after, m.activeTransactions = before ++ t :: after ∧
      m.others t.transactionId = before ++ after ∧
      ∀ u ∈ before ++ after, u.transactionId ≠ t.transactionId := by
  obtain ⟨tables, h⟩ := h
  obtain ⟨before, after, hsplit⟩ := append_of_mem ht
  have hnd : (m.activeTransactions.map (·.transactionId)).Nodup :=
    (nodup_append.1 h.ids_nodup).1
  rw [hsplit, map_append, map_cons, nodup_middle, nodup_cons, ← map_append] at hnd
  have hne : ∀ u ∈ before ++ after, u.transactionId ≠ t.transactionId := fun u hu heq =>
    hnd.1 (heq ▸ mem_map_of_mem hu)
  refine ⟨before, after, hsplit, ?_, hne⟩
  rw [others, hsplit, filter_append, filter_cons_of_neg (by simp), ← filter_append]
  exact filter_eq_self.2 fun u hu => by simpa using hne u hu

theorem setTransaction_eq {before after : List (Transaction EntryPointer)}
    (hsplit : m.activeTransactions = before ++ t :: after)
    (hne : ∀ u ∈ before ++ after, u.transactionId ≠ t.transactionId)
    (hid : t'.transactionId = t.transactionId) :
    (m.setTransaction t').activeTransactions = before ++ t' :: after := by
  have hkeep : ∀ l : List (Transaction EntryPointer), (∀ u ∈ l, u ∈ before ++ after) →
      l.map (fun u => if u.transactionId = t'.transactionId then t' else u) = l := by
    intro l hl
    conv_rhs => rw [← map_id l]
    refine map_congr_left fun u hu => ?_
    rw [if_neg (hid ▸ hne u (hl u hu)), id]
  rw [setTransaction, hsplit, map_append, map_cons, hkeep before fun u hu => mem_append_left _ hu,
    hkeep after fun u hu => mem_append_right _ hu, if_pos hid.symm]

section

variable (h : m.Managed)

include h

theorem start : m.startTransaction.1.Managed := by
  obtain ⟨tables, h⟩ := h
  exact ⟨tables, (h.step (fun _ => TableChecks.unconstrained) .startTransaction).invariant⟩

theorem beginQuery (ht : m.active? id = some t) :
    ({ m.setTransaction { t with activeQuery := m.currentQueryNumber } with
        currentQueryNumber := m.currentQueryNumber + 1 } :
      TransactionManager EntryPointer).Managed := by
  obtain ⟨tables, h⟩ := h
  have hstep := (h.step (fun _ => TableChecks.unconstrained) (.beginQuery id)).invariant
  simp only [step, withActive, ht] at hstep
  exact ⟨tables, hstep⟩

theorem endQuery (ht : m.active? id = some t) :
    (m.setTransaction { t with activeQuery := maximumQueryId }).Managed := by
  obtain ⟨tables, h⟩ := h
  have hstep := (h.step (fun _ => TableChecks.unconstrained) (.endQuery id)).invariant
  simp only [step, withActive, ht] at hstep
  exact ⟨tables, hstep⟩

theorem pushCatalogEntry (ht : m.active? id = some t) (entry : EntryPointer) :
    (m.setTransaction (t.pushCatalogEntry entry)).Managed := by
  obtain ⟨tables, h⟩ := h
  have hstep :=
    (h.step (fun _ => TableChecks.unconstrained) (.pushCatalogEntry id entry)).invariant
  simp only [step, withActive, ht] at hstep
  exact ⟨tables, hstep⟩

section

variable (ht : t ∈ m.activeTransactions)

include ht

theorem commit :
    (({ m with currentStartTimestamp := m.currentStartTimestamp + 1 } :
        TransactionManager EntryPointer).removeTransaction
      { t with commitId := m.currentStartTimestamp }).Managed := by
  obtain ⟨tables, h⟩ := h
  exact ⟨_, (h.refines_commit ht).invariant⟩

theorem rollback : (m.removeTransaction t.clearUndo).Managed := by
  obtain ⟨tables, h⟩ := h
  exact ⟨_, (h.refines_rollback ht).invariant⟩

theorem uncommitted : t.commitId = 0 := by
  obtain ⟨tables, h⟩ := h
  exact h.uncommitted t ht

theorem clock_pos : m.currentStartTimestamp ≠ 0 :=
  Nat.ne_of_gt (Nat.lt_of_le_of_lt (Nat.zero_le _) (h.startTime_lt ht).1)

end

end

end TransactionManager.Managed

/-! ### New versions -/

/-- The catalog set once the name has a version: the dummy node, if it had none. -/
def CatalogSet.known (name : String) (set : CatalogSet E) : CatalogSet E :=
  match set.data name with
  | [] =>
    { data := update set.data name [set.dummyNode]
      nextAddress := set.nextAddress + 1 }
  | _ :: _ => set

theorem CatalogSet.known_of_ne_nil {name : String} {set : CatalogSet E} (h : set.data name ≠ []) :
    set.known name = set := by
  unfold known
  split
  · contradiction
  · rfl

/-- The set has been left alone, or the name has a new version on top of one without conflict. -/
def CatalogSet.PushedOrKept (name : String) (t : Transaction EntryPointer) (set : CatalogSet E)
    (result : (Transaction EntryPointer × CatalogSet E) × Except Exception Bool) : Prop :=
  (result.1 = (t, set) ∧ result.2 ≠ .ok true) ∨
    ∃ current older value, (set.known name).data name = current :: older ∧
      current.conflicts t = false ∧
      result = (push t name value current older (set.known name), .ok true)

namespace CatalogSet

variable {name : String} {t : Transaction EntryPointer} {set : CatalogSet E}

theorem pushedOrKept_of_cons {current : CatalogVersion E} {older : List (CatalogVersion E)}
    (hdata : set.data name = current :: older) (hconf : ¬current.conflicts t = true)
    (value : Option E) :
    set.PushedOrKept name t (push t name value current older set, .ok true) := by
  have hknown : set.known name = set := known_of_ne_nil (by simp [hdata])
  refine .inr ⟨current, older, value, ?_, by simpa using hconf, ?_⟩
  · rw [hknown, hdata]
  · rw [hknown]

theorem createEntry_cases (value : E) : set.PushedOrKept name t (set.createEntry name value t) := by
  unfold createEntry
  split
  · next hdata =>
    have hknown : set.known name =
        { data := update set.data name [set.dummyNode]
          nextAddress := set.nextAddress + 1 } := by
      simp only [known, hdata]
    refine .inr ⟨set.dummyNode, [], some value, ?_, rfl, ?_⟩
    · simp [hknown]
    · simp [push, hknown]
  · next current older hdata =>
    split_ifs with hconf hsome
    · exact .inl ⟨rfl, by simp⟩
    · exact .inl ⟨rfl, by simp⟩
    · exact pushedOrKept_of_cons hdata hconf (some value)

theorem alterEntry_cases (alter : E → Except Exception E) :
    set.PushedOrKept name t (set.alterEntry name alter t) := by
  unfold alterEntry
  split
  · exact .inl ⟨rfl, by simp⟩
  · next current older hdata =>
    split_ifs with hconf
    · exact .inl ⟨rfl, by simp⟩
    · split
      · exact .inl ⟨rfl, by simp⟩
      · split
        · exact .inl ⟨rfl, by simp⟩
        · exact pushedOrKept_of_cons hdata hconf _

theorem dropEntry_cases (dependents : E → Option Exception) :
    set.PushedOrKept name t (set.dropEntry name dependents t) := by
  unfold dropEntry
  split
  · exact .inl ⟨rfl, by simp⟩
  · next current older hdata =>
    split_ifs with hconf
    · exact .inl ⟨rfl, by simp⟩
    · split
      · exact .inl ⟨rfl, by simp⟩
      · split
        · exact .inl ⟨rfl, by simp⟩
        · exact pushedOrKept_of_cons hdata hconf none

end CatalogSet

/-- **What an operation can do to a name**: nothing, or one version on top of a version without
conflict. -/
theorem CatalogWrite.apply_cases (write : CatalogWrite E) (name : String)
    (t : Transaction EntryPointer) (set : CatalogSet E) :
    set.PushedOrKept name t (write.apply name t set) := by
  cases write with
  | create value => exact createEntry_cases value
  | alter info => exact alterEntry_cases info
  | drop dependents => exact dropEntry_cases dependents

theorem CatalogWrite.written_of_ne {write : CatalogWrite E} {name : String}
    {t : Transaction EntryPointer} {set : CatalogSet E}
    (h : (write.apply name t set).2 ≠ .ok true) : write.written name t set = [] := by
  unfold written
  split
  · next heq => exact absurd (congrArg Prod.snd heq) h
  · rfl

theorem CatalogWrite.written_of_push {write : CatalogWrite E} {name : String}
    {t : Transaction EntryPointer} {set set' : CatalogSet E} {value : Option E}
    {current : CatalogVersion E} {older : List (CatalogVersion E)}
    (h : write.apply name t set = (push t name value current older set', .ok true)) :
    write.written name t set = [(name, value)] := by
  simp [written, h, push]

/-! ### The operations -/

namespace CatalogState.Invariant

variable {s : CatalogState E} {h : CatalogHistory E} {t : Transaction EntryPointer} {id : ℕ}

theorem known (hs : s.Invariant h) (name : String) :
    ({ s with set := s.set.known name } : CatalogState E).Invariant h := by
  by_cases hdata : s.set.data name = []
  · have hknown : s.set.known name =
        { data := update s.set.data name [s.set.dummyNode]
          nextAddress := s.set.nextAddress + 1 } := by
      simp only [CatalogSet.known, hdata]
    refine ⟨hs.managed, fun name' => ?_, hs.idle, hs.committed, hs.sorted⟩
    have hn := hs.names name'
    rw [hknown]
    by_cases hname : name' = name
    · subst hname
      rw [hdata] at hn
      simpa [CatalogSet.dummyNode] using hn.dummy
    · have hsame : update s.set.data name [s.set.dummyNode] name' = s.set.data name' :=
        update_of_ne hname _ _
      simp only [hsame]
      exact { hn with fresh := fun v hv => (hn.fresh v hv).trans (Nat.lt_succ_self _) }
  · rw [CatalogSet.known_of_ne_nil hdata]
    exact hs

/-- The transactions other than `t`. -/
theorem idle_others (hs : s.Invariant h) {before after : List (Transaction EntryPointer)}
    (hsplit : s.transactionManager.activeTransactions = before ++ t :: after)
    (hid : ∀ u ∈ before ++ after, u.transactionId ≠ id) (hne : id ≠ t.transactionId) :
    h.pending id = [] := by
  refine hs.idle id fun u hu => ?_
  rw [hsplit] at hu
  simp only [mem_append, mem_cons] at hu
  rcases hu with hu | rfl | hu
  · exact hid u (by simp [hu])
  · exact Ne.symm hne
  · exact hid u (by simp [hu])

theorem replace {m' : TransactionManager EntryPointer} (hs : s.Invariant h)
    (t' : Transaction EntryPointer) (ht : t ∈ s.transactionManager.activeTransactions)
    (hid : t'.transactionId = t.transactionId) (hstart : t'.startTime = t.startTime)
    (hundo : t'.undoBuffer = t.undoBuffer) (hmanaged : m'.Managed)
    (hactive : m'.activeTransactions = (s.transactionManager.setTransaction t').activeTransactions)
    (hrecent : m'.recentlyCommittedTransactions =
      s.transactionManager.recentlyCommittedTransactions)
    (hclock : m'.currentStartTimestamp = s.transactionManager.currentStartTimestamp) :
    ({ s with transactionManager := m' } : CatalogState E).Invariant h := by
  obtain ⟨before, after, hsplit, -, hne⟩ := hs.managed.split ht
  have hset : m'.activeTransactions = before ++ t' :: after :=
    hactive.trans (TransactionManager.Managed.setTransaction_eq hsplit hne hid)
  have hmem : ∀ u ∈ before ++ t' :: after, ∃ w ∈ before ++ t :: after,
      u.transactionId = w.transactionId ∧ u.startTime = w.startTime := by
    intro u hu
    simp only [mem_append, mem_cons] at hu ⊢
    rcases hu with hu | rfl | hu
    · exact ⟨u, .inl hu, rfl, rfl⟩
    · exact ⟨t, .inr (.inl rfl), hid, hstart⟩
    · exact ⟨u, .inr (.inr hu), rfl, rfl⟩
  refine ⟨hmanaged, fun name => ?_, fun id hid' => ?_, fun c hc => ⟨?_, fun u hu => ?_⟩, hs.sorted⟩
  · have hn := hs.names name
    rw [hsplit] at hn
    rw [hset, hrecent]
    exact hn.congr hid hstart (by rw [entriesOn, entriesOn, hundo]) (fun _ => rfl) rfl le_rfl
  · refine hs.idle_others hsplit (fun u hu => hid' u ?_) fun heq => hid' t' ?_ (hid.trans heq.symm)
    · rw [hset]
      exact (mem_append.1 hu).elim (mem_append_left _) fun hu => by simp [hu]
    · simp [hset]
  · rw [hclock]
    exact (hs.committed c hc).1
  · obtain ⟨w, hw, -, hwstart⟩ := hmem u (hset ▸ hu)
    rw [hwstart]
    exact (hs.committed c hc).2 w (hsplit ▸ hw)

theorem push {name : String} {current : CatalogVersion E} {older : List (CatalogVersion E)}
    (hs : s.Invariant h) (ht : s.transactionManager.active? id = some t)
    (hdata : s.set.data name = current :: older) (hconf : current.conflicts t = false)
    (value : Option E) :
    ({ transactionManager := s.transactionManager.setTransaction
          (push t name value current older s.set).1
       set := (push t name value current older s.set).2 } : CatalogState E).Invariant
      (h.record (.write id (name, value))) := by
  obtain ⟨htm, rfl⟩ := hs.managed.active?_eq_some_iff.1 ht
  obtain ⟨before, after, hsplit, -, hne⟩ := hs.managed.split htm
  set t' := t.pushCatalogEntry ⟨name, current.address⟩ with ht'
  have hid : t'.transactionId = t.transactionId := rfl
  have hstart : t'.startTime = t.startTime := rfl
  have hset : (s.transactionManager.setTransaction t').activeTransactions =
      before ++ t' :: after := TransactionManager.Managed.setTransaction_eq hsplit hne hid
  have hrecent : (s.transactionManager.setTransaction t').recentlyCommittedTransactions =
      s.transactionManager.recentlyCommittedTransactions := rfl
  refine ⟨hs.managed.pushCatalogEntry ht _, fun name' => ?_, fun id hidle => ?_,
    fun c hc => ⟨(hs.committed c hc).1, fun u hu => ?_⟩, hs.sorted⟩
  · have hn := hs.names name'
    rw [hsplit] at hn
    simp only [push, ← ht', hset, hrecent]
    by_cases hname : name' = name
    · subst hname
      rw [hdata] at hn
      have hge : ∀ u ∈ before ++ after, transactionIdStart ≤ u.transactionId := by
        intro u hu
        refine hs.managed.le_id ?_
        rw [hsplit]
        simp only [mem_append, mem_cons] at hu ⊢
        tauto
      have hentries : t'.entriesOn name' = t.entriesOn name' ++ [current.address] := by
        rw [ht', entriesOn_pushCatalogEntry, if_pos rfl]
      have hpush := hn.push hne (hn.others_eq_nil hne hge hconf) hid hstart hentries value
      simpa using hpush
    · have hsame : ∀ versions, update s.set.data name versions name' =
          s.set.data name' := fun versions => update_of_ne hname _ _
      rw [hsame]
      refine hn.congr hid hstart ?_ (fun owner => ?_) rfl (Nat.le_succ _)
      · rw [ht', entriesOn_pushCatalogEntry, if_neg (Ne.symm hname), append_nil]
      · by_cases howner : owner = t.transactionId
        · subst howner
          simp [record, versionsOf, Ne.symm hname]
        · simp [record, howner]
  · have hne' : id ≠ t.transactionId := fun heq =>
      hidle t' (by simp [push, ← ht', hset]) heq.symm
    have hpending : (h.record (.write t.transactionId (name, value))).pending id = h.pending id :=
      update_of_ne hne' _ _
    rw [hpending]
    refine hs.idle_others hsplit (fun u hu => hidle u ?_) hne'
    rcases mem_append.1 hu with hu | hu <;> simp [push, ← ht', hset, hu]
  · simp only [push, ← ht', hset, mem_append, mem_cons] at hu
    have hmem : ∀ u ∈ before ++ t :: after, c.commitId ≠ u.startTime := fun u hu =>
      (hs.committed c hc).2 u (hsplit ▸ hu)
    rcases hu with hu | rfl | hu
    · exact hmem u (by simp [hu])
    · exact hmem t (by simp)
    · exact hmem u (by simp [hu])

theorem names_remove {h' : CatalogHistory E} {m : TransactionManager EntryPointer}
    {set : CatalogSet E} {t' : Transaction EntryPointer}
    (hnames : ∀ name, NameInvariant name h' (m.others t'.transactionId) (m.recentlyCommitted t')
      (set.data name) set.nextAddress) (name : String) :
    NameInvariant name h' (m.removeTransaction t').activeTransactions
      (m.removeTransaction t').recentlyCommittedTransactions
      (((m.cleanable t').foldl cleanupEntries set).data name)
      ((m.cleanable t').foldl cleanupEntries set).nextAddress := by
  obtain ⟨hdata, hnext⟩ := data_foldl_cleanupEntries name (m.cleanable t') set
  rw [hdata, hnext]
  refine (hnames name).clean fun u hu w hw => ?_
  have hlow := Database.Invariant.lowestStartTime_le hw
  have hlt : u.commitId < lowestStartTime (m.others t'.transactionId) := by
    simpa using hu
  exact hlt.trans_le hlow

section

variable (hs : s.Invariant h)

include hs

theorem commit (ht : t ∈ s.transactionManager.activeTransactions) :
    (s.commitTransaction t).Invariant
      (h.record (.commit t.transactionId s.transactionManager.currentStartTimestamp)) := by
  obtain ⟨before, after, hsplit, hothers, hne⟩ := hs.managed.split ht
  have hactive : (s.commitTransaction t).transactionManager.activeTransactions = before ++ after :=
    hothers
  have hpos := hs.managed.clock_pos ht
  refine ⟨hs.managed.commit ht, names_remove fun name => ?_, fun id hid => ?_, fun c hc => ?_, ?_⟩
  · have hn := hs.names name
    rw [hsplit] at hn
    have hcommit := hn.commit hne s.transactionManager.currentStartTimestamp
    simp only [recentlyCommitted, ne_eq, hpos, not_false_eq_true, if_true]
    rw [data_commitEntries, commitEntries, nextAddress_foldl_onEntry]
    exact hothers ▸ hcommit
  · by_cases hid' : id = t.transactionId
    · subst hid'
      exact update_self _ _ _
    · have hpending : (h.record (.commit t.transactionId
          s.transactionManager.currentStartTimestamp)).pending id = h.pending id :=
        update_of_ne hid' _ _
      rw [hpending]
      exact hs.idle_others hsplit (fun u hu => hid u (hactive ▸ hu)) hid'
  · have hmem : ∀ u ∈ (s.commitTransaction t).transactionManager.activeTransactions,
        u ∈ s.transactionManager.activeTransactions := fun u hu => (mem_filter.1 hu).1
    rcases mem_append.1 hc with hc | hc
    · obtain ⟨hlt, hstart⟩ := hs.committed c hc
      exact ⟨hlt.trans (Nat.lt_succ_self _), fun u hu => hstart u (hmem u hu)⟩
    · rw [mem_singleton.1 hc]
      exact ⟨Nat.lt_succ_self _, fun u hu => (hs.managed.startTime_lt (hmem u hu)).1.ne'⟩
  · refine pairwise_append.2 ⟨hs.sorted, pairwise_singleton _ _, fun c hc d hd => ?_⟩
    rw [mem_singleton.1 hd]
    exact (hs.committed c hc).1

theorem rollback (ht : t ∈ s.transactionManager.activeTransactions) :
    (s.rollbackTransaction t).Invariant (h.record (.rollback t.transactionId)) := by
  obtain ⟨before, after, hsplit, hothers, hne⟩ := hs.managed.split ht
  have hactive : (s.rollbackTransaction t).transactionManager.activeTransactions =
      before ++ after := hothers
  have huncommitted : t.commitId = 0 := hs.managed.uncommitted ht
  have hzero : t.clearUndo.commitId = 0 := huncommitted
  refine ⟨hs.managed.rollback ht, names_remove fun name => ?_, fun id hid => ?_, fun c hc => ?_,
    hs.sorted⟩
  · have hn := hs.names name
    rw [hsplit] at hn
    have hrollback := hn.rollback hne
    simp only [recentlyCommitted, ne_eq, hzero, not_true_eq_false, if_false]
    rw [data_rollbackEntries, rollbackEntries, nextAddress_foldl_onEntry]
    exact hothers ▸ hrollback
  · by_cases hid' : id = t.transactionId
    · subst hid'
      exact update_self _ _ _
    · have hpending : (h.record (.rollback t.transactionId)).pending id = h.pending id :=
        update_of_ne hid' _ _
      rw [hpending]
      exact hs.idle_others hsplit (fun u hu => hid u (hactive ▸ hu)) hid'
  · obtain ⟨hlt, hstart⟩ := hs.committed c hc
    exact ⟨hlt, fun u hu => hstart u (mem_filter.1 hu).1⟩

theorem start :
    ({ s with transactionManager := s.transactionManager.startTransaction.1 } :
      CatalogState E).Invariant h := by
  by_cases hlt : transactionIdStart ≤ s.transactionManager.currentStartTimestamp
  · have hsame : s.transactionManager.startTransaction.1 = s.transactionManager := by
      simp [startTransaction, hlt]
    rw [hsame]
    exact hs
  · have hmanaged := hs.managed.start
    simp only [startTransaction, if_neg hlt] at hmanaged ⊢
    have hnew : ∀ u ∈ s.transactionManager.activeTransactions,
        u.transactionId ≠ s.transactionManager.currentTransactionId := fun u hu =>
      (hs.managed.id_lt hu).ne
    refine ⟨hmanaged, fun name => ?_, fun id hid => ?_, fun c hc => ?_, hs.sorted⟩
    · exact (hs.names name).start rfl (hs.idle _ hnew) fun c hc => (hs.committed c hc).1
    · exact hs.idle id fun u hu => hid u (mem_append_left _ hu)
    · obtain ⟨hclock, hstart⟩ := hs.committed c hc
      refine ⟨hclock.trans (Nat.lt_succ_self _), fun u hu => ?_⟩
      rcases mem_append.1 hu with hu | hu
      · exact hstart u hu
      · rw [mem_singleton.1 hu]
        exact hclock.ne

theorem write {name : String} (ht : s.transactionManager.active? id = some t)
    (write : CatalogWrite E) :
    ({ transactionManager := s.transactionManager.setTransaction (write.apply name t s.set).1.1
       set := (write.apply name t s.set).1.2 } : CatalogState E).Invariant
      (((write.written name t s.set).map (.write id)).foldl record h) := by
  obtain ⟨hkept, hresult⟩ | ⟨current, older, value, hdata, hconf, happly⟩ :=
    write.apply_cases name t s.set
  · have hself : s.transactionManager.setTransaction t = s.transactionManager := by
      obtain ⟨tables, hdb⟩ := hs.managed
      exact hdb.setTransaction_self ht
    rw [hkept, CatalogWrite.written_of_ne hresult, hself]
    exact hs
  · rw [CatalogWrite.written_of_push happly, happly]
    exact (hs.known name).push ht hdata hconf value

/-- Nothing happens without an active transaction. -/
theorem withActive {events : List (CatalogEvent E)}
    {operation : Transaction EntryPointer → CatalogState E}
    (hnone : s.transactionManager.active? id = none → events = [])
    (hsome : ∀ t, s.transactionManager.active? id = some t →
      (operation t).Invariant (events.foldl record h)) :
    (s.withActive id operation).Invariant (events.foldl record h) := by
  rw [CatalogState.withActive]
  cases ht : s.transactionManager.active? id with
  | none =>
    rw [hnone ht]
    exact hs
  | some t => exact hsome t ht

/-- **Every operation keeps the invariant.** -/
theorem step (op : CatalogOp E) : (s.step op).Invariant ((s.events op).foldl record h) := by
  cases op with
  | startTransaction => exact hs.start
  | beginQuery id =>
    refine hs.withActive (fun _ => rfl) fun t ht => ?_
    exact hs.replace { t with activeQuery := s.transactionManager.currentQueryNumber }
      (hs.managed.active?_eq_some_iff.1 ht).1 rfl rfl rfl (hs.managed.beginQuery ht) rfl rfl rfl
  | endQuery id =>
    refine hs.withActive (fun _ => rfl) fun t ht => ?_
    exact hs.replace { t with activeQuery := maximumQueryId }
      (hs.managed.active?_eq_some_iff.1 ht).1 rfl rfl rfl (hs.managed.endQuery ht) rfl rfl rfl
  | write id name write =>
    refine hs.withActive (fun hnone => by simp [events, hnone]) fun t ht => ?_
    simp only [events, ht]
    exact hs.write ht write
  | commit id =>
    refine hs.withActive (fun hnone => by simp [events, hnone]) fun t ht => ?_
    obtain ⟨htm, rfl⟩ := hs.managed.active?_eq_some_iff.1 ht
    simp only [events, ht]
    exact hs.commit htm
  | rollback id =>
    refine hs.withActive (fun hnone => by simp [events, hnone]) fun t ht => ?_
    obtain ⟨htm, rfl⟩ := hs.managed.active?_eq_some_iff.1 ht
    simp only [events, ht]
    exact hs.rollback htm

/-- **Every reachable catalog set satisfies the invariant.** -/
theorem run (ops : List (CatalogOp E)) : (s.run ops).Invariant ((s.trace ops).foldl record h) := by
  induction ops generalizing s h with
  | nil => exact hs
  | cons op ops ih =>
    rw [CatalogState.trace, Theory.trace, foldl_append]
    exact ih (hs.step op)

end

end CatalogState.Invariant

theorem CatalogState.invariant_initial : ({} : CatalogState E).Invariant {} where
  managed := ⟨fun _ => DataTable.empty 0, Database.Invariant.invariant_initial fun _ => 0⟩
  names name :=
    { linked := ⟨trivial, nodup_nil⟩
      fresh := by simp
      links := rfl
      values := nil_prefix
      unknown := fun _ => rfl
      exclusive := List.Pairwise.nil
      pending := by simp
      lost := by simp }
  idle _ _ := rfl
  committed := by simp
  sorted := List.Pairwise.nil

end DuckDB
