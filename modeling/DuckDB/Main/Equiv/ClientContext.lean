import DuckDB.Main.ClientContext
import DuckDB.Theory.Run
import Mathlib.Data.List.Perm.Basic
import Mathlib.Data.List.TakeWhile

/-!
# When undo memory is freed

`RemoveTransaction` frees the undo buffer of a transaction once all queries have finished that were
running when its versions were unlinked; `highest_active_query` and `lowest_active_query` are meant
to tell.

* `QueryState.Invariant`: a query that was running when a transaction's versions were unlinked has a
  number below the `highest_active_query` of that transaction.
* `frees_finished`: this is right as long as no query starts between the loop of `RemoveTransaction`
  and the rest of it, except for the statement that ends its own transaction.
* `not_freesForOthers_race`: a query that does start in between can be reading versions that are
  freed.
-/

namespace DuckDB

open Theory List TransactionManager QueryState

variable {C : Type*}

/-! ### The active queries as the transaction manager has them -/

namespace TransactionManager

variable {manager : TransactionManager C} {t u : Transaction C} {id : ℕ}

/-- The `active_query` of each active transaction. -/
def registered (manager : TransactionManager C) : List QueryId :=
  manager.activeTransactions.map fun t => ⟨t.transactionId, t.activeQuery⟩

/-- The ids of all transactions the manager knows. -/
def ids (manager : TransactionManager C) : List ℕ :=
  manager.registered.map (·.transactionId) ++
    (manager.recentlyCommittedTransactions.map (·.transactionId) ++
      manager.oldTransactions.map (·.transactionId))

theorem active?_some (h : manager.active? id = some t) :
    t ∈ manager.activeTransactions ∧ t.transactionId = id :=
  ⟨mem_of_find?_eq_some h, by simpa using find?_some h⟩

theorem mem_registered (h : t ∈ manager.activeTransactions) :
    ⟨t.transactionId, t.activeQuery⟩ ∈ manager.registered :=
  mem_map.2 ⟨t, h, rfl⟩

theorem registered_setTransaction :
    (manager.setTransaction t).registered = manager.registered.map fun r =>
      if r.transactionId = t.transactionId then ⟨t.transactionId, t.activeQuery⟩ else r := by
  simp only [registered, setTransaction, map_map]
  refine map_congr_left fun u _ => ?_
  by_cases hu : u.transactionId = t.transactionId <;> simp [hu]

theorem mem_registered_setTransaction {r : QueryId}
    (h : r ∈ (manager.setTransaction t).registered) :
    r = ⟨t.transactionId, t.activeQuery⟩ ∨
      r ∈ manager.registered ∧ r.transactionId ≠ t.transactionId := by
  rw [registered_setTransaction] at h
  obtain ⟨r', hr', rfl⟩ := mem_map.1 h
  split_ifs with hid
  · exact .inl rfl
  · exact .inr ⟨hr', hid⟩

theorem map_registered_setTransaction :
    (manager.setTransaction t).registered.map (·.transactionId) =
      manager.registered.map (·.transactionId) := by
  rw [registered_setTransaction, map_map]
  refine map_congr_left fun r _ => ?_
  by_cases hr : r.transactionId = t.transactionId <;> simp [hr]

theorem ids_setTransaction (t : Transaction C) (manager : TransactionManager C) :
    (manager.setTransaction t).ids = manager.ids := by
  rw [ids, map_registered_setTransaction]
  rfl

theorem lowestActiveQuery_le {others : List (Transaction C)} (h : t ∈ others) :
    lowestActiveQuery others ≤ t.activeQuery :=
  (le_foldl_min_iff.1 le_rfl).2 t h

/-- What is freed was waiting for it, and unless no transaction is left, its highest active query is
below the lowest one that the loop found. -/
theorem mem_freed {lowest : ℕ} (h : u ∈ manager.freed lowest t) : u ∈ manager.awaitingGC t ∧
      (manager.others t.transactionId ≠ [] → u.highestActiveQuery < lowest) := by
  unfold freed at h
  split_ifs at h with hempty
  · exact ⟨h, fun hne => absurd (List.isEmpty_iff.1 hempty) hne⟩
  · exact ⟨(takeWhile_sublist _).subset h, fun _ => by simpa using mem_takeWhile_imp h⟩

/-- Who waits for its memory to be freed: who did already, or who joins with the next query number
as its highest active query. -/
theorem mem_awaitingGC (h : u ∈ manager.awaitingGC t) :
    u ∈ manager.oldTransactions ∨ u.highestActiveQuery = manager.currentQueryNumber := by
  unfold awaitingGC at h
  rcases mem_append.1 h with h | h
  · split_ifs at h with hcommitted
    · exact .inl h
    · rcases mem_append.1 h with h | h
      · exact .inl h
      · rw [mem_singleton.1 h]
        exact .inr rfl
  · obtain ⟨v, -, rfl⟩ := mem_map.1 h
    exact .inr rfl

/-- Ending a transaction takes its id out of the active ones. -/
theorem perm_others (hnodup : (manager.registered.map (·.transactionId)).Nodup)
    (ht : t ∈ manager.activeTransactions) :
    (t.transactionId :: (manager.others t.transactionId).map (·.transactionId)).Perm
      (manager.registered.map (·.transactionId)) := by
  have hids : manager.registered.map (·.transactionId) =
      manager.activeTransactions.map (·.transactionId) := by
    rw [registered, map_map]
    rfl
  rw [hids] at hnodup ⊢
  have hothers : (t.transactionId ::
      (manager.others t.transactionId).map (·.transactionId)).Nodup := by
    refine nodup_cons.2 ⟨?_, hnodup.sublist (filter_sublist.map _)⟩
    rintro hmem
    obtain ⟨u, hu, heq⟩ := mem_map.1 hmem
    simp [others, heq] at hu
  refine (perm_ext_iff_of_nodup hothers hnodup).2 fun id => ?_
  rw [mem_cons, mem_map, mem_map]
  constructor
  · rintro (rfl | ⟨u, hu, rfl⟩)
    · exact ⟨t, ht, rfl⟩
    · exact ⟨u, (mem_filter.1 hu).1, rfl⟩
  · rintro ⟨u, hu, rfl⟩
    by_cases heq : u.transactionId = t.transactionId
    · exact .inl heq
    · exact .inr ⟨u, mem_filter.2 ⟨hu, decide_eq_true heq⟩, rfl⟩

theorem ids_collect (lowest : ℕ) (hnodup : manager.ids.Nodup)
    (ht : t ∈ manager.activeTransactions) :
    ∃ l, (manager.collect lowest t).ids.Sublist l ∧ l.Perm manager.ids := by
  -- nothing is lost before the last step
  refine ⟨(manager.others t.transactionId).map (·.transactionId) ++
    (((manager.recentlyCommitted t).dropWhile
      (·.commitId < lowestStartTime (manager.others t.transactionId))).map (·.transactionId) ++
      (manager.awaitingGC t).map (·.transactionId)), ?_, ?_⟩
  · have hregistered : (manager.collect lowest t).registered.map (·.transactionId) =
        (manager.others t.transactionId).map (·.transactionId) := by
      rw [registered, map_map]
      rfl
    rw [ids, hregistered]
    refine (List.Sublist.refl _).append ((List.Sublist.refl _).append (List.Sublist.map _ ?_))
    change (if (manager.others t.transactionId).isEmpty then []
      else (manager.awaitingGC t).dropWhile (·.highestActiveQuery < lowest)).Sublist _
    split_ifs
    · exact nil_sublist _
    · exact dropWhile_sublist _
  · have hactive := perm_others (nodup_append.1 hnodup).1 ht
    have hsplit : (manager.cleanable t).map (·.transactionId) ++
        ((manager.recentlyCommitted t).dropWhile
          (·.commitId < lowestStartTime (manager.others t.transactionId))).map (·.transactionId) =
        (manager.recentlyCommitted t).map (·.transactionId) := by
      rw [← map_append, cleanable, takeWhile_append_dropWhile]
    have hawait : (manager.awaitingGC t).map (·.transactionId) =
        (if t.commitId ≠ 0 then manager.oldTransactions.map (·.transactionId)
          else manager.oldTransactions.map (·.transactionId) ++ [t.transactionId]) ++
            (manager.cleanable t).map (·.transactionId) := by
      rw [awaitingGC, map_append, map_map]
      congr 1
      split_ifs <;> simp
    have hrecent : (manager.recentlyCommitted t).map (·.transactionId) =
        if t.commitId ≠ 0 then
          manager.recentlyCommittedTransactions.map (·.transactionId) ++ [t.transactionId]
        else manager.recentlyCommittedTransactions.map (·.transactionId) := by
      rw [recentlyCommitted]
      split_ifs <;> simp
    rw [hawait, ids]
    rw [hrecent] at hsplit
    refine perm_iff_count.2 fun id => ?_
    have hactive' := hactive.count_eq id
    have hsplit' := congrArg (List.count id) hsplit
    by_cases hcommitted : t.commitId ≠ 0
    · simp only [if_pos hcommitted, count_append, count_cons, count_nil] at *
      omega
    · simp only [if_neg hcommitted, count_append, count_cons, count_nil] at *
      omega

end TransactionManager

/-! ### What holds along a run -/

namespace QueryState

/-- Ids are unique, numbers are below the next one, each running query is the active query of its
transaction, and a query that was running when versions were unlinked has a number below the highest
active query of their transaction. Once the loop of a removal is done, it has seen every running
query of the other transactions. -/
structure Invariant (s : QueryState C) : Prop where
  nodup : s.manager.ids.Nodup
  ids_lt : ∀ id ∈ s.manager.ids, id < s.manager.currentTransactionId
  queries_lt : ∀ q ∈ s.taken ++ s.running, q.transactionId < s.manager.currentTransactionId ∧
    q.number < s.manager.currentQueryNumber
  running_eq : ∀ q ∈ s.running, ∀ r ∈ s.manager.registered,
    r.transactionId = q.transactionId → r = q
  unlinked_lt : ∀ entry ∈ s.unlinked, ∀ q ∈ entry.2, q.number < s.manager.currentQueryNumber
  old_lt : ∀ u ∈ s.manager.oldTransactions, ∀ entry ∈ s.unlinked,
    entry.1 = u.transactionId → ∀ q ∈ entry.2, q.number < u.highestActiveQuery
  scanned : ∀ removal ∈ s.removal, ∀ lowest ∈ removal.lowestActiveQuery, ∀ q ∈ s.running,
    q.transactionId ∈ s.manager.registered.map (·.transactionId) →
      q.transactionId ≠ removal.transactionId → lowest ≤ q.number

/-- Every running query belongs to an active transaction that is not about to end. -/
def AllRegistered (s : QueryState C) : Prop :=
  ∀ q ∈ s.running, q.transactionId ∈ s.manager.registered.map (·.transactionId) ∧
    s.isEnding q.transactionId = false

/-- Undo memory is freed only when no query that was running when its versions were unlinked is
still running. -/
def FreesFinished (s : QueryState C) (op : QueryStep C) : Prop :=
  ∀ u ∈ s.freed op, ∀ entry ∈ (s.step op).unlinked, entry.1 = u.transactionId →
    ∀ q ∈ entry.2, q ∉ (s.step op).running

/-- The same for the queries of the transactions that stay active. -/
def FreesForOthers (s : QueryState C) (op : QueryStep C) : Prop :=
  ∀ u ∈ s.freed op, ∀ entry ∈ (s.step op).unlinked, entry.1 = u.transactionId →
    ∀ q ∈ entry.2, q ∈ (s.step op).running →
      ∀ t ∈ (s.step op).manager.activeTransactions, t.transactionId ≠ q.transactionId

/-- No query starts between the loop of `RemoveTransaction` and the rest of it. -/
def StartsOutside (s : QueryState C) : QueryStep C → Prop
  | .setActiveQuery _ => ∀ removal ∈ s.removal, removal.lowestActiveQuery = none
  | _ => True

/-- A transaction ends when it is not running a query: `FinalizeQuery` ends it, and not a `COMMIT`
or `ROLLBACK` statement. -/
def EndsIdle (s : QueryState C) : QueryStep C → Prop
  | .commitTransaction id => ∀ q ∈ s.running, q.transactionId ≠ id
  | .rollbackTransaction id => ∀ q ∈ s.running, q.transactionId ≠ id
  | _ => True

namespace Invariant

variable {s : QueryState C}

theorem initial : ({} : QueryState C).Invariant := by
  constructor <;> simp [ids, registered]

section

variable (h : s.Invariant)

include h

/-- A change of an active transaction whose active query is still the running one, if there is one.
-/
theorem setTransaction (t : Transaction C)
    (ht : ∀ q ∈ s.running, q.transactionId = t.transactionId →
      ⟨t.transactionId, t.activeQuery⟩ = q) :
    ({ s with manager := s.manager.setTransaction t } : QueryState C).Invariant where
  nodup := (ids_setTransaction t s.manager).symm ▸ h.nodup
  ids_lt := (ids_setTransaction t s.manager).symm ▸ h.ids_lt
  queries_lt := h.queries_lt
  running_eq q hq r hr heq := by
    rcases mem_registered_setTransaction hr with rfl | ⟨hr, -⟩
    · exact ht q hq heq.symm
    · exact h.running_eq q hq r hr heq
  unlinked_lt := h.unlinked_lt
  old_lt := h.old_lt
  scanned := by simpa only [map_registered_setTransaction] using h.scanned

theorem of_running {running : List QueryId} (hsub : running ⊆ s.running) :
    ({ s with running := running } : QueryState C).Invariant :=
  { h with
    queries_lt := fun q hq => h.queries_lt q (by
      rw [mem_append] at hq ⊢
      exact hq.imp_right (@hsub q))
    running_eq := fun q hq => h.running_eq q (hsub hq)
    scanned := fun removal hr lowest hl q hq => h.scanned removal hr lowest hl q (hsub hq) }

theorem of_removal (id : ℕ) :
    ({ s with removal := some { transactionId := id } } : QueryState C).Invariant :=
  { h with
    scanned := fun removal hremoval lowest hlowest => by
      obtain rfl := Option.some.inj hremoval
      cases hlowest }

theorem startTransaction : (s.step .startTransaction).Invariant := by
  simp only [step]
  split_ifs with hremoval
  · exact h
  · by_cases hout : transactionIdStart ≤ s.manager.currentStartTimestamp
    · simpa [TransactionManager.startTransaction, hout] using h
    · have hnone : s.removal = none := Option.not_isSome_iff_eq_none.1 hremoval
      have hregistered : s.manager.startTransaction.1.registered = s.manager.registered ++
          [⟨s.manager.currentTransactionId, maximumQueryId⟩] := by
        simp [TransactionManager.startTransaction, hout, TransactionManager.registered]
      have hids : s.manager.startTransaction.1.ids.Perm
          (s.manager.currentTransactionId :: s.manager.ids) := by
        rw [TransactionManager.ids, hregistered, TransactionManager.ids, map_append, append_assoc]
        simp only [TransactionManager.startTransaction, if_neg hout]
        exact perm_middle
      simp only [TransactionManager.startTransaction, if_neg hout] at hregistered hids ⊢
      refine { h with nodup := ?_, ids_lt := ?_, queries_lt := ?_, running_eq := ?_, scanned := ?_ }
      · refine hids.nodup_iff.2 (nodup_cons.2 ⟨fun hmem => ?_, h.nodup⟩)
        exact Nat.lt_irrefl _ (h.ids_lt _ hmem)
      · intro id hid
        rcases mem_cons.1 (hids.mem_iff.1 hid) with rfl | hid
        · exact Nat.lt_succ_self _
        · exact Nat.lt_succ_of_lt (h.ids_lt id hid)
      · exact fun q hq => ⟨Nat.lt_succ_of_lt (h.queries_lt q hq).1, (h.queries_lt q hq).2⟩
      · intro q hq r hr heq
        rw [hregistered] at hr
        rcases mem_append.1 hr with hr | hr
        · exact h.running_eq q hq r hr heq
        · rw [mem_singleton.1 hr] at heq
          have hlt := (h.queries_lt q (mem_append_right _ hq)).1
          rw [← heq] at hlt
          exact absurd hlt (Nat.lt_irrefl _)
      · intro removal hmem
        rw [hnone] at hmem
        cases hmem

theorem getQueryNumber (id : ℕ) : (s.step (.getQueryNumber id)).Invariant := by
  simp only [step]
  split_ifs with hcond
  · exact h
  · have hactive : (s.manager.active? id).isSome := by
      cases hactive : s.manager.active? id with
      | none => simp [hactive] at hcond
      | some t => rfl
    obtain ⟨t, ht⟩ := Option.isSome_iff_exists.1 hactive
    obtain ⟨htm, htid⟩ := active?_some ht
    have hid : id < s.manager.currentTransactionId :=
      h.ids_lt id (mem_append_left _ (mem_map.2 ⟨_, mem_registered htm, htid⟩))
    refine { h with
      queries_lt := fun q hq => ?_
      unlinked_lt := fun entry he q hq => Nat.lt_succ_of_lt (h.unlinked_lt entry he q hq) }
    have hold : ∀ q ∈ s.taken ++ s.running, q.transactionId < s.manager.currentTransactionId ∧
        q.number < s.manager.currentQueryNumber + 1 :=
      fun q hq => (h.queries_lt q hq).imp_right Nat.lt_succ_of_lt
    rw [append_assoc, mem_append, mem_append] at hq
    rcases hq with hq | hq | hq
    · exact hold q (mem_append_left _ hq)
    · rw [mem_singleton.1 hq]
      exact ⟨hid, Nat.lt_succ_self _⟩
    · exact hold q (mem_append_right _ hq)

theorem setActiveQuery {id : ℕ} (hop : s.StartsOutside (.setActiveQuery id)) :
    (s.step (.setActiveQuery id)).Invariant := by
  simp only [step]
  split_ifs with hcond
  · exact h
  · rw [Bool.or_eq_true, not_or] at hcond
    cases hactive : s.manager.active? id with
    | none => exact h
    | some t =>
      cases htaken : s.taken.find? (·.transactionId = id) with
      | none => exact h
      | some query =>
        obtain ⟨htm, htid⟩ := active?_some hactive
        have hquery : query ∈ s.taken := mem_of_find?_eq_some htaken
        have hqid : query.transactionId = id := by simpa using find?_some htaken
        have hidle : ∀ q ∈ s.running, q.transactionId ≠ id := by
          simpa using hcond.2
        have hset := h.setTransaction { t with activeQuery := query.number } fun q hq heq =>
          absurd (heq.trans htid) (hidle q hq)
        refine { hset with queries_lt := ?_, running_eq := ?_, scanned := ?_ }
        · intro q hq
          rw [← append_assoc, mem_append, mem_append] at hq
          rcases hq with (hq | hq) | hq
          · exact h.queries_lt q (mem_append_left _ (mem_of_mem_erase hq))
          · exact h.queries_lt q (mem_append_right _ hq)
          · rw [mem_singleton.1 hq]
            exact h.queries_lt query (mem_append_left _ hquery)
        · intro q hq r hr heq
          rcases mem_append.1 hq with hq | hq
          · exact hset.running_eq q hq r hr heq
          · obtain rfl := mem_singleton.1 hq
            rcases mem_registered_setTransaction hr with rfl | ⟨-, hne⟩
            · change QueryId.mk t.transactionId q.number = q
              rw [htid, ← hqid]
            · exact absurd (heq.trans (hqid.trans htid.symm)) hne
        · intro removal hremoval lowest hlowest
          rw [hop removal hremoval] at hlowest
          cases hlowest

theorem finalizeQuery (id : ℕ) : (s.step (.finalizeQuery id)).Invariant := by
  simp only [step]
  split_ifs with hcond
  · exact h
  · have hrunning := h.of_running (filter_subset_self (p := (·.transactionId ≠ id)) s.running)
    cases hactive : s.manager.active? id with
    | none => exact hrunning
    | some t =>
      refine hrunning.setTransaction _ fun q hq heq => ?_
      exact absurd (heq.trans (active?_some hactive).2) (by simpa using (mem_filter.1 hq).2)

theorem query_eq {t : Transaction C} (ht : t ∈ s.manager.activeTransactions) :
    ∀ q ∈ s.running, q.transactionId = t.transactionId → ⟨t.transactionId, t.activeQuery⟩ = q :=
  fun q hq heq => h.running_eq q hq _ (mem_registered ht) heq.symm

theorem createEntry (id : ℕ) (entry : UndoEntry C) :
    (s.step (.createEntry id entry)).Invariant := by
  simp only [step]
  split_ifs with hcond
  · exact h
  · cases hactive : s.manager.active? id with
    | none => exact h
    | some t => exact h.setTransaction _ (h.query_eq (t := t) (active?_some hactive).1)

theorem commitTransaction (id : ℕ) : (s.step (.commitTransaction id)).Invariant := by
  simp only [step]
  split_ifs with hremoval
  · exact h
  · cases hactive : s.manager.active? id with
    | none => exact h
    | some t =>
      have hset := (h.setTransaction { t with commitId := s.manager.currentStartTimestamp }
        (h.query_eq (t := t) (active?_some hactive).1)).of_removal id
      exact { hset with }

theorem rollbackTransaction (id : ℕ) : (s.step (.rollbackTransaction id)).Invariant := by
  simp only [step]
  split_ifs with hremoval
  · exact h
  · cases hactive : s.manager.active? id with
    | none => exact h
    | some t =>
      obtain ⟨htm, htid⟩ := active?_some hactive
      have hset := (h.setTransaction t.clearUndo (h.query_eq (t := t) htm)).of_removal id
      refine { hset with unlinked_lt := ?_, old_lt := ?_ }
      · intro entry he q hq
        rcases mem_append.1 he with he | he
        · exact h.unlinked_lt entry he q hq
        · rw [mem_singleton.1 he] at hq
          exact (h.queries_lt q (mem_append_right _ hq)).2
      · intro u hu entry he heq q hq
        rcases mem_append.1 he with he | he
        · exact h.old_lt u hu entry he heq q hq
        · -- the transaction is still active, so it does not await garbage collection
          rw [mem_singleton.1 he] at heq
          have hmem : id ∈ s.manager.registered.map (·.transactionId) :=
            mem_map.2 ⟨_, mem_registered htm, htid⟩
          have hold : id ∈ s.manager.oldTransactions.map (·.transactionId) :=
            mem_map.2 ⟨u, hu, heq.symm⟩
          exact absurd rfl ((nodup_append.1 h.nodup).2.2 id hmem id (mem_append_right _ hold))

theorem scanActive : (s.step .scanActive).Invariant := by
  simp only [step]
  split
  · rename_i id hremoval
    refine { h with scanned := ?_ }
    intro removal hmem lowest hlowest q hq hreg hne
    obtain rfl := Option.some.inj hmem
    obtain rfl := Option.some.inj hlowest
    obtain ⟨r, hr, hrq⟩ := mem_map.1 hreg
    obtain ⟨t, ht, rfl⟩ := mem_map.1 hr
    have heq := h.running_eq q hq _ hr hrq
    rw [← heq]
    exact lowestActiveQuery_le (mem_filter.2
      ⟨ht, decide_eq_true fun hid => hne (hrq.symm.trans hid)⟩)
  · exact h

/-- A query that was running when versions were unlinked has a number below the highest active query
of their transaction, when the transaction waits for its memory to be freed. -/
theorem awaiting_lt {t u : Transaction C} (ht : t ∈ s.manager.activeTransactions)
    (hu : u ∈ s.manager.awaitingGC t) {entry : ℕ × List QueryId}
    (he : entry ∈ s.unlinked ++ (s.manager.cleanable t).map fun v => (v.transactionId, s.running))
    (heq : entry.1 = u.transactionId) {q : QueryId} (hq : q ∈ entry.2) :
    q.number < u.highestActiveQuery := by
  have hlt : q.number < s.manager.currentQueryNumber := by
    rcases mem_append.1 he with he | he
    · exact h.unlinked_lt entry he q hq
    · obtain ⟨v, -, rfl⟩ := mem_map.1 he
      exact (h.queries_lt q (mem_append_right _ hq)).2
  rcases mem_awaitingGC hu with hold | hnew
  · rcases mem_append.1 he with he | he
    · exact h.old_lt u hold entry he heq q hq
    · -- a transaction that is cleaned up now was not waiting before
      obtain ⟨v, hv, rfl⟩ := mem_map.1 he
      obtain ⟨-, hrest, hdisjoint⟩ := nodup_append.1 h.nodup
      have hold' : u.transactionId ∈ s.manager.oldTransactions.map (·.transactionId) :=
        mem_map_of_mem hold
      have hv' : v ∈ s.manager.recentlyCommitted t := (takeWhile_sublist _).subset hv
      rw [recentlyCommitted] at hv'
      have hcases : v ∈ s.manager.recentlyCommittedTransactions ∨ v = t := by
        split_ifs at hv'
        · simpa using hv'
        · exact .inl hv'
      rcases hcases with hv' | rfl
      · exact absurd heq ((nodup_append.1 hrest).2.2 _ (mem_map_of_mem hv') _ hold')
      · exact absurd heq (hdisjoint _ (mem_map.2 ⟨_, mem_registered ht, rfl⟩) _
          (mem_append_right _ hold'))
  · rwa [hnew]

theorem collect : (s.step .collect).Invariant := by
  simp only [step]
  split
  · rename_i id lowest hremoval
    cases hactive : s.manager.active? id with
    | none => exact h
    | some t =>
      obtain ⟨htm, htid⟩ := active?_some hactive
      obtain ⟨l, hsub, hperm⟩ := ids_collect lowest h.nodup htm
      have hold : ∀ u ∈ (s.manager.collect lowest t).oldTransactions,
          u ∈ s.manager.awaitingGC t := by
        intro u hu
        simp only [TransactionManager.collect] at hu
        split_ifs at hu
        · cases hu
        · exact (dropWhile_sublist _).subset hu
      refine ⟨(hperm.nodup_iff.2 h.nodup).sublist hsub,
        fun i hi => h.ids_lt i (hperm.mem_iff.1 (hsub.subset hi)), h.queries_lt, ?_, ?_,
        fun u hu entry he heq q hq => h.awaiting_lt htm (hold u hu) he heq hq, nofun⟩
      · intro q hq r hr
        obtain ⟨u, hu, rfl⟩ := mem_map.1 hr
        exact h.running_eq q hq _ (mem_registered (mem_filter.1 hu).1)
      · intro entry he q hq
        rcases mem_append.1 he with he | he
        · exact h.unlinked_lt entry he q hq
        · obtain ⟨v, -, rfl⟩ := mem_map.1 he
          exact (h.queries_lt q (mem_append_right _ hq)).2
  · exact h

theorem step {op : QueryStep C} (hop : s.StartsOutside op) : (s.step op).Invariant := by
  cases op with
  | startTransaction => exact h.startTransaction
  | getQueryNumber id => exact h.getQueryNumber id
  | setActiveQuery id => exact h.setActiveQuery hop
  | finalizeQuery id => exact h.finalizeQuery id
  | createEntry id entry => exact h.createEntry id entry
  | commitTransaction id => exact h.commitTransaction id
  | rollbackTransaction id => exact h.rollbackTransaction id
  | scanActive => exact h.scanActive
  | collect => exact h.collect

/-- What is freed is not needed by the transactions that stay active. -/
theorem freesForOthers (op : QueryStep C) : s.FreesForOthers op := by
  intro u hu entry he heq q hq hrunning w hw hid
  cases op with
  | collect =>
    simp only [freed] at hu
    split at hu
    · rename_i id lowest hremoval
      simp only [QueryState.step, hremoval] at he hrunning hw
      cases hactive : s.manager.active? id with
      | none => simp [hactive] at hu
      | some t =>
        rw [hactive, Option.elim_some] at hu he hrunning hw
        obtain ⟨htm, htid⟩ := active?_some hactive
        obtain ⟨hawait, hbelow⟩ := mem_freed hu
        have hlt := h.awaiting_lt htm hawait he heq hq
        -- the transaction of the query was there when the loop looked for active queries
        obtain ⟨hwm, hwt⟩ := mem_filter.1 hw
        have hscan := h.scanned _ hremoval lowest rfl q hrunning
          (mem_map.2 ⟨_, mem_registered hwm, hid⟩) (by rw [← hid, ← htid]; simpa using hwt)
        have hhighest := hbelow (ne_nil_of_mem hw)
        exact absurd (hlt.trans hhighest) (not_lt.2 hscan)
    · cases hu
  | _ => cases hu

end

end Invariant

variable {s : QueryState C} {op : QueryStep C}

theorem AllRegistered.setTransaction (h : s.AllRegistered) (t : Transaction C) :
    ({ s with manager := s.manager.setTransaction t } : QueryState C).AllRegistered := by
  intro q hq
  rw [map_registered_setTransaction]
  exact h q hq

/-- The running queries stay registered, if transactions end when they are not running a query. -/
theorem AllRegistered.step (h : s.AllRegistered) (hop : s.EndsIdle op) :
    (s.step op).AllRegistered := by
  cases op with
  | startTransaction =>
    simp only [step]
    split_ifs with hremoval
    · exact h
    · refine fun q hq => ⟨?_, (h q hq).2⟩
      have hmem := (h q hq).1
      simp only [registered, startTransaction] at hmem ⊢
      split_ifs
      · exact hmem
      · simp only [map_append, mem_append]
        exact .inl hmem
  | getQueryNumber id =>
    simp only [step]
    split_ifs <;> exact h
  | setActiveQuery id =>
    simp only [step]
    split_ifs with hcond
    · exact h
    · cases hactive : s.manager.active? id with
      | none => exact h
      | some t =>
        cases htaken : s.taken.find? (·.transactionId = id) with
        | none => exact h
        | some query =>
          intro q hq
          rw [map_registered_setTransaction]
          rcases mem_append.1 hq with hq | hq
          · exact h q hq
          · have hqid : query.transactionId = id := by simpa using find?_some htaken
            obtain ⟨htm, htid⟩ := active?_some hactive
            rw [mem_singleton.1 hq, hqid]
            refine ⟨mem_map.2 ⟨_, mem_registered htm, htid⟩, ?_⟩
            rw [Bool.or_eq_true, not_or] at hcond
            exact Bool.eq_false_iff.2 hcond.1
  | finalizeQuery id =>
    simp only [step]
    split_ifs with hcond
    · exact h
    · have hrunning : ({ s with running := s.running.filter (·.transactionId ≠ id) } :
          QueryState C).AllRegistered := fun q hq => h q (mem_filter.1 hq).1
      cases hactive : s.manager.active? id with
      | none => exact hrunning
      | some t => exact hrunning.setTransaction _
  | createEntry id entry =>
    simp only [step]
    split_ifs with hcond
    · exact h
    · cases hactive : s.manager.active? id with
      | none => exact h
      | some t => exact h.setTransaction _
  | commitTransaction id | rollbackTransaction id =>
    simp only [step]
    split_ifs with hremoval
    · exact h
    · cases hactive : s.manager.active? id with
      | none => exact h
      | some t =>
        refine fun q hq => ⟨(h.setTransaction _ q hq).1, ?_⟩
        simpa [isEnding] using (hop q hq).symm
  | scanActive =>
    simp only [step]
    split
    · rename_i id hremoval
      intro q hq
      have hq' := h q hq
      simp only [isEnding, hremoval] at hq' ⊢
      exact hq'
    · exact h
  | collect =>
    simp only [step]
    split
    · rename_i id lowest hremoval
      cases hactive : s.manager.active? id with
      | none => exact h
      | some t =>
        refine fun q hq => ⟨?_, rfl⟩
        obtain ⟨hmem, hending⟩ := h q hq
        obtain ⟨r, hr, hrq⟩ := mem_map.1 hmem
        obtain ⟨u, hu, rfl⟩ := mem_map.1 hr
        have hne : u.transactionId ≠ t.transactionId := by
          rw [(active?_some hactive).2]
          intro hid
          rw [← hrq] at hending
          simp [isEnding, hremoval, hid] at hending
        exact mem_map.2 ⟨⟨u.transactionId, u.activeQuery⟩,
          mem_map.2 ⟨u, mem_filter.2 ⟨hu, decide_eq_true hne⟩, rfl⟩, hrq⟩
    · exact h

/-- While all running queries are registered, nothing is freed that one of them needs. -/
theorem AllRegistered.freesFinished (h : (s.step op).AllRegistered) (hothers : s.FreesForOthers op)
    : s.FreesFinished op := by
  intro u hu entry he heq q hq hrunning
  obtain ⟨r, hr, hrq⟩ := mem_map.1 (h q hrunning).1
  obtain ⟨t, ht, rfl⟩ := mem_map.1 hr
  exact hothers u hu entry he heq q hq hrunning t ht hrq

/-! ### Runs -/

/-- **Deferred freeing**: in every run in which no query starts between the loop of
`RemoveTransaction` and the rest of it, undo memory is freed only when the transactions that stay
active have finished the queries that were running when the versions were unlinked; and if
transactions end only when they are not running a query, all those queries have finished. -/
theorem frees_finished (ops : List (QueryStep C)) (h : Meets step StartsOutside {} ops) :
    Meets step FreesForOthers ({} : QueryState C) ops ∧
      (Meets step EndsIdle ({} : QueryState C) ops →
        Meets step FreesFinished ({} : QueryState C) ops) := by
  refine ⟨h.imp (fun s op hs => hs.step) (fun s op hs _ => hs.freesForOthers op)
    Invariant.initial, fun hidle => ?_⟩
  refine Meets.imp (I := fun s => s.Invariant ∧ s.AllRegistered) ?_ ?_
    ⟨Invariant.initial, fun q hq => nomatch hq⟩ (meets_and.2 ⟨h, hidle⟩)
  · exact fun s op hs hop => ⟨hs.1.step hop.1, hs.2.step hop.2⟩
  · exact fun s op hs hop => (hs.2.step hop.2).freesFinished (hs.1.freesForOthers op)

/-- A transaction inserts a row in a query, which is finalized before the transaction is rolled
back. -/
def insertAndRollback : List (QueryStep Unit) :=
  [.startTransaction, .getQueryNumber transactionIdStart, .setActiveQuery transactionIdStart,
    .createEntry transactionIdStart (.tuple .insertTuple 0 0), .finalizeQuery transactionIdStart,
    .rollbackTransaction transactionIdStart, .scanActive, .collect]

/-- The memory of the transaction is freed at once, after its query has finished. -/
theorem freesFinished_insertAndRollback :
    (insertAndRollback.dropLast.foldl step {}).freed .collect ≠ [] ∧
      Meets step FreesFinished ({} : QueryState Unit) insertAndRollback := by
  have hstarts : Meets step StartsOutside ({} : QueryState Unit) insertAndRollback :=
    ⟨trivial, trivial, (fun removal hmem => nomatch hmem), trivial, trivial, trivial, trivial,
      trivial, trivial⟩
  have hidle : Meets step EndsIdle ({} : QueryState Unit) insertAndRollback :=
    ⟨trivial, trivial, trivial, trivial, trivial, (fun q hq => nomatch hq), trivial, trivial,
      trivial⟩
  exact ⟨by decide, (frees_finished insertAndRollback hstarts).2 hidle⟩

/-- The first transaction keeps the versions of the second one, which inserts a row and commits.
The third one starts, and its first query starts while the first transaction is being removed,
after the loop over the active queries. -/
def race : List (QueryStep Unit) :=
  [.startTransaction, .startTransaction,
    .createEntry (transactionIdStart + 1) (.tuple .insertTuple 0 0),
    .commitTransaction (transactionIdStart + 1), .scanActive, .collect, .startTransaction,
    .getQueryNumber (transactionIdStart + 2), .rollbackTransaction transactionIdStart, .scanActive,
    .setActiveQuery (transactionIdStart + 2)]

/-- A transaction that is ended by its own statement. -/
def rollbackStatement : List (QueryStep Unit) :=
  [.startTransaction, .createEntry transactionIdStart (.tuple .insertTuple 0 0),
    .getQueryNumber transactionIdStart, .setActiveQuery transactionIdStart,
    .rollbackTransaction transactionIdStart, .scanActive]

instance [DecidableEq C] (s : QueryState C) (op : QueryStep C) : Decidable (s.FreesForOthers op) :=
  inferInstanceAs (Decidable (∀ u ∈ s.freed op, ∀ entry ∈ (s.step op).unlinked, _))

instance [DecidableEq C] (s : QueryState C) (op : QueryStep C) : Decidable (s.FreesFinished op) :=
  inferInstanceAs (Decidable (∀ u ∈ s.freed op, ∀ entry ∈ (s.step op).unlinked, _))

/-- **Undo memory can be freed under a running query.**  In `race` the undo buffer of the second
transaction, with the version of its row, is freed in the same removal that unlinks it, while the
query of the third transaction is running. The statement that ends its own transaction does not
keep the memory either. -/
theorem not_freesForOthers_race :
    ¬(race.foldl step {}).FreesForOthers .collect ∧
      ((race.foldl step {}).freed .collect).map (·.undoBuffer) =
        [[], [.tuple .insertTuple 0 0]] ∧
      ((race.foldl step {}).step .collect).running = [⟨transactionIdStart + 2, 1⟩] ∧
      (transactionIdStart + 1, [⟨transactionIdStart + 2, 1⟩]) ∈
        ((race.foldl step {}).step .collect).unlinked ∧
      ¬(rollbackStatement.foldl step {}).FreesFinished .collect := by
  decide

end QueryState

end DuckDB
