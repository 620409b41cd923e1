import DuckDB.Storage.StorageManager
import DuckDB.Transaction.Equiv.GarbageCollection

/-!
# The books of the transaction manager

A `Journal` notes which transactions were started, committed, rolled back and handed to `Cleanup`.
The lists of the transaction manager are compared with it after every operation of a run, from the
opening of the database on.

* `Journal.Agrees` is what the journal and the lists have in common as long as no checkpoint is
  made.
* `keepsBooks_iff`: the lists are right along a run, and whatever can be cleaned up is cleaned up by
  each removal, exactly when no checkpoint starts a transaction and no transaction ends as the last
  active one while there is a commit id of `2 ^ 32` or more.
* `not_keepsBooks_replay`: a database that is opened with a write-ahead log keeps the transaction of
  the checkpoint active for good.
-/

namespace DuckDB

open Theory List TransactionManager Database Transaction

variable {V C : Type*}

/-! ### The journal -/

/-- What happened to the transactions: those started, those committed with their commit ids, those
rolled back, and those handed to `Cleanup`. -/
structure Journal where
  started : List ℕ := []
  committed : List (ℕ × ℕ) := []
  rolledBack : List ℕ := []
  cleaned : List ℕ := []
deriving DecidableEq, Repr

/-- Notes what an operation does in the database `db`. -/
def Journal.record (db : Database V C) (journal : Journal) (op : Op V C) : Journal :=
  let cleaned := journal.cleaned ++ (db.cleanupCalls op).map (·.transaction.transactionId)
  match op with
  | .startTransaction =>
    if transactionIdStart ≤ db.transactionManager.currentStartTimestamp then journal
    else { journal with
      started := journal.started ++ [db.transactionManager.currentTransactionId] }
  | .commit id => (db.transactionManager.active? id).elim journal fun _ =>
    { journal with
      committed := journal.committed ++ [(id, db.transactionManager.currentStartTimestamp)]
      cleaned := cleaned }
  | .rollback id => (db.transactionManager.active? id).elim journal fun _ =>
    { journal with
      rolledBack := journal.rolledBack ++ [id]
      cleaned := cleaned }
  | _ => journal

/-- Notes a checkpoint: its transaction is started and rolled back, unless the start throws. -/
def Journal.recordCheckpoint (db : Database V C) (journal : Journal) : Journal :=
  if transactionIdStart ≤ db.transactionManager.currentStartTimestamp then journal
  else { journal with
    started := journal.started ++ [db.transactionManager.currentTransactionId]
    rolledBack := journal.rolledBack ++ [db.transactionManager.currentTransactionId] }

/-- A database and the journal of its transactions. -/
structure System (V C : Type*) where
  database : Database V C
  journal : Journal := {}

namespace System

/-- One operation or checkpoint. -/
def step (checks : ℕ → TableChecks V C) (s : System V C) : SystemOp V C → System V C
  | .operation op => ⟨(s.database.step checks op).1, s.journal.record s.database op⟩
  | .createCheckpoint =>
    ⟨s.database.createCheckpoint.1, s.journal.recordCheckpoint s.database⟩

/-- A system before it is opened. -/
def initial (columnCount : ℕ → ℕ) : System V C where
  database := .initial columnCount

/-- The active transactions are those that were started and neither committed nor rolled back, and
the recently committed ones are in the order of their commit ids. -/
structure Bookkept (s : System V C) : Prop where
  active : ∀ id, id ∈ s.database.transactionManager.activeTransactions.map (·.transactionId) ↔
    id ∈ s.journal.started ∧ id ∉ s.journal.committed.map Prod.fst ∧ id ∉ s.journal.rolledBack
  nodup : (s.database.transactionManager.activeTransactions.map (·.transactionId)).Nodup
  sorted : s.database.transactionManager.recentlyCommittedTransactions.Pairwise
    fun older newer => older.commitId < newer.commitId

/-- Every committed transaction with a commit id below the start times of all active transactions
has been handed to `Cleanup`. -/
def AllCleaned (s : System V C) : Prop :=
  ∀ c ∈ s.journal.committed,
    (∀ t ∈ s.database.transactionManager.activeTransactions, c.2 < t.startTime) →
      c.1 ∈ s.journal.cleaned

/-- The operation removes a transaction from the active ones. -/
def Removes (s : System V C) : SystemOp V C → Prop
  | .operation op => (s.database.removal op).isSome
  | .createCheckpoint => False

/-- The books are right after the operation; if it removes a transaction, everything that can be
cleaned up has been. -/
def KeepsBooks (checks : ℕ → TableChecks V C) (s : System V C) (op : SystemOp V C) : Prop :=
  (s.step checks op).Bookkept ∧ (s.Removes op → (s.step checks op).AllCleaned)

/-- No checkpoint starts a transaction, and when the last active transaction ends, all commit ids
are below the ids of the transactions. -/
def Sound (s : System V C) : SystemOp V C → Prop
  | .createCheckpoint =>
    transactionIdStart ≤ s.database.transactionManager.currentStartTimestamp
  | .operation (.commit id) => (s.database.transactionManager.active? id).isSome →
    s.database.transactionManager.others id = [] →
      s.database.transactionManager.currentStartTimestamp < transactionIdStart
  | .operation (.rollback id) => (s.database.transactionManager.active? id).isSome →
    s.database.transactionManager.others id = [] →
      ∀ t ∈ s.database.transactionManager.recentlyCommittedTransactions,
        t.commitId < transactionIdStart
  | .operation _ => True

end System

/-! ### The journal and the lists -/

/-- The journal agrees with the lists of the transaction manager. -/
structure Journal.Agrees (journal : Journal) (nextId : ℕ) (active : List Running)
    (recent : List Finished) : Prop where
  running : ∀ id, Runs active id ↔
    id ∈ journal.started ∧ id ∉ journal.committed.map Prod.fst ∧ id ∉ journal.rolledBack
  started_lt : ∀ id ∈ journal.started, id < nextId
  ended_started : ∀ id, id ∈ journal.committed.map Prod.fst ∨ id ∈ journal.rolledBack →
    id ∈ journal.started
  cleaned_or_recent : ∀ c ∈ journal.committed, c.1 ∈ journal.cleaned ∨ ⟨c.1, c.2⟩ ∈ recent
  recent_committed : ∀ f ∈ recent, (f.transactionId, f.commitId) ∈ journal.committed
  cleaned_committed : ∀ id ∈ journal.cleaned, id ∈ journal.committed.map Prod.fst
  cleaned_ne : ∀ id ∈ journal.cleaned, ∀ f ∈ recent, f.transactionId ≠ id

namespace Journal.Agrees

variable {journal : Journal} {nextId id : ℕ} {active : List Running} {recent : List Finished}

theorem start (h : journal.Agrees nextId active recent) (startTime : ℕ) :
    Agrees { journal with started := journal.started ++ [nextId] } (nextId + 1)
      (active ++ [⟨nextId, startTime⟩]) recent where
  running i := by
    by_cases hi : i = nextId
    · subst hi
      have hfresh : i ∉ journal.started := fun hmem => Nat.lt_irrefl _ (h.started_lt i hmem)
      have hended : i ∉ journal.committed.map Prod.fst ∧ i ∉ journal.rolledBack :=
        ⟨fun hc => hfresh (h.ended_started i (.inl hc)),
          fun hr => hfresh (h.ended_started i (.inr hr))⟩
      have hruns : Runs (active ++ [⟨i, startTime⟩]) i := ⟨⟨i, startTime⟩, by simp, rfl⟩
      simp [hruns, hended]
    · have hruns : Runs (active ++ [⟨nextId, startTime⟩]) i ↔ Runs active i := by
        constructor
        · rintro ⟨a, ha, rfl⟩
          rcases mem_append.1 ha with ha | ha
          · exact ⟨a, ha, rfl⟩
          · rw [mem_singleton.1 ha] at hi
            exact absurd rfl hi
        · rintro ⟨a, ha, rfl⟩
          exact ⟨a, mem_append_left _ ha, rfl⟩
      rw [hruns, h.running i]
      simp [hi]
  started_lt i hi := by
    rcases mem_append.1 hi with hi | hi
    · exact Nat.lt_succ_of_lt (h.started_lt i hi)
    · rw [mem_singleton.1 hi]
      exact Nat.lt_succ_self _
  ended_started i hi := mem_append_left _ (h.ended_started i hi)
  cleaned_or_recent := h.cleaned_or_recent
  recent_committed := h.recent_committed
  cleaned_committed := h.cleaned_committed
  cleaned_ne := h.cleaned_ne

theorem commit (h : journal.Agrees nextId active recent) (hruns : Runs active id) (commitId : ℕ) :
    Agrees { journal with committed := journal.committed ++ [(id, commitId)] } nextId
      (active.filter (·.transactionId ≠ id)) (recent ++ [⟨id, commitId⟩]) where
  running i := by
    rw [runs_retire, h.running i]
    simp only [map_append, map_cons, map_nil, mem_append, mem_singleton]
    tauto
  started_lt := h.started_lt
  ended_started i hi := by
    simp only [map_append, map_cons, map_nil, mem_append, mem_singleton] at hi
    rcases hi with (hi | rfl) | hi
    · exact h.ended_started i (.inl hi)
    · exact ((h.running i).1 hruns).1
    · exact h.ended_started i (.inr hi)
  cleaned_or_recent c hc := by
    rcases mem_append.1 hc with hc | hc
    · exact (h.cleaned_or_recent c hc).imp_right (mem_append_left _)
    · rw [mem_singleton.1 hc]
      exact .inr (by simp)
  recent_committed f hf := by
    rcases mem_append.1 hf with hf | hf
    · exact mem_append_left _ (h.recent_committed f hf)
    · rw [mem_singleton.1 hf]
      simp
  cleaned_committed i hi := by
    rw [map_append]
    exact mem_append_left _ (h.cleaned_committed i hi)
  cleaned_ne i hi f hf := by
    rcases mem_append.1 hf with hf | hf
    · exact h.cleaned_ne i hi f hf
    · rw [mem_singleton.1 hf]
      rintro rfl
      exact ((h.running _).1 hruns).2.1 (h.cleaned_committed _ hi)

theorem rollback (h : journal.Agrees nextId active recent) (hruns : Runs active id) :
    Agrees { journal with rolledBack := journal.rolledBack ++ [id] } nextId
      (active.filter (·.transactionId ≠ id)) recent where
  running i := by
    rw [runs_retire, h.running i]
    simp only [mem_append, mem_singleton]
    tauto
  started_lt := h.started_lt
  ended_started i hi := by
    rcases hi with hi | hi
    · exact h.ended_started i (.inl hi)
    · rcases mem_append.1 hi with hi | hi
      · exact h.ended_started i (.inr hi)
      · rw [mem_singleton.1 hi]
        exact ((h.running id).1 hruns).1
  cleaned_or_recent := h.cleaned_or_recent
  recent_committed := h.recent_committed
  cleaned_committed := h.cleaned_committed
  cleaned_ne := h.cleaned_ne

theorem clean {before rest : List Finished} (h : journal.Agrees nextId active (before ++ rest))
    (hnodup : ((before ++ rest).map (·.transactionId)).Nodup) :
    Agrees { journal with cleaned := journal.cleaned ++ before.map (·.transactionId) } nextId
      active rest where
  running := h.running
  started_lt := h.started_lt
  ended_started := h.ended_started
  cleaned_or_recent c hc := by
    rcases h.cleaned_or_recent c hc with hclean | hrecent
    · exact .inl (mem_append_left _ hclean)
    · rcases mem_append.1 hrecent with hbefore | hrest
      · exact .inl (mem_append_right _ (mem_map.2 ⟨_, hbefore, rfl⟩))
      · exact .inr hrest
  recent_committed f hf := h.recent_committed f (mem_append_right _ hf)
  cleaned_committed i hi := by
    rcases mem_append.1 hi with hi | hi
    · exact h.cleaned_committed i hi
    · obtain ⟨f, hf, rfl⟩ := mem_map.1 hi
      exact mem_map.2 ⟨_, h.recent_committed f (mem_append_left _ hf), rfl⟩
  cleaned_ne i hi f hf := by
    rcases mem_append.1 hi with hi | hi
    · exact h.cleaned_ne i hi f (mem_append_right _ hf)
    · rw [map_append] at hnodup
      exact fun heq => disjoint_of_nodup_append hnodup hi (heq ▸ mem_map_of_mem hf)

end Journal.Agrees

/-! ### Steps -/

theorem Store.foldl_writes {events : List (Event V)}
    (h : ∀ e ∈ events, ∃ owner change, e = .write owner change) (s : Store V) :
    (events.foldl Store.apply s).nextId = s.nextId ∧
      (events.foldl Store.apply s).active = s.active ∧
        (events.foldl Store.apply s).recent = s.recent := by
  induction events generalizing s with
  | nil => exact ⟨rfl, rfl, rfl⟩
  | cons e events ih =>
    obtain ⟨owner, change, rfl⟩ := h e (by simp)
    exact ih (fun e' he' => h e' (by simp [he'])) _

/-- What is left after dropping the small elements of a sorted list. -/
theorem mem_dropWhile_iff {α : Type*} {key : α → ℕ} {l : List α} {bound : ℕ}
    (h : l.Pairwise fun a b => key a < key b) {a : α} :
    a ∈ l.dropWhile (key · < bound) ↔ a ∈ l ∧ bound ≤ key a := by
  induction l with
  | nil => simp
  | cons b l ih =>
    obtain ⟨hb, hl⟩ := pairwise_cons.1 h
    by_cases hlt : key b < bound
    · rw [dropWhile_cons_of_pos (by simpa using hlt), ih hl, mem_cons]
      constructor
      · rintro ⟨ha, hle⟩
        exact ⟨.inr ha, hle⟩
      · rintro ⟨rfl | ha, hle⟩
        · exact absurd hlt (not_lt.2 hle)
        · exact ⟨ha, hle⟩
    · rw [dropWhile_cons_of_neg (by simpa using hlt)]
      refine ⟨fun ha => ⟨ha, ?_⟩, And.left⟩
      rcases mem_cons.1 ha with rfl | ha
      · exact not_lt.1 hlt
      · exact (not_lt.1 hlt).trans (hb a ha).le

namespace Store

/-- The smallest start time is that of a running transaction, if there is one. -/
theorem exists_startTime_le {active : List Running} (hne : active ≠ [])
    (h : ∀ a ∈ active, a.startTime < transactionIdStart) :
    ∃ a ∈ active, a.startTime ≤ lowestStartTime active := by
  by_contra hlarger
  simp only [not_exists, not_and, not_le] at hlarger
  obtain ⟨a, ha⟩ := exists_mem_of_ne_nil active hne
  exact Nat.not_succ_le_self _ (le_lowestStartTime_iff.2 ⟨(hlarger a ha).trans (h a ha), hlarger⟩)

theorem clean_lists (s : Store V) : s.clean.nextId = s.nextId ∧ s.clean.active = s.active ∧
      s.clean.recent = s.recent.dropWhile (·.commitId < lowestStartTime s.active) := by
  have key : ∀ (recent : List Finished) (t : Store V), t.recent = recent → ∀ bound : ℕ,
        let t' := (recent.takeWhile (·.commitId < bound)).foldl (fun t _ => t.cleanOldest) t
        t'.nextId = t.nextId ∧ t'.active = t.active ∧
          t'.recent = recent.dropWhile (·.commitId < bound) := by
    intro recent
    induction recent with
    | nil => exact fun t ht bound => ⟨rfl, rfl, ht⟩
    | cons oldest rest ih =>
      intro t ht bound
      by_cases hlt : oldest.commitId < bound
      · rw [takeWhile_cons_of_pos (by simpa using hlt),
          dropWhile_cons_of_pos (by simpa using hlt), foldl_cons, cleanOldest_of_recent ht]
        exact ih _ rfl bound
      · rw [takeWhile_cons_of_neg (by simpa using hlt), dropWhile_cons_of_neg (by simpa using hlt)]
        exact ⟨rfl, rfl, ht⟩
  exact key s.recent s rfl _

/-- Cleaning up leaves nothing that could be cleaned up, unless no transaction is running and a
commit id has reached the ids of the transactions. -/
theorem Invariant.clean_iff {s : Store V} (h : s.Invariant) :
    (∀ f ∈ s.clean.recent, ∃ a ∈ s.clean.active, a.startTime ≤ f.commitId) ↔
      (s.active = [] → ∀ f ∈ s.recent, f.commitId < transactionIdStart) := by
  obtain ⟨-, hactive, hrecent⟩ := s.clean_lists
  rw [hactive, hrecent]
  constructor
  · intro hkept hnil f hf
    by_contra hle
    obtain ⟨a, ha, -⟩ := hkept f ((mem_dropWhile_iff h.sorted).2
      ⟨hf, (le_lowestStartTime_iff.1 le_rfl).1.trans (not_lt.1 hle)⟩)
    rw [hnil] at ha
    exact not_mem_nil ha
  · intro hsmall f hf
    obtain ⟨hf, hle⟩ := (mem_dropWhile_iff h.sorted).1 hf
    by_cases hnil : s.active = []
    · rw [hnil] at hle
      exact absurd (hsmall hnil f hf) (not_lt.2 hle)
    · obtain ⟨a, ha, hle'⟩ := exists_startTime_le hnil fun a ha => (h.active_start a ha).2
      exact ⟨a, ha, hle'.trans hle⟩

end Store

theorem Database.map_cleanupCalls {db db' : Database V C} {op : Op V C} {t : Transaction C}
    (h : db.removal op = some (t, db')) : (db.cleanupCalls op).map (·.transaction.transactionId) =
      (((db'.transactionManager.recentlyCommitted t).map finished).takeWhile
        (·.commitId < Store.lowestStartTime
          ((db'.transactionManager.others t.transactionId).map running))).map
        (·.transactionId) := by
  have hcalls : ∀ (ts active : List (Transaction C)) (clock : ℕ) (tables : Tables V),
      (callsFor active clock tables ts).map (·.transaction) = ts := by
    intro ts
    induction ts with
    | nil => exact fun _ _ _ => rfl
    | cons u ts ih =>
      intro active clock tables
      rw [callsFor, map_cons, ih]
  have hlowest : Store.lowestStartTime
      ((db'.transactionManager.others t.transactionId).map running) =
        lowestStartTime (db'.transactionManager.others t.transactionId) := by
    simp only [Store.lowestStartTime, lowestStartTime, foldl_map]
    rfl
  have hmap : (db.cleanupCalls op).map (·.transaction) = db'.transactionManager.cleanable t := by
    rw [cleanupCalls, h]
    exact hcalls _ _ _ _
  calc (db.cleanupCalls op).map (·.transaction.transactionId)
      = ((db.cleanupCalls op).map (·.transaction)).map (·.transactionId) :=
        (map_map ..).symm
    _ = _ := by
      rw [hmap, cleanable, hlowest, takeWhile_map, map_map]
      rfl

namespace Database.Invariant

variable {db : Database V C} {id : ℕ} {t : Transaction C}

theorem cleanupCalls_commit (h : db.Invariant)
    (hactive : db.transactionManager.active? id = some t) :
    (db.cleanupCalls (.commit id)).map (·.transaction.transactionId) =
      ((db.store.commitRows id db.store.clock).recent.takeWhile (·.commitId <
        Store.lowestStartTime (db.store.commitRows id db.store.clock).active)).map
        (·.transactionId) := by
  obtain ⟨ht, rfl⟩ := h.active?_eq_some_iff.1 hactive
  rw [map_cleanupCalls (by rw [Database.removal, hactive, Option.map_some])]
  simp only [recentlyCommitted, ne_eq, h.clock_pos ht, not_false_eq_true, if_true,
    others, map_filter_running, map_append]
  rfl

theorem cleanupCalls_rollback (h : db.Invariant)
    (hactive : db.transactionManager.active? id = some t) :
    (db.cleanupCalls (.rollback id)).map (·.transaction.transactionId) =
      ((db.store.rollbackRows id).recent.takeWhile (·.commitId <
        Store.lowestStartTime (db.store.rollbackRows id).active)).map (·.transactionId) := by
  obtain ⟨ht, rfl⟩ := h.active?_eq_some_iff.1 hactive
  rw [map_cleanupCalls (by rw [Database.removal, hactive, Option.map_some])]
  have hzero : t.clearUndo.commitId = 0 := h.uncommitted t ht
  simp only [recentlyCommitted, ne_eq, hzero, not_true_eq_false, if_false,
    others, map_filter_running]
  rfl

end Database.Invariant

theorem Journal.Agrees.cleanStore {journal : Journal} {rows : Store V} (hrows : rows.Invariant)
    (h : journal.Agrees rows.nextId rows.active rows.recent) :
    Agrees { journal with
      cleaned := journal.cleaned ++
        (rows.recent.takeWhile (·.commitId < Store.lowestStartTime rows.active)).map
          (·.transactionId) } rows.clean.nextId rows.clean.active rows.clean.recent := by
  obtain ⟨hnext, hactive, hrecent⟩ := rows.clean_lists
  rw [hnext, hactive, hrecent]
  refine clean ?_ ?_
  · rwa [takeWhile_append_dropWhile]
  · rw [takeWhile_append_dropWhile]
    exact (nodup_append.1 hrows.nodup).2.1

namespace System

/-- What holds along a run without checkpoints. -/
structure Invariant (s : System V C) : Prop where
  database : s.database.Invariant
  journal : s.journal.Agrees s.database.store.nextId s.database.store.active
    s.database.store.recent

namespace Invariant

variable {s : System V C} (checks : ℕ → TableChecks V C)

theorem initial (columnCount : ℕ → ℕ) : (System.initial columnCount : System V C).Invariant where
  database := Database.Invariant.invariant_initial columnCount
  journal := by
    constructor <;> simp [System.initial, Database.initial, Database.store, Runs]

theorem bookkept (h : s.Invariant) : s.Bookkept where
  active id := by
    rw [← h.journal.running id]
    simp [Runs, store, running]
  nodup := by
    have hnodup := (nodup_append.1 h.database.store.nodup).1
    simpa [store, running, Function.comp_def] using hnodup
  sorted := by
    have hsorted := h.database.store.sorted
    rw [store, pairwise_map] at hsorted
    exact hsorted

/-- Everything that can be cleaned up has been, exactly when each recently committed transaction is
kept for an active one. -/
theorem allCleaned_iff (h : s.Invariant) :
    s.AllCleaned ↔ ∀ f ∈ s.database.store.recent, ∃ a ∈ s.database.store.active,
      a.startTime ≤ f.commitId := by
  constructor
  · intro hclean f hf
    by_contra hnone
    have hcleaned := hclean _ (h.journal.recent_committed f hf) fun t ht => by
      by_contra hle
      exact hnone ⟨t.running, mem_map_of_mem ht, not_lt.1 hle⟩
    exact h.journal.cleaned_ne _ hcleaned f hf rfl
  · intro hkept c hc hbelow
    rcases h.journal.cleaned_or_recent c hc with hcleaned | hrecent
    · exact hcleaned
    · obtain ⟨a, ha, hle⟩ := hkept _ hrecent
      obtain ⟨t, ht, rfl⟩ := mem_map.1 ha
      exact absurd (hbelow t ht) (not_lt.2 hle)

theorem operation (h : s.Invariant) (op : Op V C) : (s.step checks (.operation op)).Invariant := by
  have hstep := h.database.step checks op
  refine ⟨hstep.invariant, ?_⟩
  change Journal.Agrees (s.journal.record s.database op) (s.database.step checks op).1.store.nextId
    (s.database.step checks op).1.store.active (s.database.step checks op).1.store.recent
  rw [hstep.store]
  have hwrites : ∀ (id : ℕ) (changes : Transaction C → List (Change V)),
      let events := (s.database.transactionManager.active? id).elim []
        fun t => (changes t).map (Event.write id)
      s.journal.Agrees (events.foldl Store.apply s.database.store).nextId
        (events.foldl Store.apply s.database.store).active
        (events.foldl Store.apply s.database.store).recent := by
    intro id changes events
    have hevents : ∀ e ∈ events, ∃ owner change, e = .write owner change := by
      intro e he
      cases hid : s.database.transactionManager.active? id with
      | none => simp [events, hid] at he
      | some t =>
        simp only [events, hid, Option.elim_some, mem_map] at he
        obtain ⟨c, -, rfl⟩ := he
        exact ⟨id, c, rfl⟩
    obtain ⟨hnext, hactive, hrecent⟩ := Store.foldl_writes hevents s.database.store
    rw [hnext, hactive, hrecent]
    exact h.journal
  cases op with
  | startTransaction =>
    simp only [events, Journal.record]
    split_ifs
    · exact h.journal
    · exact h.journal.start _
  | append id table chunk | update id table updates | delete id table rowIdentifiers =>
    exact hwrites id _
  | commit id =>
    simp only [events, Journal.record]
    cases hactive : s.database.transactionManager.active? id with
    | none => exact h.journal
    | some t =>
      have hruns := h.database.runs_iff.2 ⟨t, hactive⟩
      rw [Option.elim_some, h.database.cleanupCalls_commit hactive]
      exact Journal.Agrees.cleanStore (h.database.store.commitRows hruns)
        (h.journal.commit hruns s.database.store.clock)
  | rollback id =>
    simp only [events, Journal.record]
    cases hactive : s.database.transactionManager.active? id with
    | none => exact h.journal
    | some t =>
      have hruns := h.database.runs_iff.2 ⟨t, hactive⟩
      rw [Option.elim_some, h.database.cleanupCalls_rollback hactive]
      exact Journal.Agrees.cleanStore h.database.store.rollbackRows (h.journal.rollback hruns)
  | _ => exact h.journal

/-- A checkpoint that cannot start its transaction changes nothing. -/
theorem createCheckpoint_of_refused
    (hrefused : transactionIdStart ≤ s.database.transactionManager.currentStartTimestamp) :
    s.step checks .createCheckpoint = s := by
  simp [System.step, createCheckpoint, startTransaction, hrefused,
    Journal.recordCheckpoint]

/-- The transaction of a checkpoint stays active although it was rolled back. -/
theorem not_bookkept_createCheckpoint
    (hstarts : ¬transactionIdStart ≤ s.database.transactionManager.currentStartTimestamp) :
    ¬(s.step checks .createCheckpoint).Bookkept := by
  intro hbooks
  have hmem : s.database.transactionManager.currentTransactionId ∈
      (s.step checks .createCheckpoint).database.transactionManager.activeTransactions.map
        (·.transactionId) := by
    simp [System.step, createCheckpoint, startTransaction, hstarts,
      setTransaction, clearUndo]
  refine ((hbooks.active _).1 hmem).2.2 ?_
  simp [System.step, Journal.recordCheckpoint, hstarts]

/-- A removal hands everything to `Cleanup` that it should. -/
theorem allCleaned_iff_sound (h : s.Invariant) {op : Op V C} (hop : s.Removes (.operation op)) :
    (s.step checks (.operation op)).AllCleaned ↔ s.Sound (.operation op) := by
  rw [(h.operation checks op).allCleaned_iff]
  change (∀ f ∈ (s.database.step checks op).1.store.recent,
    ∃ a ∈ (s.database.step checks op).1.store.active, a.startTime ≤ f.commitId) ↔ _
  rw [(h.database.step checks op).store]
  have hothers : ∀ id, (s.database.store.active.filter (·.transactionId ≠ id) = []) ↔
      s.database.transactionManager.others id = [] := by
    intro id
    rw [store, ← Database.Invariant.map_filter_running, map_eq_nil_iff, others]
  cases op with
  | commit id =>
    simp only [Removes, removal, Option.isSome_map] at hop
    obtain ⟨t, hactive⟩ := Option.isSome_iff_exists.1 hop
    have hruns := h.database.runs_iff.2 ⟨t, hactive⟩
    simp only [events, hactive, Option.elim_some, Sound, Option.isSome_some, true_imp_iff]
    refine (h.database.store.commitRows hruns).clean_iff.trans ?_
    refine imp_congr (hothers id) ⟨fun hall => ?_, fun hclock f hf => ?_⟩
    · exact hall ⟨id, s.database.store.clock⟩ (mem_append_right _ (mem_singleton_self _))
    · rcases mem_append.1 hf with hf | hf
      · exact (h.database.store.recent_commit f hf).trans hclock
      · rw [mem_singleton.1 hf]
        exact hclock
  | rollback id =>
    simp only [Removes, removal, Option.isSome_map] at hop
    obtain ⟨t, hactive⟩ := Option.isSome_iff_exists.1 hop
    simp only [events, hactive, Option.elim_some, Sound, Option.isSome_some, true_imp_iff]
    refine h.database.store.rollbackRows.clean_iff.trans ?_
    refine imp_congr (hothers id) ⟨fun hall t ht => ?_, fun hall f hf => ?_⟩
    · exact hall t.finished (mem_map_of_mem ht)
    · obtain ⟨t, ht, rfl⟩ := mem_map.1 hf
      exact hall t ht
  | _ => simp [Removes, removal] at hop

/-- An operation that removes no transaction is sound. -/
theorem sound_of_not_removes {op : Op V C} (hop : ¬s.Removes (.operation op)) :
    s.Sound (.operation op) := by
  cases op with
  | commit id | rollback id =>
    intro hactive
    exact absurd (by simpa [Removes, removal] using hactive) hop
  | _ => trivial

/-- The books are kept by the sound operations, and by no others. -/
theorem keepsBooks_iff_sound (h : s.Invariant) (op : SystemOp V C) :
    s.Sound op ↔ s.KeepsBooks checks op := by
  cases op with
  | operation op =>
    constructor
    · intro hsound
      exact ⟨(h.operation checks op).bookkept, fun hop => (h.allCleaned_iff_sound checks hop).2 hsound⟩
    · rintro ⟨-, hclean⟩
      by_cases hop : s.Removes (.operation op)
      · exact (h.allCleaned_iff_sound checks hop).1 (hclean hop)
      · exact sound_of_not_removes hop
  | createCheckpoint =>
    constructor
    · intro hrefused
      have hsame := createCheckpoint_of_refused checks hrefused
      exact ⟨hsame.symm ▸ h.bookkept, False.elim⟩
    · rintro ⟨hbooks, -⟩
      by_contra hstarts
      exact not_bookkept_createCheckpoint checks hstarts hbooks

theorem step (h : s.Invariant) {op : SystemOp V C} (hop : s.Sound op) :
    (s.step checks op).Invariant := by
  cases op with
  | operation op => exact h.operation checks op
  | createCheckpoint =>
    rw [createCheckpoint_of_refused checks hop]
    exact h

theorem meets_keepsBooks_iff (h : s.Invariant) (ops : List (SystemOp V C)) :
    Meets (System.step checks) (KeepsBooks checks) s ops ↔
      Meets (System.step checks) Sound s ops := by
  refine (meets_congr (I := Invariant) ?_ ?_ h).symm
  · exact fun s op hs => hs.step checks
  · exact fun s op hs => hs.keepsBooks_iff_sound checks op

end Invariant

/-! ### Runs -/

/-- **Bookkeeping**: from the opening of the database on, the active transactions are those that
were started and have not ended, the recently committed ones are in the order of their commit ids,
and each removal cleans up everything it should, exactly when no checkpoint starts a transaction and
no transaction ends as the last active one while there is a commit id of `2 ^ 32` or more. -/
theorem keepsBooks_iff (checks : ℕ → TableChecks V C) (columnCount : ℕ → ℕ)
    (startUp : StartUp V C) (ops : List (Op V C)) :
    Meets (step checks) (KeepsBooks checks) (initial columnCount)
        (startUp.ops ++ ops.map .operation) ↔
      Meets (step checks) Sound (initial columnCount) (startUp.ops ++ ops.map .operation) :=
  (Invariant.initial columnCount).meets_keepsBooks_iff checks _

/-- Opening a database with an empty write-ahead log, then one transaction that inserts a row. -/
def afterReplay : List (SystemOp ℕ Unit) :=
  ({ files := some { wal := some { flushed := [] } } } : StartUp ℕ Unit).ops ++
    [.startTransaction, .append (transactionIdStart + 2) 0 (.single [1]),
      .commit (transactionIdStart + 2)].map .operation

/-- **The checkpoint's transaction stays active for good.**  It has been rolled back, and no
transaction that commits later is handed to `Cleanup`. -/
theorem not_keepsBooks_replay :
    let s := afterReplay.foldl (step fun _ => .unconstrained) (initial fun _ => 1)
    ¬Meets (step fun _ => .unconstrained) (KeepsBooks fun _ => .unconstrained)
        (initial fun _ => 1) afterReplay ∧
      transactionIdStart + 1 ∈ s.journal.rolledBack ∧
      s.database.transactionManager.activeTransactions.map (·.transactionId) =
        [transactionIdStart + 1] ∧
      transactionIdStart + 2 ∈ s.journal.committed.map Prod.fst ∧
      transactionIdStart + 2 ∉ s.journal.cleaned := by
  refine ⟨fun hbooks => ?_, by decide, by decide, by decide, by decide⟩
  have hsound := ((Invariant.initial fun _ => 1).meets_keepsBooks_iff _ afterReplay).1 hbooks
  -- the third operation is the checkpoint, at time 2
  have hrefused : transactionIdStart ≤ 2 := hsound.2.2.1
  exact absurd hrefused (by decide)

end System

end DuckDB
