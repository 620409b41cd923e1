import DuckDB.Storage.Equiv.Scan
import DuckDB.Transaction.Equiv.Step

/-!
# Garbage collection

`RemoveTransaction` calls `Cleanup` for recently committed transactions. `cleanupCalls` lists these
calls for one operation, each with the state it is made in.

* `reads_of_cleanup`: no call of `Cleanup` changes what a transaction that is active at that moment,
  or one that starts later, gets for a row, from `Scan` or from `Fetch`.
-/

namespace DuckDB

open List TransactionManager Transaction Theory DataTable

variable {V C : Type*}

/-- A call of `Cleanup`: for which transaction, the other transactions that are active, the next
start time, and the tables before the call. -/
structure CleanupCall (V C : Type*) where
  transaction : Transaction C
  active : List (Transaction C)
  clock : ℕ
  tables : Tables V

namespace CleanupCall

/-- The tables after the call. -/
def cleaned (call : CleanupCall V C) : Tables V :=
  call.transaction.cleanupUndo call.tables

/-- The reader is active when the call is made, or it starts later. -/
def Concerns (call : CleanupCall V C) (reader : Transaction C) : Prop :=
  reader ∈ call.active ∨ call.clock ≤ reader.startTime

end CleanupCall

namespace Database

/-- The calls of `Cleanup` for a list of transactions, one after the other. -/
def callsFor (active : List (Transaction C)) (clock : ℕ) :
    Tables V → List (Transaction C) → List (CleanupCall V C)
  | _, [] => []
  | tables, t :: ts => ⟨t, active, clock, tables⟩ :: callsFor active clock (t.cleanupUndo tables) ts

/-- The call of `RemoveTransaction` in an operation: the transaction that ends and the database at
that moment. -/
def removal (db : Database V C) : Op V C → Option (Transaction C × Database V C)
  | .commit id => (db.transactionManager.active? id).map fun t =>
    let commitId := db.transactionManager.currentStartTimestamp
    ({ t with commitId := commitId },
      { transactionManager :=
          { db.transactionManager with currentStartTimestamp := commitId + 1 }
        tables := t.commitUndo commitId db.tables })
  | .rollback id => (db.transactionManager.active? id).map fun t =>
    (t.clearUndo, { db with tables := t.rollbackUndo db.tables })
  | _ => none

/-- The calls of `Cleanup` in an operation. -/
def cleanupCalls (db : Database V C) (op : Op V C) : List (CleanupCall V C) :=
  (db.removal op).elim [] fun (t, db') =>
    callsFor (db'.transactionManager.others t.transactionId)
      db'.transactionManager.currentStartTimestamp db'.tables (db'.transactionManager.cleanable t)

theorem mem_callsFor {active : List (Transaction C)} {clock : ℕ} {tables : Tables V}
    {ts : List (Transaction C)} {call : CleanupCall V C}
    (h : call ∈ callsFor active clock tables ts) :
    call.active = active ∧ call.clock = clock ∧ ∃ before after,
      ts = before ++ call.transaction :: after ∧ call.tables = before.foldl cleanupUndo tables := by
  induction ts generalizing tables with
  | nil => simp [callsFor] at h
  | cons t ts ih =>
    rcases mem_cons.1 h with rfl | h
    · exact ⟨rfl, rfl, [], ts, rfl, rfl⟩
    · obtain ⟨h₁, h₂, before, after, rfl, htables⟩ := ih h
      exact ⟨h₁, h₂, t :: before, after, rfl, htables⟩

theorem sameShape_cleanupUndo (t : Transaction C) (tables : Tables V) (table : ℕ) :
    SameShape (t.cleanupUndo tables table) (tables table) := by
  have key : ∀ (entries : List (UndoEntry C × ℕ)) (tables : Tables V),
      SameShape (entries.foldl (cleanupEntry t.transactionId) tables table) (tables table) := by
    intro entries
    induction entries with
    | nil => exact fun tables => rfl
    | cons e entries ih =>
      intro tables
      refine (ih _).trans ?_
      obtain ⟨entry, index⟩ := e
      cases entry with
      | tuple flag table' row =>
        simp only [cleanupEntry, Tables.modifyRow, Tables.modifyTable]
        by_cases heq : table = table'
        · subst heq
          rw [Function.update_self]
          exact sameShape_modifyRow
        · rw [Function.update_of_ne heq]
      | _ => rfl
  exact key _ tables

namespace Invariant

variable {db : Database V C} {t : Transaction C} {op : Op V C} {reader : Transaction C}

theorem cleanAll (h : db.Invariant) {before rest : List (Transaction C)}
    (hrecent : db.transactionManager.recentlyCommittedTransactions = before ++ rest) :
    Invariant (⟨{ db.transactionManager with recentlyCommittedTransactions := rest },
      before.foldl cleanupUndo db.tables⟩ : Database V C) := by
  induction before generalizing db with
  | nil =>
    have hsame : db.transactionManager =
        { db.transactionManager with recentlyCommittedTransactions := rest } := by
      rw [← show _ = rest from hrecent]
    rw [← hsame]
    exact h
  | cons u before ih => exact ih (h.cleanOldest hrecent).1 rfl

/-- The oldest recently committed transaction can be cleaned up without a transaction noticing that
started after its commit. -/
theorem reading_cleanOldest (h : db.Invariant) {rest : List (Transaction C)}
    (hrecent : db.transactionManager.recentlyCommittedTransactions = t :: rest)
    (hreader : t.commitId < reader.startTime) (table : ℕ) :
    ((t.cleanupUndo db.tables table).rows.map (reading reader)) =
      (db.tables table).rows.map (reading reader) := by
  obtain ⟨hinv, hstore⟩ := h.cleanOldest hrecent
  have hrec : db.store.recent = t.finished :: rest.map finished := by
    simp [Database.store, hrecent]
  have hrows : (t.cleanupUndo db.tables table).rows.map RowSlot.versioned =
      ((db.tables table).rows.map RowSlot.versioned).map (·.cleanup t.transactionId) := by
    have := congrArg (fun s => s.rows table) hstore
    rw [Store.cleanOldest_of_recent hrec] at this
    exact this
  have hsees : reader.sees t.commitId := by simp [sees, hreader]
  refine ext_getElem? fun row => ?_
  have hrow := congrArg (fun l : List (VersionedRow V) => l[row]?) hrows
  simp only [getElem?_map, Option.map_map] at hrow
  rw [getElem?_map, getElem?_map]
  cases hold : (db.tables table).rows[row]? with
  | none =>
    rw [hold, Option.map_none] at hrow
    rw [Option.map_eq_none_iff.1 hrow]
  | some slot =>
    rw [hold, Option.map_some] at hrow
    obtain ⟨slot', hslot', heq⟩ := Option.map_eq_some_iff.1 hrow
    have hold' : db.row? table row = some slot := (row?_eq db table row).trans hold
    have hnew' : (db.cleanOldest t rest).row? table row = some slot' :=
      (row?_eq _ table row).trans hslot'
    rw [hslot', Option.map_some, Option.map_some, reading, reading,
      chooseVersion_eq reader (hinv.sameNumbers hnew'), heq,
      chooseVersion_eq reader (h.sameNumbers hold')]
    have hchoose : (slot.versioned.cleanup t.transactionId).choose reader.sees =
        slot.versioned.choose reader.sees :=
      h.store.choose_cleanup hrec (versioned_mem hold') hsees
    have hcolumns : slot'.columns = slot.columns :=
      congrArg (fun v : VersionedRow V => v.state.columns) heq
    exact congrArg some (Prod.ext hcolumns hchoose)

/-- `RemoveTransaction` is called in a state that satisfies the invariant, but for the transaction
that ends: it is among the recently committed ones if it has committed. -/
theorem removal (h : db.Invariant) {db' : Database V C} (hop : db.removal op = some (t, db')) :
    Invariant (⟨{ db'.transactionManager with
      activeTransactions := db'.transactionManager.others t.transactionId
      recentlyCommittedTransactions := db'.transactionManager.recentlyCommitted t },
      db'.tables⟩ : Database V C) := by
  cases op with
  | commit id =>
    obtain ⟨u, hu, heq⟩ := Option.map_eq_some_iff.1 hop
    obtain ⟨rfl, rfl⟩ := Prod.mk.inj heq
    have hum := (h.active?_eq_some_iff.1 hu).1
    have hinv := (h.commitRows hum).1
    simp only [recentlyCommitted, ne_eq, h.clock_pos hum, not_false_eq_true, if_true]
    exact hinv
  | rollback id =>
    obtain ⟨u, hu, heq⟩ := Option.map_eq_some_iff.1 hop
    obtain ⟨rfl, rfl⟩ := Prod.mk.inj heq
    have hum := (h.active?_eq_some_iff.1 hu).1
    have hzero : u.clearUndo.commitId = 0 := h.uncommitted u hum
    simp only [recentlyCommitted, ne_eq, hzero, not_true_eq_false, if_false]
    exact (h.rollbackRows hum).1
  | _ => simp [Database.removal] at hop

theorem lowestStartTime_le {active : List (Transaction C)} (ht : t ∈ active) :
    lowestStartTime active ≤ t.startTime :=
  (le_foldl_min_iff.1 le_rfl).2 t ht

/-- The rows read alike before and after a call of `Cleanup`. -/
theorem reading_cleanup (h : db.Invariant) {call : CleanupCall V C}
    (hcall : call ∈ db.cleanupCalls op) (hreader : call.Concerns reader) (table : ℕ) :
    (call.cleaned table).rows.map (reading reader) =
      (call.tables table).rows.map (reading reader) := by
  unfold Database.cleanupCalls at hcall
  cases hop : db.removal op with
  | none => simp [hop] at hcall
  | some removed =>
    obtain ⟨u, db'⟩ := removed
    rw [hop] at hcall
    obtain ⟨hactive, hclock, before, after, hcleanable, htables⟩ := mem_callsFor hcall
    have hinv := h.removal hop
    -- the cleanable transactions are the oldest ones of the recently committed ones
    have hrecent : db'.transactionManager.recentlyCommitted u =
        before ++ (call.transaction :: (after ++ (db'.transactionManager.recentlyCommitted u).dropWhile
          (·.commitId < lowestStartTime (db'.transactionManager.others u.transactionId)))) := by
      rw [← cons_append, ← append_assoc, ← hcleanable, cleanable, takeWhile_append_dropWhile]
    have hcleaned := hinv.cleanAll hrecent
    have hmem : call.transaction ∈ db'.transactionManager.cleanable u := by simp [hcleanable]
    have hlt : call.transaction.commitId < reader.startTime := by
      rcases hreader with hreader | hreader
      · rw [hactive] at hreader
        have hlow : call.transaction.commitId < lowestStartTime
            (db'.transactionManager.others u.transactionId) := by
          simpa using mem_takeWhile_imp hmem
        exact hlow.trans_le (lowestStartTime_le hreader)
      · have hrec : call.transaction ∈ db'.transactionManager.recentlyCommitted u := by
          rw [hrecent]
          simp
        have hcommit := hinv.store.recent_commit call.transaction.finished (mem_map_of_mem hrec)
        rw [hclock] at hreader
        exact Nat.lt_of_lt_of_le hcommit hreader
    have hread := hcleaned.reading_cleanOldest rfl hlt table
    rw [CleanupCall.cleaned, htables]
    exact hread

end Invariant

/-- **Garbage collection is invisible.**  Whatever happened before, a call of `Cleanup` does not
change what a transaction that is active at that moment or starts later gets for any row: where the
row is read from and what is read, the rows that `Scan` returns and where it goes on, and the result
of `Fetch`. The rows of one call of `Scan` may come in another order, since rows without version
come before those with one. -/
theorem reads_of_cleanup (checks : ℕ → TableChecks V C) (columnCount : ℕ → ℕ)
    (ops : List (Op V C)) (op : Op V C) :
    ∀ call ∈ ((initial columnCount).run checks ops).cleanupCalls op,
      ∀ reader : Transaction C, call.Concerns reader → ∀ table,
        (∀ row, (call.cleaned.row? table row).map (reading reader) =
          (call.tables.row? table row).map (reading reader)) ∧
        (∀ columnIds structure_,
          (scan reader columnIds (call.cleaned table) structure_).1.Perm
              (scan reader columnIds (call.tables table) structure_).1 ∧
            (scan reader columnIds (call.cleaned table) structure_).2 =
              (scan reader columnIds (call.tables table) structure_).2) ∧
        ∀ columnIds rowIdentifiers, fetch reader columnIds (call.cleaned table) rowIdentifiers =
          fetch reader columnIds (call.tables table) rowIdentifiers := by
  intro call hcall reader hreader table
  have hinv := ((Invariant.invariant_initial columnCount).run checks ops).invariant
  have hread := hinv.reading_cleanup hcall hreader table
  refine ⟨fun row => ?_, scan_congr (sameShape_cleanupUndo _ _ _) hread, fetch_congr hread⟩
  rw [Tables.row?_eq, Tables.row?_eq, ← getElem?_map, ← getElem?_map, hread]

/-- The second transaction keeps the first one from being cleaned up; the third one started after
the commit. -/
def waitingCleanup : List (Op ℕ Unit) :=
  [.startTransaction, .append transactionIdStart 0 (.single [1]), .startTransaction,
    .commit transactionIdStart, .startTransaction]

/-- When the second transaction ends, the first one is cleaned up, and the third one still reads the
row. -/
theorem fetch_waitingCleanup :
    let db := (initial fun _ => 1).run (fun _ => .unconstrained) waitingCleanup
    let reader : Transaction Unit := { startTime := 3, transactionId := transactionIdStart + 2 }
    let calls := db.cleanupCalls (.rollback (transactionIdStart + 1))
    calls.length = 1 ∧
      calls.map (fun call => fetch reader [.column 0] (call.cleaned 0) [0]) =
        calls.map (fun call => fetch reader [.column 0] (call.tables 0) [0]) := by
  intro db reader calls
  have hactive : ∀ call ∈ calls, reader ∈ call.active := by decide
  refine ⟨by decide, map_congr_left fun call hcall => ?_⟩
  exact (reads_of_cleanup (fun _ => .unconstrained) (fun _ => 1) waitingCleanup
    (.rollback (transactionIdStart + 1)) call hcall reader (.inl (hactive call hcall)) 0).2.2
    [.column 0] [0]

end Database

end DuckDB
