import DuckDB.Transaction.Equiv.Isolation
import Mathlib.Algebra.BigOperators.Group.Finset.Basic
import Mathlib.Algebra.BigOperators.Ring.Finset
import Mathlib.Tactic.Ring

/-!
# The cardinality of a table

`UndoBuffer::Commit` adds one to the cardinality of a table for every inserted row and takes one
away for every deleted row of the transaction. The counter is compared with the number of live rows
of the committed state, which is what the changes of the committed transactions lead to.

* `History.Balanced`: the insertions less the deletions of the committed transactions are the live
  rows, and those of a running transaction are the rows that it would add by committing.
* `cardinality_eq_liveRows`: the counter is right after every run in which no operation changes a
  deleted row and no `Delete` gets a row twice.
* `cardinality_ne_liveRows`: two transactions that delete the same row, one after the other, both
  count it.
-/

namespace DuckDB

open Theory Finset Function RowView History RowWrite DataTable

variable {V C : Type*}

/-! ### Counting changes -/

/-- What a change adds to the number of rows. -/
def RowWrite.delta : RowWrite V → ℤ
  | insert _ => 1
  | touch => 0
  | set _ _ => 0
  | delete => -1

/-- What a list of changes adds to the number of rows of a table. -/
def net (table : ℕ) (changes : List (Change V)) : ℤ :=
  (changes.map fun c => if c.table = table then c.write.delta else 0).sum

/-- Whether a row exists, as a number. -/
def live (state : Option (List V)) : ℤ :=
  if state.isSome then 1 else 0

variable (table : ℕ)

@[simp] theorem net_nil : net table ([] : List (Change V)) = 0 := rfl

@[simp] theorem net_append {changes changes' : List (Change V)} :
    net table (changes ++ changes') = net table changes + net table changes' := by
  simp [net]

theorem net_singleton {c : Change V} :
    net table [c] = if c.table = table then c.write.delta else 0 := by
  simp [net]

theorem net_eq_zero {changes : List (Change V)} (h : ∀ c ∈ changes, c.write.delta = 0)
    (table : ℕ) : net table changes = 0 := by
  refine List.sum_eq_zero fun x hx => ?_
  obtain ⟨c, hc, rfl⟩ := List.mem_map.1 hx
  simp [h c hc]

/-- A change adds what it says: a new row did not exist before, a deleted one did. -/
theorem live_apply {w : RowWrite V} {state : Option (List V)}
    (hinsert : w.isInsert → state = none) (hdelete : w = .delete → state.isSome) :
    live (w.apply state) = live state + w.delta := by
  cases w with
  | insert tuple => simp [hinsert rfl, live, apply, delta]
  | touch => simp [apply, delta]
  | set column value => simp [live, apply, delta]
  | delete => simp [hdelete rfl, live, apply, delta]

theorem applyTo_concat_self {c : Change V} {changes : List (Change V)} {state : Option (List V)} :
    applyTo c.table c.row (changes ++ [c]) state =
      c.write.apply (applyTo c.table c.row changes state) := by
  rw [applyTo, onRow_concat_self, List.foldl_concat]
  rfl

theorem applyTo_concat_of_ne {table row : ℕ} {c : Change V} {changes : List (Change V)}
    (h : ¬(c.table = table ∧ c.row = row)) {state : Option (List V)} :
    applyTo table row (changes ++ [c]) state = applyTo table row changes state := by
  rw [applyTo, onRow_concat_of_ne h]
  rfl

/-! ### The committed state -/

namespace History

/-- The state of a row that the committed transactions lead to. -/
def committedState (h : History V) (table row : ℕ) : Option (List V) :=
  h.committed.foldl (fun state c => applyTo table row c.changes state) none

/-- The live rows of a table in the committed state, among those with a number below `n`. -/
def liveRows (h : History V) (table n : ℕ) : Finset ℕ :=
  (range n).filter fun row => (h.committedState table row).isSome

/-- What the committed transactions added to the number of rows of a table. -/
def committedNet (h : History V) (table : ℕ) : ℤ :=
  (h.committed.map fun c => net table c.changes).sum

theorem sum_live (h : History V) {table n : ℕ} :
    ∑ row ∈ range n, live (h.committedState table row) = ((h.liveRows table n).card : ℤ) := by
  simp [live, liveRows, Finset.sum_boole]

theorem committedState_commit (h : History V) {owner startTime commitId table row : ℕ} :
    (h.record (.commit owner startTime commitId)).committedState table row =
      applyTo table row (h.pending owner) (h.committedState table row) := by
  simp [committedState, record]

theorem committedNet_commit (h : History V) {owner startTime commitId table : ℕ} :
    (h.record (.commit owner startTime commitId)).committedNet table =
      h.committedNet table + net table (h.pending owner) := by
  simp [committedNet, record]

/-- The insertions and deletions that have been made are the differences in live rows. -/
structure Balanced (s : Store V) (h : History V) : Prop where
  committed : ∀ table n, (s.rows table).length ≤ n →
    h.committedNet table = ∑ row ∈ range n, live (h.committedState table row)
  pending : ∀ owner table n, (s.rows table).length ≤ n → net table (h.pending owner) =
    ∑ row ∈ range n, (live (applyTo table row (h.pending owner) (h.committedState table row)) -
      live (h.committedState table row))

end History

/-- A deletion is made to a row that is not deleted. -/
def LiveDelete (s : Store V) : Event V → Prop
  | .write _ c => c.write = .delete →
    ∀ versioned, (s.rows c.table)[c.row]? = some versioned → versioned.state.deleted = false
  | _ => True

namespace History.Invariant

variable {s : Store V} {h : History V} {owner table row : ℕ} {versioned : VersionedRow V}
  {view : RowView V σ}

theorem replay_eq_committedState (hinv : h.Invariant view s) :
    VersionChain.replay none (full.committedOn h table row) = h.committedState table row := by
  have hreplay := replay_committedOn h table row s.clock
  have hall : h.committed.filter (·.commitId < s.clock) = h.committed :=
    List.filter_eq_self.2 fun c hc => by simpa using hinv.commitIds c hc
  have hallOn : (full.committedOn h table row).filter (fun c => decide (c.1.2 < s.clock)) =
      full.committedOn h table row := by
    refine List.filter_eq_self.2 fun c hc => ?_
    obtain ⟨t, ht, -, rfl⟩ := mem_committedOn hc
    simpa using hinv.commitIds t ht
  rw [hall, hallOn] at hreplay
  exact hreplay

/-- A row that a transaction may change is as the committed transactions and its own changes left
it. -/
theorem current_eq (hinv : h.Invariant full s) (hruns : Runs s.active owner)
    (hrow : (s.rows table)[row]? = some versioned) (hconf : versioned.conflicts owner = false) :
    versioned.current = applyTo table row (h.pending owner) (h.committedState table row) := by
  obtain ⟨writer, hist⟩ := hinv.rows table row versioned hrow
  have hcurrent : versioned.current =
      VersionChain.replay none (full.rowHistory h table row writer) :=
    hist.explains.current_eq
  rw [hcurrent, ← hinv.replay_eq_committedState]
  cases howned : versioned.ownedBy owner with
  | true =>
    obtain rfl := (hist.ownedBy_iff hinv hruns).1 howned
    rfl
  | false =>
    obtain rfl := hist.writer_eq_none hinv (List.mem_of_getElem? hrow) hconf howned
    have hnil : onRow table row (h.pending owner) = [] := by
      by_contra hne
      exact absurd ((hist.pending owner).1 hne) (by simp)
    rw [applyTo_of_onRow_eq_nil hnil]
    rfl

theorem committedState_eq_none (hinv : h.Invariant view s) (hlen : (s.rows table).length ≤ row) :
    h.committedState table row = none := by
  rw [← hinv.replay_eq_committedState]
  have hnil : full.committedOn h table row = [] := by
    rw [committedOn,
      List.filter_eq_nil_iff.2 fun c hc => by simp [(hinv.unused table row hlen).2 c hc]]
    rfl
  rw [hnil]
  rfl

/-- Only running transactions have uncommitted changes. -/
theorem pending_eq_nil (hinv : h.Invariant view s) (hruns : ¬Runs s.active owner) :
    h.pending owner = [] := by
  refine List.eq_nil_iff_forall_not_mem.2 fun c hc => ?_
  have hne : onRow c.table c.row (h.pending owner) ≠ [] :=
    List.ne_nil_of_mem (List.mem_filter.2 ⟨hc, by simp⟩)
  by_cases hlt : c.row < (s.rows c.table).length
  · obtain ⟨writer, hist⟩ := hinv.rows _ _ _ (List.getElem?_eq_getElem hlt)
    exact hruns (hist.running owner ((hist.pending owner).1 hne))
  · exact hne ((hinv.unused c.table c.row (not_lt.1 hlt)).1 owner)

theorem live_write {c : Change V} (hinv : h.Invariant full s) (hruns : Runs s.active owner)
    (hok : s.Writable owner c) (hlive : LiveDelete s (.write owner c)) :
    live (c.write.apply (applyTo c.table c.row (h.pending owner)
        (h.committedState c.table c.row))) =
      live (applyTo c.table c.row (h.pending owner) (h.committedState c.table c.row)) +
        c.write.delta := by
  refine live_apply (fun hinsert => ?_) fun hdelete => ?_
  · -- a new row comes after all others
    obtain ⟨table, row, w⟩ := c
    cases w with
    | insert tuple =>
      have hlen : (s.rows table).length ≤ row := Eq.ge hok
      rw [applyTo_of_onRow_eq_nil ((hinv.unused table row hlen).1 owner),
        hinv.committedState_eq_none hlen]
    | _ => simp [isInsert] at hinsert
  · have hw : c.write.isInsert = false := by rw [hdelete]; rfl
    obtain ⟨versioned, hrow, hconf⟩ := (Store.writable_iff_of_not_insert hw).1 hok
    rw [← hinv.current_eq hruns hrow hconf]
    simp [VersionedRow.current, RowState.tuple?, hlive hdelete versioned hrow]

end History.Invariant

namespace History.Balanced

variable {s s' : Store V} {h : History V} {owner : ℕ}

theorem mono (hbal : h.Balanced s)
    (hlen : ∀ table, (s.rows table).length ≤ (s'.rows table).length) : h.Balanced s' where
  committed table n hn := hbal.committed table n ((hlen table).trans hn)
  pending owner table n hn := hbal.pending owner table n ((hlen table).trans hn)

theorem write {c : Change V} (hbal : h.Balanced s) (hinv : h.Invariant full s)
    (hruns : Runs s.active owner) (hok : s.Writable owner c)
    (hlive : LiveDelete s (.write owner c)) :
    (h.record (.write owner c)).Balanced (s.writeRow owner c) := by
  have hlen := Store.length_le_writeRow s owner c
  refine ⟨(hbal.mono hlen).committed, fun o table n hn => ?_⟩
  have hold := hbal.pending o table n ((hlen table).trans hn)
  have hstate : (h.record (.write owner c)).committedState = h.committedState := rfl
  rw [hstate]
  by_cases ho : o = owner
  · subst ho
    have hpending : (h.record (.write o c)).pending o = h.pending o ++ [c] :=
      update_self ..
    rw [hpending, net_append, hold, net_singleton]
    split_ifs with htable
    · -- one row of the table changes
      subst htable
      have hmem : c.row ∈ range n := mem_range.2 ((Store.row_lt_writeRow hok).trans_le hn)
      rw [← Finset.add_sum_erase _ _ hmem, ← Finset.add_sum_erase _ _ hmem]
      have hrest : ∑ row ∈ (range n).erase c.row,
          (live (applyTo c.table row (h.pending o ++ [c]) (h.committedState c.table row)) -
            live (h.committedState c.table row)) =
          ∑ row ∈ (range n).erase c.row,
            (live (applyTo c.table row (h.pending o) (h.committedState c.table row)) -
              live (h.committedState c.table row)) := by
        refine Finset.sum_congr rfl fun row hr => ?_
        rw [applyTo_concat_of_ne fun heq => (Finset.ne_of_mem_erase hr) heq.2.symm]
      rw [hrest, applyTo_concat_self, hinv.live_write hruns hok hlive]
      ring
    · rw [add_zero]
      refine Finset.sum_congr rfl fun row _ => ?_
      rw [applyTo_concat_of_ne fun heq => htable heq.1]
  · have hpending : (h.record (.write owner c)).pending o = h.pending o :=
      update_of_ne ho ..
    rw [hpending]
    exact hold

theorem commit (startTime commitId : ℕ) {view : RowView V σ} (hbal : h.Balanced s)
    (hinv : h.Invariant view s) : (h.record (.commit owner startTime commitId)).Balanced s := by
  refine ⟨fun table n hn => ?_, fun o table n hn => ?_⟩
  · simp only [committedNet_commit, committedState_commit]
    rw [hbal.committed table n hn, hbal.pending owner table n hn, ← Finset.sum_add_distrib]
    exact Finset.sum_congr rfl fun row _ => add_sub_cancel _ _
  · simp only [committedState_commit]
    by_cases ho : o = owner
    · simp [record, ho, applyTo, onRow]
    · have hpending : (h.record (.commit owner startTime commitId)).pending o = h.pending o :=
        update_of_ne ho ..
      rw [hpending, hbal.pending o table n hn]
      refine Finset.sum_congr rfl fun row _ => ?_
      by_cases hrow : onRow table row (h.pending o) = []
      · simp only [applyTo_of_onRow_eq_nil hrow, sub_self]
      · -- nobody else changes the rows of a running transaction
        have hnil : onRow table row (h.pending owner) = [] := by
          by_contra hne
          exact ho (hinv.writer_unique hrow hne)
        simp only [applyTo_of_onRow_eq_nil hnil]

theorem rollback (hbal : h.Balanced s) : (h.record (.rollback owner)).Balanced s := by
  refine ⟨hbal.committed, fun o table n hn => ?_⟩
  by_cases ho : o = owner
  · simp [record, ho, applyTo, onRow]
  · rw [show (h.record (.rollback owner)).pending o = h.pending o from update_of_ne ho ..]
    exact hbal.pending o table n hn

/-- **Every allowed event keeps the balance**, unless it deletes a deleted row. -/
theorem apply {e : Event V} (hbal : h.Balanced s) (hinv : h.Invariant full s)
    (hok : s.Allowed e) (hlive : LiveDelete s e) : (h.record e).Balanced (s.apply e) := by
  cases e with
  | start => exact ⟨hbal.committed, hbal.pending⟩
  | write owner c => exact hbal.write hinv hok.1 hok.2 hlive
  | commit owner startTime commitId =>
    exact (hbal.commit startTime commitId hinv).mono (s.length_le_apply _)
  | rollback owner => exact hbal.rollback.mono (s.length_le_apply _)

theorem foldl (hbal : h.Balanced s) (hinv : h.Invariant full s) {events : List (Event V)}
    (hok : Meets Store.apply Store.Allowed s events)
    (hsaved : Meets Store.apply (SavedRight full) s events)
    (hlive : Meets Store.apply LiveDelete s events) :
    (events.foldl record h).Balanced (events.foldl Store.apply s) := by
  induction events generalizing s h with
  | nil => exact hbal
  | cons e events ih =>
    exact ih (hbal.apply hinv hok.1 hlive.1) (hinv.apply hok.1 hsaved.1) hok.2 hsaved.2 hlive.2

end History.Balanced

theorem History.balanced_initial : ({} : History V).Balanced ({} : Store V) :=
  ⟨by simp [committedNet, committedState, live], by simp [applyTo, onRow]⟩

/-! ### The undo buffer -/

/-- What `UndoBuffer::Commit` does to the cardinality for one entry. -/
def TupleFlag.delta : TupleFlag → ℤ
  | insertTuple => 1
  | deleteTuple => -1
  | updateTuple => 0

/-- What `UndoBuffer::Commit` does to the cardinality of a table for one entry. -/
def UndoEntry.delta (table : ℕ) : UndoEntry C → ℤ
  | tuple flag table' _ => if table' = table then flag.delta else 0
  | _ => 0

/-- What the commit of a list of undo entries does to the cardinality of a table. -/
def tally (table : ℕ) (entries : List (UndoEntry C)) : ℤ :=
  (entries.map (·.delta table)).sum

@[simp] theorem tally_nil : tally table ([] : List (UndoEntry C)) = 0 := rfl

@[simp] theorem tally_append {entries entries' : List (UndoEntry C)} :
    tally table (entries ++ entries') = tally table entries + tally table entries' := by
  simp [tally]

theorem tally_singleton {entry : UndoEntry C} : tally table [entry] = entry.delta table := by
  simp [tally]

/-- Undo entries count like the changes they belong to. -/
theorem tally_map {α : Type*} (flag : α → TupleFlag) (row : α → ℕ) (w : α → RowWrite V)
    (h : ∀ a, (flag a).delta = (w a).delta) (table table' : ℕ) (l : List α) :
    tally table (l.map fun a => (.tuple (flag a) table' (row a) : UndoEntry C)) =
      net table (l.map fun a => ⟨table', row a, w a⟩) := by
  simp only [tally, net, List.map_map]
  refine congrArg List.sum (List.map_congr_left fun a _ => ?_)
  simp [UndoEntry.delta, h]

namespace DataTable

theorem cardinality_countCommit {flag : TupleFlag} {t : DataTable V} :
    (countCommit flag t).cardinality = t.cardinality + BitVec.ofInt 64 flag.delta := by
  cases flag with
  | insertTuple => rfl
  | deleteTuple => exact BitVec.sub_eq_add_neg ..
  | updateTuple => exact (BitVec.add_zero _).symm

theorem cardinality_writeCells (cells : List (ℕ × ℕ × V)) (t : DataTable V) :
    (writeCells cells t).cardinality = t.cardinality := by
  induction cells generalizing t with
  | nil => rfl
  | cons cell cells ih => exact ih _

end DataTable

namespace Tables

variable (tables : Tables V)

theorem cardinality_modifyRow {table row : ℕ} {f : RowSlot V → RowSlot V} {table' : ℕ} :
    ((tables.modifyRow table row f) table').cardinality = (tables table').cardinality := by
  rw [modifyRow, modifyTable]
  by_cases ht : table' = table
  · subst ht
    rw [update_self]
    rfl
  · rw [update_of_ne ht]

/-- A walk over undo entries that changes rows only. -/
theorem cardinality_foldl {step : Tables V → UndoEntry C × ℕ → Tables V}
    (hstep : ∀ tables e, step tables e = tables ∨
      ∃ table row f, step tables e = tables.modifyRow table row f)
    (entries : List (UndoEntry C × ℕ)) (table : ℕ) :
    (entries.foldl step tables table).cardinality = (tables table).cardinality := by
  induction entries generalizing tables with
  | nil => rfl
  | cons e entries ih =>
    rw [List.foldl_cons, ih]
    obtain hsame | ⟨_, _, _, hmodify⟩ := hstep tables e
    · rw [hsame]
    · rw [hmodify, cardinality_modifyRow]

end Tables

namespace Transaction

variable (transaction : Transaction C)

theorem tally_createEntry (table : ℕ) {entry : UndoEntry C}
    (hentry : ∀ flag table' row, entry ≠ .tuple flag table' row) :
    tally table (transaction.createEntry entry).undoBuffer =
      tally table transaction.undoBuffer := by
  rw [createEntry, tally_append, tally_singleton]
  cases entry with
  | tuple flag table' row => exact absurd rfl (hentry flag table' row)
  | _ => exact add_zero _

theorem cardinality_rollbackUndo {tables : Tables V} {table : ℕ} :
    (transaction.rollbackUndo tables table).cardinality = (tables table).cardinality := by
  refine tables.cardinality_foldl (fun tables e => ?_) _ table
  obtain ⟨_ | _, _⟩ := e <;> first | exact .inr ⟨_, _, _, rfl⟩ | exact .inl rfl

theorem cardinality_cleanupUndo (tables : Tables V) (table : ℕ) :
    (cleanupUndo tables transaction table).cardinality = (tables table).cardinality := by
  refine tables.cardinality_foldl (fun tables e => ?_) _ table
  obtain ⟨_ | _, _⟩ := e <;> first | exact .inr ⟨_, _, _, rfl⟩ | exact .inl rfl

theorem cardinality_commitEntry {owner commitId : ℕ} {tables : Tables V} {e : UndoEntry C × ℕ}
    {table : ℕ} : (commitEntry owner commitId tables e table).cardinality =
      (tables table).cardinality + BitVec.ofInt 64 (e.1.delta table) := by
  obtain ⟨entry, index⟩ := e
  cases entry with
  | tuple flag table' row =>
    simp only [commitEntry, Tables.modifyTable, UndoEntry.delta]
    by_cases ht : table' = table
    · subst ht
      rw [update_self, cardinality_countCommit, Tables.cardinality_modifyRow, if_pos rfl]
    · rw [update_of_ne (Ne.symm ht), Tables.cardinality_modifyRow, if_neg ht]
      simp
  | _ => simp [commitEntry, UndoEntry.delta]

theorem cardinality_commitUndo {commitId : ℕ} {transaction : Transaction C} {tables : Tables V}
    {table : ℕ} : (transaction.commitUndo commitId tables table).cardinality =
      (tables table).cardinality + BitVec.ofInt 64 (tally table transaction.undoBuffer) := by
  have key : ∀ (entries : List (UndoEntry C)) (start : ℕ) (tables : Tables V),
      (((entries.zipIdx start).foldl (commitEntry transaction.transactionId commitId) tables)
          table).cardinality =
        (tables table).cardinality + BitVec.ofInt 64 (tally table entries) := by
    intro entries
    induction entries with
    | nil => simp
    | cons entry entries ih =>
      intro start tables
      rw [List.zipIdx_cons, List.foldl_cons, ih, cardinality_commitEntry, ← List.singleton_append,
        tally_append, tally_singleton, BitVec.ofInt_add, BitVec.add_assoc]
  exact key transaction.undoBuffer 0 tables

end Transaction

/-! ### Table operations -/

namespace DataTable

/-- An operation adds undo entries that count like its changes, and leaves the cardinality alone. -/
structure Counts (changes : List (Change V)) (transaction : Transaction C) (t : DataTable V)
    (result : Transaction C × DataTable V × Option Exception) : Prop where
  transactionId : result.1.transactionId = transaction.transactionId
  undo : ∀ table, tally table result.1.undoBuffer =
    tally table transaction.undoBuffer + net table changes
  cardinality : result.2.1.cardinality = t.cardinality

variable {transaction : Transaction C} {t : DataTable V}

/-- An operation that does nothing but perhaps throw. -/
theorem counts_nil (e : Option Exception) : Counts [] transaction t (transaction, t, e) :=
  ⟨rfl, fun _ => by simp, rfl⟩

theorem counts_append {checks : TableChecks V C} {table : ℕ} {chunk : DataChunk V} :
    Counts (appendChanges checks table chunk transaction t) transaction t
      (append checks table chunk transaction t) := by
  obtain ⟨htransaction, -⟩ := append_spec checks table chunk transaction t
  refine ⟨?_, fun table' => ?_, cardinality_append ..⟩
  · rw [htransaction, transactionId_pushDeletedEntries]
  · have hnew := tally_map (C := C) (fun _ => .insertTuple) Prod.snd
      (fun e : List V × ℕ => .insert e.1) (fun _ => rfl) table' table
      ((appendedRows checks chunk transaction t).zipIdx t.rows.length)
    rw [htransaction, undoBuffer_pushDeletedEntries, tally_append, hnew]
    rfl

theorem counts_pushRows {after : RowSlot V → RowSlot V} (w : RowWrite V) (flag : TupleFlag)
    (hafter : ∀ slot, (after slot).versionPointers = slot.versionPointers)
    (hdelta : flag.delta = w.delta) (conflict : String) (chunk : StorageChunk V) (table : ℕ)
    (ids : List ℕ) (transaction : Transaction C) (t : DataTable V) :
    Counts ((ids.takeWhile (pushable transaction t chunk)).map fun row => ⟨table, row, w⟩)
      transaction t (pushRows flag conflict after chunk table ids transaction t) := by
  refine ⟨transactionId_pushRows .., fun table' => ?_, cardinality_pushRows ..⟩
  rw [undoBuffer_pushRows hafter, tally_append]
  exact congrArg _ (tally_map _ _ _ (fun _ => hdelta) table' table _)

theorem counts_delete {table : ℕ} {ids : List ℕ} :
    Counts (deleteChanges table ids transaction t) transaction t
      (delete table ids transaction t) := by
  cases ids with
  | nil => exact counts_nil none
  | cons first rest =>
    cases hchunk : t.getChunk first with
    | none =>
      simp only [deleteChanges, pushedRows, delete, hchunk]
      exact counts_nil _
    | some chunk =>
      simp only [deleteChanges, pushedRows, delete, hchunk]
      exact counts_pushRows .delete .deleteTuple pushEffect_delete.chain rfl ..

theorem delta_of_mem_updateChanges {checks : TableChecks V C} {table : ℕ}
    {updates : UpdateChunk V} {c : Change V}
    (h : c ∈ updateChanges checks table updates transaction t) : c.write.delta = 0 := by
  unfold updateChanges at h
  split_ifs at h
  · simp at h
  · rcases List.mem_append.1 h with h | h <;> obtain ⟨_, -, rfl⟩ := List.mem_map.1 h <;> rfl
  · rw [List.append_nil] at h
    obtain ⟨_, -, rfl⟩ := List.mem_map.1 h
    rfl

theorem counts_update {checks : TableChecks V C} {table : ℕ} {updates : UpdateChunk V} :
    Counts (updateChanges checks table updates transaction t) transaction t
      (update checks table updates transaction t) := by
  -- updates do not count at all
  suffices hcounts : Counts [] transaction t (update checks table updates transaction t) by
    refine ⟨hcounts.transactionId, fun table' => ?_, hcounts.cardinality⟩
    rw [hcounts.undo, net_eq_zero (fun c hc => delta_of_mem_updateChanges hc), net_nil]
  cases hids : updates.rowIdentifiers with
  | nil =>
    simp only [update, hids]
    exact counts_nil _
  | cons first rest =>
    simp only [update, hids]
    cases checks.verifyUpdate t updates with
    | some e => exact counts_nil _
    | none =>
      cases t.getChunk first with
      | none => exact counts_nil _
      | some chunk =>
        cases checks.uniqueUpdate transaction t updates with
        | some e => exact counts_nil _
        | none =>
          have hpush := counts_pushRows .touch .updateTuple pushEffect_update.chain rfl
            "Conflict on tuple update!" chunk table (first :: rest) transaction t
          have hundo := fun table' => (hpush.undo table').trans (congrArg _
            (net_eq_zero (fun c hc => by obtain ⟨_, -, rfl⟩ := List.mem_map.1 hc; rfl) table'))
          simp only
          split
          · exact ⟨hpush.transactionId, hundo, hpush.cardinality⟩
          · exact ⟨hpush.transactionId, hundo, (cardinality_writeCells ..).trans hpush.cardinality⟩

end DataTable

/-! ### The counter of a database -/

/-- The counters count what was committed, and the undo buffers hold what the running transactions
will add. -/
structure Database.Tallied (db : Database V C) (h : History V) : Prop where
  counter : ∀ table, (db.tables table).cardinality = BitVec.ofInt 64 (h.committedNet table)
  undo : ∀ t ∈ db.transactionManager.activeTransactions, ∀ table,
    tally table t.undoBuffer = net table (h.pending t.transactionId)

theorem History.foldl_record_writes (owner : ℕ) (changes : List (Change V)) (h : History V) :
    ((changes.map (.write owner)).foldl record h).committed = h.committed ∧
      ((changes.map (.write owner)).foldl record h).pending =
        Function.update h.pending owner (h.pending owner ++ changes) := by
  induction changes generalizing h with
  | nil => simp
  | cons c changes ih =>
    rw [List.map_cons, List.foldl_cons, (ih _).1, (ih _).2]
    simp [record]

namespace Database.Tallied

variable {db : Database V C} {h : History V} {id : ℕ} {t t' : Transaction C}
  {manager : TransactionManager C}

theorem setTransaction {tables : Tables V} (changes : List (Change V)) (hdb : db.Tallied h)
    (ht : db.transactionManager.active? id = some t) (hid : t'.transactionId = t.transactionId)
    (hundo : ∀ table, tally table t'.undoBuffer = tally table t.undoBuffer + net table changes)
    (hmanager : manager.activeTransactions =
      (db.transactionManager.setTransaction t').activeTransactions)
    (hcard : ∀ table, (tables table).cardinality = (db.tables table).cardinality) :
    Tallied ⟨manager, tables⟩ ((changes.map (.write id)).foldl record h) := by
  obtain ⟨hcommitted, hpending⟩ := foldl_record_writes id changes h
  obtain rfl : t.transactionId = id := by simpa using List.find?_some ht
  refine ⟨fun table => ?_, fun u hu table => ?_⟩
  · rw [hcard, hdb.counter, committedNet, committedNet, hcommitted]
  · simp only [hmanager, TransactionManager.setTransaction, List.mem_map] at hu
    obtain ⟨v, hv, rfl⟩ := hu
    rw [hpending]
    split_ifs with heq
    · rw [hid, update_self, net_append, hundo, hdb.undo t (List.mem_of_find?_eq_some ht)]
    · rw [hid] at heq
      rw [update_of_ne heq, hdb.undo v hv]

theorem onTable {changes : List (Change V)} {table : ℕ}
    {operation : Transaction C → DataTable V → Transaction C × DataTable V × Option Exception}
    (hdb : db.Tallied h) (ht : db.transactionManager.active? id = some t)
    (hop : DataTable.Counts changes t (db.tables table) (operation t (db.tables table))) :
    (db.onTable table t operation).1.Tallied ((changes.map (.write id)).foldl record h) := by
  refine hdb.setTransaction changes ht hop.transactionId hop.undo rfl fun table' => ?_
  by_cases heq : table' = table
  · subst heq
    rw [update_self, hop.cardinality]
  · rw [update_of_ne heq]

/-- A transaction object that changes without its undo entries for rows. -/
theorem idle (hdb : db.Tallied h) (ht : db.transactionManager.active? id = some t)
    (t' : Transaction C) (hid : t'.transactionId = t.transactionId)
    (hundo : ∀ table, tally table t'.undoBuffer = tally table t.undoBuffer)
    (hmanager : manager.activeTransactions =
      (db.transactionManager.setTransaction t').activeTransactions) :
    Tallied ⟨manager, db.tables⟩ h :=
  hdb.setTransaction [] ht hid (fun table => by simp [hundo]) hmanager fun _ => rfl

/-- The `Cleanup` calls of `RemoveTransaction` do not count. -/
theorem cardinality_removeTransaction {table : ℕ} :
    ((db.removeTransaction t).tables table).cardinality = (db.tables table).cardinality := by
  have key : ∀ (ts : List (Transaction C)) (tables : Tables V),
      (ts.foldl Transaction.cleanupUndo tables table).cardinality = (tables table).cardinality := by
    intro ts
    induction ts with
    | nil => exact fun _ => rfl
    | cons u ts ih =>
      intro tables
      rw [List.foldl_cons, ih, Transaction.cardinality_cleanupUndo]
  exact key ..

/-- The running transactions other than the one that ends keep their changes. -/
theorem undo_others (hdb : db.Tallied h) {h' : History V}
    (hpending : ∀ o, o ≠ id → h'.pending o = h.pending o) {u : Transaction C}
    (hu : u ∈ db.transactionManager.others id) (table : ℕ) :
    tally table u.undoBuffer = net table (h'.pending u.transactionId) := by
  obtain ⟨hu, hne⟩ := List.mem_filter.1 hu
  rw [hdb.undo u hu, hpending _ (by simpa using hne)]

theorem commit (hdb : db.Tallied h) (ht : db.transactionManager.active? id = some t)
    (startTime commitId : ℕ) :
    (db.commitTransaction t).Tallied (h.record (.commit id startTime commitId)) := by
  obtain rfl : t.transactionId = id := by simpa using List.find?_some ht
  refine ⟨fun table => ?_, fun u hu table => ?_⟩
  · rw [commitTransaction, cardinality_removeTransaction, Transaction.cardinality_commitUndo,
      hdb.counter, hdb.undo t (List.mem_of_find?_eq_some ht), ← BitVec.ofInt_add,
      committedNet_commit]
  · exact hdb.undo_others (fun o ho => update_of_ne ho ..) hu table

theorem rollback (hdb : db.Tallied h) (ht : db.transactionManager.active? id = some t) :
    (db.rollbackTransaction t).Tallied (h.record (.rollback id)) := by
  obtain rfl : t.transactionId = id := by simpa using List.find?_some ht
  refine ⟨fun table => ?_, fun u hu table => ?_⟩
  · rw [rollbackTransaction, cardinality_removeTransaction, Transaction.cardinality_rollbackUndo]
    exact hdb.counter table
  · exact hdb.undo_others (fun o ho => update_of_ne ho ..) hu table

/-- **Every operation keeps the counters and the undo buffers in step with the history.** -/
theorem step (checks : ℕ → TableChecks V C) {view : RowView V σ} (hdb : db.Tallied h)
    (hinv : db.Invariant) (hhist : h.Invariant view db.store) (op : Op V C) :
    (db.step checks op).1.Tallied ((db.events checks op).foldl record h) := by
  have hrule {f id g} := @Invariant.withActive_events_rule _ _ db f id
    (fun db events => db.Tallied (events.foldl record h)) g hdb
  cases op with
  | startTransaction =>
    simp only [Database.step, events, TransactionManager.startTransaction]
    split_ifs with hlt
    · exact hdb
    · refine ⟨hdb.counter, fun u hu table => ?_⟩
      rcases List.mem_append.1 hu with hu | hu
      · exact hdb.undo u hu table
      · -- nothing has been done under the new id
        obtain rfl := List.mem_singleton.1 hu
        have hfresh : ¬Runs db.store.active db.transactionManager.currentTransactionId := by
          rintro ⟨a, ha, hid⟩
          exact absurd hid (hinv.store.active_id a ha).2.ne
        rw [show (List.foldl record h [Event.start]).pending = h.pending from rfl,
          hhist.pending_eq_nil hfresh]
        rfl
  | beginQuery id | endQuery id =>
    refine Invariant.withActive_rule (Tallied · h) hdb fun t hactive =>
      hdb.idle hactive _ ?_ (fun _ => ?_) rfl <;> rfl
  | pushQuery id query | pushCatalogEntry id entry =>
    refine Invariant.withActive_rule (Tallied · h) hdb fun t hactive =>
      hdb.idle hactive _ ?_ (fun table => ?_) rfl
    · rfl
    · exact t.tally_createEntry table (by simp)
  | append id table chunk =>
    exact hrule fun t hactive => hdb.onTable hactive (counts_append ..)
  | update id table updates =>
    exact hrule fun t hactive => hdb.onTable hactive (counts_update ..)
  | delete id table rowIdentifiers =>
    exact hrule fun t hactive => hdb.onTable hactive (counts_delete ..)
  | commit id => exact hrule fun t hactive => hdb.commit hactive _ _
  | rollback id => exact hrule fun t hactive => hdb.rollback hactive

theorem tallied_initial (columnCount : ℕ → ℕ) : (initial columnCount : Database V C).Tallied {} :=
  ⟨fun _ => rfl, by simp [initial]⟩

end Database.Tallied

/-! ### Runs -/

/-- A `Delete` gets no row twice. -/
def Op.DeletesOnce : Op V C → Prop
  | .delete _ _ rowIdentifiers => rowIdentifiers.Nodup
  | _ => True

instance : DecidablePred (Op.DeletesOnce : Op V C → Prop)
  | .delete _ _ rowIdentifiers => inferInstanceAs (Decidable rowIdentifiers.Nodup)
  | .startTransaction | .beginQuery _ | .endQuery _ | .pushQuery _ _ | .pushCatalogEntry _ _
  | .append .. | .update .. | .commit _ | .rollback _ => inferInstanceAs (Decidable True)

namespace Database

variable {db : Database V C} {checks : ℕ → TableChecks V C} {op : Op V C}

/-- An operation changes no deleted row, and a `Delete` gets no row twice. -/
def ChangesUndeleted (checks : ℕ → TableChecks V C) (db : Database V C) (op : Op V C) : Prop :=
  (∀ e ∈ db.changedRows checks op, e.2.deleted = false) ∧ op.DeletesOnce

instance (checks : ℕ → TableChecks V C) (db : Database V C) (op : Op V C) :
    Decidable (ChangesUndeleted checks db op) :=
  inferInstanceAs (Decidable (_ ∧ _))

variable {h : History V}

theorem ChangesUndeleted.meets_savedRight (hop : ChangesUndeleted checks db op) :
    Meets Store.apply (SavedRight full) db.store (db.events checks op) := by
  refine meets_firstWrite (P := fun _ slot => slot.deleted = false) hop.1
    (fun s owner versioned c hQ => hQ) ?_
  intro id table row transaction slot _ _ _ _ hdel
  simp [full, VersionedRow.current, RowState.tuple?, RowSlot.versioned, hdel]

/-- Deleting some rows leaves the other ones alone. -/
theorem meets_liveDelete_deletes {s : Store V} (owner table : ℕ) {rows : List ℕ}
    (hnodup : rows.Nodup) (hrows : ∀ row ∈ rows, ∀ versioned,
      (s.rows table)[row]? = some versioned → versioned.state.deleted = false) :
    Meets Store.apply LiveDelete s
      (rows.map fun row => Event.write owner ⟨table, row, .delete⟩) := by
  induction rows generalizing s with
  | nil => trivial
  | cons row rows ih =>
    obtain ⟨hnot, hnodup⟩ := List.nodup_cons.1 hnodup
    refine ⟨fun _ => hrows row List.mem_cons_self, ih hnodup fun row' hrow' versioned hget => ?_⟩
    have hne : row ≠ row' := fun heq => hnot (heq ▸ hrow')
    refine hrows row' (List.mem_cons_of_mem _ hrow') versioned ?_
    simpa [Store.apply, Store.writeRow, List.getElem?_modify, hne] using hget

/-- Only `Delete` deletes rows. -/
theorem write_ne_delete_of_mem_events (hop : ∀ id table rowIdentifiers,
    op ≠ .delete id table rowIdentifiers) {id : ℕ} {c : Change V}
    (h : Event.write id c ∈ db.events checks op) : c.write ≠ .delete := by
  cases op with
  | append id' table chunk =>
    obtain ⟨-, t, -, hc⟩ := mem_elim_map h
    obtain ⟨e, -, rfl⟩ := List.mem_map.1 hc
    exact nofun
  | update id' table updates =>
    obtain ⟨-, t, -, hc⟩ := mem_elim_map h
    intro hdelete
    simpa [hdelete, delta] using delta_of_mem_updateChanges hc
  | delete id' table rowIdentifiers => exact absurd rfl (hop id' table rowIdentifiers)
  | startTransaction =>
    simp only [events] at h
    split_ifs at h <;> simp at h
  | commit id' | rollback id' =>
    simp only [events] at h
    cases hactive : db.transactionManager.active? id' <;> simp [hactive] at h
  | _ => simp [events] at h

theorem ChangesUndeleted.meets_liveDelete (hop : ChangesUndeleted checks db op) :
    Meets Store.apply LiveDelete db.store (db.events checks op) := by
  by_cases hdelete : ∃ id table rowIdentifiers, op = .delete id table rowIdentifiers
  · obtain ⟨id, table, rowIdentifiers, rfl⟩ := hdelete
    obtain ⟨hlive, hnodup⟩ := hop
    simp only [changedRows, events] at hlive ⊢
    cases hactive : db.transactionManager.active? id with
    | none => trivial
    | some t =>
      simp only [hactive, Option.elim_some, deleteChanges, List.map_map] at hlive ⊢
      refine meets_liveDelete_deletes id table ?_ fun row hrow versioned hget => ?_
      · exact hnodup.sublist (pushedRows_sublist ..)
      · obtain ⟨slot, hslot, -⟩ := mem_pushedRows hrow
        have hslot' : db.row? table row = some slot := hslot
        have hdel := hlive (t, slot) (List.mem_filterMap.2
          ⟨_, List.mem_map_of_mem hrow, by simp [isInsert, hactive, hslot']⟩)
        obtain rfl : slot.versioned = versioned := by
          rw [Invariant.row?_eq] at hslot'
          simpa [Database.store, hslot'] using hget
        exact hdel
  · refine meets_of_forall fun e he s => ?_
    cases e with
    | write id c =>
      refine fun hw => absurd hw (write_ne_delete_of_mem_events (fun id table ids heq => ?_) he)
      exact hdelete ⟨id, table, ids, heq⟩
    | _ => trivial

/-- A database and the history that led to it, with the counters. -/
structure Counted (db : Database V C) (h : History V) : Prop where
  invariant : db.Invariant
  history : h.Invariant full db.store
  balanced : h.Balanced db.store
  tallied : db.Tallied h

theorem Counted.step (hdb : db.Counted h) (hop : ChangesUndeleted checks db op) :
    (db.step checks op).1.Counted ((db.events checks op).foldl record h) := by
  obtain ⟨hinv, hstore, hok⟩ := hdb.invariant.step checks op
  refine ⟨hinv, ?_, ?_, hdb.tallied.step checks hdb.invariant hdb.history op⟩
  · rw [hstore]
    exact hdb.history.foldl hok hop.meets_savedRight
  · rw [hstore]
    exact hdb.balanced.foldl hdb.history hok hop.meets_savedRight hop.meets_liveDelete

theorem counted_initial (columnCount : ℕ → ℕ) : (initial columnCount : Database V C).Counted {} :=
  ⟨Invariant.invariant_initial columnCount, invariant_initial _, balanced_initial,
    Tallied.tallied_initial columnCount⟩

theorem Counted.run {ops : List (Op V C)} (hdb : db.Counted h)
    (hops : EachStep checks (ChangesUndeleted checks) db ops) :
    (db.run checks ops).Counted ((db.trace checks ops).foldl record h) := by
  induction ops generalizing db h with
  | nil => exact hdb
  | cons op ops ih =>
    rw [trace, Theory.trace, List.foldl_append]
    exact ih (hdb.step hops.1) hops.2

/-- The counter of every table is the number of its live rows in the committed state of the
history. -/
def CountsRows (db : Database V C) (h : History V) : Prop :=
  ∀ table, (db.tables table).cardinality =
    BitVec.ofNat 64 (h.liveRows table (db.tables table).rows.length).card

theorem Counted.countsRows (hdb : db.Counted h) : db.CountsRows h := by
  intro table
  have hlen : (db.store.rows table).length ≤ (db.tables table).rows.length := by
    simp [Database.store]
  rw [hdb.tallied.counter, hdb.balanced.committed table _ hlen, sum_live, BitVec.ofInt_natCast]

/-- **Cardinality**: along every run in which no operation changes a deleted row and no `Delete`
gets a row twice, the counter of every table is the number of live rows in the committed state. -/
theorem cardinality_eq_liveRows (checks : ℕ → TableChecks V C) (columnCount : ℕ → ℕ)
    (ops : List (Op V C)) (h : EachStep checks (ChangesUndeleted checks) (initial columnCount) ops) :
    (run checks (initial columnCount) ops).CountsRows
      (History.ofTrace (trace checks (initial columnCount) ops)) :=
  ((counted_initial columnCount).run h).countsRows

/-- Two rows are inserted; then one of them is updated and the other one deleted. -/
def deleteOnce : List (Op ℕ Unit) :=
  [.startTransaction, .append transactionIdStart 0 (.single [5]),
    .append transactionIdStart 0 (.single [6]), .commit transactionIdStart, .startTransaction,
    .update (transactionIdStart + 1) 0 (.single 0 0 7), .delete (transactionIdStart + 1) 0 [1],
    .commit (transactionIdStart + 1)]

theorem countsRows_deleteOnce :
    (run (fun _ => .unconstrained) (initial fun _ => 1) deleteOnce).CountsRows
      (History.ofTrace (trace (fun _ => .unconstrained) (initial fun _ => 1) deleteOnce)) :=
  cardinality_eq_liveRows _ _ _ (by decide)

/-- Two transactions that run at the same time delete the row, the second one after the first one
has committed. -/
def deleteTwice : List (Op ℕ Unit) :=
  [.startTransaction, .append transactionIdStart 0 (.single [1]), .commit transactionIdStart,
    .startTransaction, .startTransaction, .delete (transactionIdStart + 1) 0 [0],
    .commit (transactionIdStart + 1), .delete (transactionIdStart + 2) 0 [0],
    .commit (transactionIdStart + 2)]

/-- **A row that is deleted twice is counted twice**: no operation fails, and the counter of the
empty table is `2 ^ 64 - 1`. -/
theorem cardinality_ne_liveRows :
    let checks : ℕ → TableChecks ℕ Unit := fun _ => .unconstrained
    let db := run checks (initial fun _ => 1) deleteTwice
    let h := History.ofTrace (trace checks (initial fun _ => 1) deleteTwice)
    EachStep checks (fun db op => (db.step checks op).2 = none) (initial fun _ => 1) deleteTwice ∧
      (db.tables 0).cardinality = BitVec.ofNat 64 (2 ^ 64 - 1) ∧
        (h.liveRows 0 (db.tables 0).rows.length).card = 0 ∧ ¬db.CountsRows h := by
  have hcounter : ((run (fun _ => .unconstrained) (initial fun _ => 1) deleteTwice).tables
      0).cardinality = BitVec.ofNat 64 (2 ^ 64 - 1) := by
    decide
  have hlive : ((History.ofTrace (trace (fun _ => .unconstrained) (initial fun _ => 1)
      deleteTwice)).liveRows 0 ((run (fun _ => .unconstrained) (initial fun _ => 1)
        deleteTwice).tables 0).rows.length).card = 0 := by
    decide
  refine ⟨by decide, hcounter, hlive, fun hcounts => ?_⟩
  have hzero := hcounts 0
  rw [hcounter, hlive] at hzero
  exact absurd hzero (by decide)

end Database

end DuckDB
