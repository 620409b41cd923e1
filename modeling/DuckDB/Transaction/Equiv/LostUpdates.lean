import DuckDB.Transaction.Equiv.Isolation
import Mathlib.Data.List.Pairwise

/-!
# Lost updates

Two transactions that overlap should not both change a row and commit. `Delete` and `Update` refuse
a row that a running transaction has changed (`conflicts_of_pending`), but not one that was changed
and committed after they started:

* `overlapping_updates_commit`: two overlapping transactions update the same row and both commit.
* `no_lost_updates`: this is the only way; if no transaction changes a row whose newest version was
  committed after it started, then of two overlapping transactions at most one changes a row and
  commits, and a change of a row that a running transaction has changed raises the conflict.
-/

namespace DuckDB

open Theory DataTable

variable {V C σ : Type*}

namespace CommittedTransaction

/-- The transaction has updated or deleted the row. -/
def changed (t : CommittedTransaction V) (table row : ℕ) : Bool :=
  (onRow table row t.changes).any fun c => !c.write.isInsert

/-- Each of the transactions started before the other one committed. -/
def overlaps (t u : CommittedTransaction V) : Bool :=
  decide (t.startTime < u.commitId) && decide (u.startTime < t.commitId)

end CommittedTransaction

/-- All rows lie in one storage chunk, as `Delete` and `Update` assert. -/
def DataTable.InOneChunk (t : DataTable V) (rowIdentifiers : List ℕ) : Prop :=
  ∃ chunk, ∀ rowId ∈ rowIdentifiers, t.getChunk rowId = some chunk

namespace DataTable

variable {transaction : Transaction C} {t : DataTable V} {rowIdentifiers : List ℕ} {row : ℕ}
  {slot : RowSlot V}

theorem not_mem_pushedRows (hslot : t.row? row = some slot)
    (hconf : conflicts transaction slot = true) :
    row ∉ pushedRows transaction t rowIdentifiers := by
  intro hrow
  obtain ⟨slot', hslot', hconf'⟩ := Database.mem_pushedRows hrow
  obtain rfl := Option.some.inj (hslot.symm.trans hslot')
  rw [hconf] at hconf'
  cases hconf'

/-- The loop of `Delete` and `Update` throws if one of the rows has a conflict. -/
theorem pushRows_refused {after : RowSlot V → RowSlot V}
    (hafter : ∀ slot, (after slot).versionPointers = slot.versionPointers) (flag : TupleFlag)
    (conflict : String) {chunk : StorageChunk V} (table : ℕ) {first : ℕ}
    (hchunk : t.getChunk first = some chunk) (hrow : row ∈ first :: rowIdentifiers)
    (hslot : t.row? row = some slot) (hconf : conflicts transaction slot = true) :
    ∃ e, (pushRows flag conflict after chunk table (first :: rowIdentifiers) transaction t).2.2 =
        some e ∧ (t.InOneChunk (first :: rowIdentifiers) → e = .transactionException conflict) := by
  rw [pushRows_error hafter]
  have hpush : pushable transaction t chunk row = false := by
    rw [Bool.eq_false_iff]
    intro hpush
    obtain ⟨-, slot', hslot', hconf'⟩ := pushable_iff.1 hpush
    obtain rfl := Option.some.inj (hslot.symm.trans hslot')
    rw [hconf] at hconf'
    cases hconf'
  obtain ⟨found, hfound⟩ := Option.isSome_iff_exists.1
    (List.find?_isSome.2 ⟨row, hrow, by simp [hpush]⟩ :
      ((first :: rowIdentifiers).find? fun row => !pushable transaction t chunk row).isSome)
  refine ⟨pushError conflict t chunk found, by rw [hfound]; rfl, ?_⟩
  rintro ⟨chunk', hall⟩
  obtain rfl := Option.some.inj (hchunk.symm.trans (hall first List.mem_cons_self))
  have hget := hall found (List.mem_of_find?_eq_some hfound)
  have hholds := holds_of_getChunk hget
  have hsome : (t.row? found).isSome := by
    rw [row?, hget, Option.bind_some]
    obtain ⟨h₁, h₂⟩ := StorageChunk.holds_iff.1 hholds
    exact Option.isSome_iff_exists.2 ⟨_, List.getElem?_eq_getElem (by
      simp only [StorageChunk.count] at h₂; omega)⟩
  rw [pushError, if_pos ⟨hholds, hsome⟩]

theorem not_inOneChunk {first : ℕ} (hchunk : t.getChunk first = none) :
    ¬t.InOneChunk (first :: rowIdentifiers) := by
  rintro ⟨chunk, hall⟩
  rw [hall first List.mem_cons_self] at hchunk
  cases hchunk

theorem delete_refused (table : ℕ) (hrow : row ∈ rowIdentifiers) (hslot : t.row? row = some slot)
    (hconf : conflicts transaction slot = true) :
    ∃ e, (delete table rowIdentifiers transaction t).2.2 = some e ∧
      (t.InOneChunk rowIdentifiers → e = .transactionException "Conflict on tuple deletion!") := by
  cases rowIdentifiers with
  | nil => simp at hrow
  | cons first rest =>
    simp only [delete]
    cases hchunk : t.getChunk first with
    | none => exact ⟨outOfBounds, rfl, fun hone => absurd hone (not_inOneChunk hchunk)⟩
    | some chunk =>
      exact pushRows_refused pushEffect_delete.chain _ _ table hchunk hrow hslot hconf

theorem update_refused (checks : TableChecks V C) (table : ℕ) (updates : UpdateChunk V)
    (hrow : row ∈ updates.rowIdentifiers) (hslot : t.row? row = some slot)
    (hconf : conflicts transaction slot = true) :
    ∃ e, (update checks table updates transaction t).2.2 = some e ∧
      (t.InOneChunk updates.rowIdentifiers → checks.verifyUpdate t updates = none →
        checks.uniqueUpdate transaction t updates = none →
          e = .transactionException "Conflict on tuple update!") := by
  cases hids : updates.rowIdentifiers with
  | nil => simp [hids] at hrow
  | cons first rest =>
    simp only [update, hids]
    cases hverify : checks.verifyUpdate t updates with
    | some e => exact ⟨e, rfl, by simp⟩
    | none =>
      cases hchunk : t.getChunk first with
      | none => exact ⟨outOfBounds, rfl, fun hone => absurd hone (not_inOneChunk hchunk)⟩
      | some chunk =>
        cases hunique : checks.uniqueUpdate transaction t updates with
        | some e => exact ⟨e, rfl, by simp⟩
        | none =>
          obtain ⟨e, he, hone⟩ := pushRows_refused pushEffect_update.chain .updateTuple
            "Conflict on tuple update!" table hchunk (hids ▸ hrow) hslot hconf
          exact ⟨e, by simp only [he], fun hall _ _ => hone hall⟩

end DataTable

namespace Database

/-- The operation raises an exception and leaves the row alone; the exception is the given conflict
if the operation is used as promised. -/
structure Refused (checks : ℕ → TableChecks V C) (db : Database V C) (op : Op V C) (table row : ℕ)
    (promised : Prop) (conflict : String) : Prop where
  raised : ∃ e, (db.step checks op).2 = some e ∧ (promised → e = .transactionException conflict)
  unchanged : ∀ id c, .write id c ∈ db.events checks op → ¬(c.table = table ∧ c.row = row)

variable {db : Database V C} {h : History V} {checks : ℕ → TableChecks V C} {table row : ℕ}
  {t u : Transaction C} {slot : RowSlot V}

/-- A row that a running transaction has changed is in conflict with all other transactions. -/
theorem Follows.conflicts_of_pending {view : RowView V σ} (hdb : Follows view db h)
    (ht : t ∈ db.transactionManager.activeTransactions) (hne : t.transactionId ≠ u.transactionId)
    (hpending : onRow table row (h.pending t.transactionId) ≠ []) :
    ∃ slot, db.row? table row = some slot ∧ conflicts u slot = true := by
  have hlt : row < (db.store.rows table).length := by
    by_contra hle
    exact hpending ((hdb.history.unused table row (not_lt.1 hle)).1 _)
  have hlen : row < (db.tables table).rows.length := by simpa [Database.store] using hlt
  have hslot : db.row? table row = some (db.tables table).rows[row] := by
    rw [Invariant.row?_eq, List.getElem?_eq_getElem hlen]
  refine ⟨_, hslot, ?_⟩
  have hversioned : (db.store.rows table)[row]? = some (db.tables table).rows[row].versioned := by
    simp [Database.store, List.getElem?_eq_getElem hlen]
  obtain ⟨writer, hist⟩ := hdb.history.rows table row _ hversioned
  have howned := hist.ownedBy_of_writer hdb.invariant.store ((hist.pending _).1 hpending)
  rw [conflicts_eq u (hdb.invariant.sameNumbers hslot)]
  obtain ⟨r, older, hrec, hr⟩ := VersionedRow.exists_cons_of_ownedBy howned
  have hnumber : r.number = t.transactionId := by
    rcases (hdb.invariant.rowInvariant hslot).known r (by simp [hrec]) with hk | hk
    · exact hk.2.trans hr
    · exact absurd hr (hdb.invariant.store.recent_ne ⟨_, Invariant.mem_running ht, rfl⟩ _ hk)
  have hge : transactionIdStart ≤ t.transactionId :=
    hdb.invariant.store.active_ge _ (Invariant.mem_running ht)
  simp [VersionedRow.conflicts, hrec, hnumber, hge, hne]

theorem refused_delete (hu : db.transactionManager.active? u.transactionId = some u)
    (hslot : db.row? table row = some slot) (hconf : conflicts u slot = true)
    {rowIdentifiers : List ℕ} (hrow : row ∈ rowIdentifiers) :
    Refused checks db (.delete u.transactionId table rowIdentifiers) table row
      ((db.tables table).InOneChunk rowIdentifiers) "Conflict on tuple deletion!" := by
  obtain ⟨e, he, hone⟩ := delete_refused table hrow hslot hconf
  refine ⟨⟨e, ?_, hone⟩, fun id c hc => ?_⟩
  · simp only [step, withActive, hu, onTable, he]
  · rintro ⟨rfl, rfl⟩
    obtain ⟨rfl, t, ht, hmem⟩ := mem_elim_map hc
    obtain rfl := Option.some.inj (ht.symm.trans hu)
    obtain ⟨row, hrow', heq⟩ := List.mem_map.1 hmem
    rw [← heq] at hslot
    exact not_mem_pushedRows hslot hconf hrow'

theorem refused_update (hu : db.transactionManager.active? u.transactionId = some u)
    (hslot : db.row? table row = some slot) (hconf : conflicts u slot = true)
    {updates : UpdateChunk V} (hrow : row ∈ updates.rowIdentifiers) :
    Refused checks db (.update u.transactionId table updates) table row
      ((db.tables table).InOneChunk updates.rowIdentifiers ∧
        (checks table).verifyUpdate (db.tables table) updates = none ∧
        (checks table).uniqueUpdate u (db.tables table) updates = none)
      "Conflict on tuple update!" := by
  obtain ⟨e, he, hone⟩ := update_refused (checks table) table updates hrow hslot hconf
  refine ⟨⟨e, ?_, fun hp => hone hp.1 hp.2.1 hp.2.2⟩, fun id c hc => ?_⟩
  · simp only [step, withActive, hu, onTable, he]
  · rintro ⟨rfl, rfl⟩
    obtain ⟨rfl, t, ht, hmem⟩ := mem_elim_map hc
    obtain rfl := Option.some.inj (ht.symm.trans hu)
    exact not_mem_pushedRows hslot hconf (mem_updateChanges hmem).2

theorem onRow_ne_nil_of_changed {t : CommittedTransaction V} (ht : t.changed table row) :
    onRow table row t.changes ≠ [] := by
  rintro hnil
  simp [CommittedTransaction.changed, hnil] at ht

/-- Of two overlapping transactions that committed, only one has changed a row. -/
theorem History.Isolated.not_both {s : Store V} (hiso : h.Isolated s)
    {t u : CommittedTransaction V} (ht : t ∈ h.committed) (hu : u ∈ h.committed) (hne : t ≠ u)
    (hoverlap : t.overlaps u) : ¬(t.changed table row ∧ u.changed table row) := by
  rintro ⟨hct, hcu⟩
  simp only [CommittedTransaction.overlaps, Bool.and_eq_true, decide_eq_true_eq] at hoverlap
  let apart (t u : CommittedTransaction V) : Prop := onRow table row t.changes ≠ [] →
    onRow table row u.changes ≠ [] → t.commitId < u.startTime ∨ u.commitId < t.startTime
  have : Std.Symm apart := ⟨fun t u hlt h₁ h₂ => (hlt h₂ h₁).symm⟩
  have hpairs : h.committed.Pairwise apart :=
    hiso.committed.imp fun hlt h₁ h₂ => .inl (hlt table row h₁ h₂)
  have := hpairs.forall ht hu hne (onRow_ne_nil_of_changed hct) (onRow_ne_nil_of_changed hcu)
  omega

/-- **No lost updates.**  In a run in which no transaction changes a row whose newest version was
committed after it started, two overlapping transactions that both updated or deleted a row have not
both committed; and an `Update` or `Delete` of a row that another running transaction has changed
raises the conflict. -/
theorem no_lost_updates (checks : ℕ → TableChecks V C) (columnCount : ℕ → ℕ) (ops : List (Op V C))
    (hnewest : EachStep checks (ChangesNewest checks) (initial columnCount) ops) :
    let db := (initial columnCount).run checks ops
    let h := History.ofTrace ((initial columnCount).trace checks ops)
    (∀ t ∈ h.committed, ∀ u ∈ h.committed, t ≠ u → t.overlaps u →
      ∀ table row, ¬(t.changed table row ∧ u.changed table row)) ∧
    ∀ t ∈ db.transactionManager.activeTransactions,
      ∀ u ∈ db.transactionManager.activeTransactions, t.transactionId ≠ u.transactionId →
        ∀ table row, onRow table row (h.pending t.transactionId) ≠ [] →
          (∀ rowIdentifiers, row ∈ rowIdentifiers →
            Refused checks db (.delete u.transactionId table rowIdentifiers) table row
              ((db.tables table).InOneChunk rowIdentifiers) "Conflict on tuple deletion!") ∧
          ∀ updates : UpdateChunk V, row ∈ updates.rowIdentifiers →
            Refused checks db (.update u.transactionId table updates) table row
              ((db.tables table).InOneChunk updates.rowIdentifiers ∧
                (checks table).verifyUpdate (db.tables table) updates = none ∧
                (checks table).uniqueUpdate u (db.tables table) updates = none)
              "Conflict on tuple update!" := by
  intro db h
  have hdb : Follows RowView.blind db h :=
    (follows_initial RowView.blind columnCount).run
      (fun db op _ hop => ⟨Invariant.meets_savedRight_blind checks db op, hop⟩) hnewest
  refine ⟨fun t ht u hu hne hoverlap table row =>
    History.Isolated.not_both hdb.isolated ht hu hne hoverlap, ?_⟩
  intro t ht u hu hne table row hpending
  obtain ⟨slot, hslot, hconf⟩ := hdb.conflicts_of_pending ht hne hpending
  have hactive := hdb.invariant.active?_eq_some_iff.2 ⟨hu, rfl⟩
  exact ⟨fun rowIdentifiers hrow => refused_delete hactive hslot hconf hrow,
    fun updates hrow => refused_update hactive hslot hconf hrow⟩

/-- Two transactions update the row in turn, the second one after the first one has committed. -/
def updateInTurn : List (Op ℕ Unit) :=
  [.startTransaction, .append transactionIdStart 0 (.single [1]), .commit transactionIdStart,
    .startTransaction, .startTransaction, .update (transactionIdStart + 1) 0 (.single 0 0 5),
    .commit (transactionIdStart + 1), .update (transactionIdStart + 2) 0 (.single 0 0 6),
    .commit (transactionIdStart + 2)]

/-- **Two overlapping updates of a row can both commit.** -/
theorem overlapping_updates_commit :
    let checks : ℕ → TableChecks ℕ Unit := fun _ => .unconstrained
    let h := History.ofTrace ((initial fun _ => 1).trace checks updateInTurn)
    EachStep checks (fun db op => (db.step checks op).2 = none) (initial fun _ => 1) updateInTurn ∧
      ∃ t ∈ h.committed, ∃ u ∈ h.committed,
        t ≠ u ∧ t.overlaps u ∧ t.changed 0 0 ∧ u.changed 0 0 := by
  decide

/-- While the first of the two updates is not committed, the second one is refused. -/
theorem refused_overlappingUpdate :
    ((((initial fun _ => 1).run (fun _ => .unconstrained) overlappingUpdate).step
      (fun _ => .unconstrained) (.delete (transactionIdStart + 2) 0 [0])).2).isSome := by
  have h := no_lost_updates (fun _ => .unconstrained) (fun _ => 1) overlappingUpdate (by decide)
  obtain ⟨e, he, -⟩ := ((h.2 ((initial fun _ => 1).run (fun _ => .unconstrained)
    overlappingUpdate).transactionManager.activeTransactions[0] (by decide)
    { startTime := 3, transactionId := transactionIdStart + 2 } (by decide) (by decide) 0 0
    (by decide)).1 [0] (by decide)).raised
  exact Option.isSome_iff_exists.2 ⟨e, he⟩

end Database

end DuckDB
