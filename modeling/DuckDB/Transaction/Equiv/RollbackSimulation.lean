import DuckDB.Theory.Pick
import DuckDB.Transaction.Equiv.History

/-!
# A run with and without the changes of one transaction

`Shadows τ kept s s'` relates a store `s` with the one, `s'`, that the same run without the changes
of the transaction `τ` leads to, while `τ` is running: `s'` has the rows that `τ` did not insert
(`kept`), as they are once `τ` is rolled back. One lemma for each kind of event says that it keeps
the relation; the rollback of `τ` itself turns it into `Agrees`: the same rows, but for those that
`τ` inserted, which are dead.

This needs that `τ` never changes a deleted row for the first time: the record of such a change does
not remember the deletion.
-/

namespace DuckDB

open Theory List VersionedRow Store Function Event

variable {V : Type*}

/-! ### Rollback and the other changes of a row -/

namespace VersionedRow

variable {τ owner commitId : ℕ} {row : VersionedRow V} {w : RowWrite V}

theorem rollback_write_self (h : row.ownedBy τ ∨ row.state.deleted = false) :
    (row.write τ w).rollback τ = row.rollback τ := by
  by_cases howned : row.ownedBy τ
  · obtain ⟨r, older, hrec, hr⟩ := exists_cons_of_ownedBy howned
    have hrec' : (row.write τ w).records = r :: older := by
      rw [write, save_of_ownedBy howned, hrec]
    rw [rollback_of_cons hrec hr, rollback_of_cons hrec' hr]
  · have hdel := h.resolve_left howned
    have hrec : (row.write τ w).records = ⟨τ, τ, ⟨row.state.columns, false⟩⟩ :: row.records := by
      simp [write, save, howned]
    rw [rollback_of_cons hrec rfl, rollback_of_not_ownedBy (by simpa using howned), ← hdel]

theorem not_ownedBy_write (hne : owner ≠ τ) : (row.write owner w).ownedBy τ = false := by
  have howned := ownedBy_write owner w row
  obtain ⟨r, older, hrec, hr⟩ := exists_cons_of_ownedBy howned
  simp [ownedBy, hrec, hr, hne]

theorem rollback_commit (hne : owner ≠ τ) :
    (row.commit owner commitId).rollback τ = (row.rollback τ).commit owner commitId := by
  cases hrec : row.records with
  | nil => simp [rollback, commit, hrec]
  | cons r older =>
    by_cases hr : r.owner = τ
    · simp [rollback, commit, hrec, hr, hne.symm]
    · by_cases ho : r.owner = owner <;> simp [rollback, commit, hrec, hr, ho, hne]

theorem rollback_cleanup (hne : owner ≠ τ) (h : row.ownedBy τ ∨ ∀ r ∈ row.records, r.owner ≠ τ) :
    (row.cleanup owner).rollback τ = (row.rollback τ).cleanup owner := by
  by_cases howned : row.ownedBy τ
  · obtain ⟨r, older, hrec, hr⟩ := exists_cons_of_ownedBy howned
    have hrec' : (row.cleanup owner).records = r :: older.filter (·.owner ≠ owner) := by
      simp [cleanup, hrec, hr, hne.symm]
    rw [rollback_of_cons hrec hr, rollback_of_cons hrec' hr]
    rfl
  · have hall := h.resolve_left howned
    have hnot : (row.cleanup owner).ownedBy τ = false := by
      cases hrec : (row.cleanup owner).records with
      | nil => simp [ownedBy, hrec]
      | cons r older =>
        have hmem : r ∈ row.records := by
          have : r ∈ (row.cleanup owner).records := by simp [hrec]
          exact (mem_filter.1 this).1
        simp [ownedBy, hrec, hall r hmem]
    rw [rollback_of_not_ownedBy hnot, rollback_of_not_ownedBy (by simpa using howned)]

end VersionedRow

namespace RowInvariant

variable {active : List Running} {recent : List Finished} {row : VersionedRow V} {τ owner : ℕ}

/-- A record of a running transaction is the newest one. -/
theorem ownedBy_or (h : RowInvariant active recent row) (hnew : ∀ c ∈ recent, c.transactionId ≠ τ) :
    row.ownedBy τ ∨ ∀ r ∈ row.records, r.owner ≠ τ := by
  cases hrec : row.records with
  | nil => exact .inr (by simp)
  | cons r older =>
    by_cases hr : r.owner = τ
    · exact .inl (by simp [ownedBy, hrec, hr])
    · refine .inr fun o ho => ?_
      rcases mem_cons.1 ho with rfl | ho
      · exact hr
      · exact owner_ne hnew (h.committed_of_mem_tail hrec ho)

/-- The records below the newest one are committed. -/
theorem not_ownedBy_rollback_of_ownedBy (h : RowInvariant active recent row)
    (hnew : ∀ c ∈ recent, c.transactionId ≠ τ) (howned : row.ownedBy owner) :
    (row.rollback owner).ownedBy τ = false := by
  obtain ⟨r, older, hrec, hr⟩ := exists_cons_of_ownedBy howned
  rw [rollback_of_cons hrec hr]
  cases hold : older with
  | nil => rfl
  | cons o rest =>
    have ho : o.owner ≠ τ := owner_ne hnew (h.committed_of_mem_tail hrec (by simp [hold]))
    simp [ownedBy, ho]

theorem not_ownedBy_rollback (h : RowInvariant active recent row)
    (hnew : ∀ c ∈ recent, c.transactionId ≠ τ) : (row.rollback τ).ownedBy τ = false := by
  by_cases howned : row.ownedBy τ
  · exact h.not_ownedBy_rollback_of_ownedBy hnew howned
  · rw [rollback_of_not_ownedBy (by simpa using howned)]
    simpa using howned

/-- Two running transactions can be rolled back in either order. -/
theorem rollback_comm (h : RowInvariant active recent row) (hne : owner ≠ τ)
    (hτ : ∀ c ∈ recent, c.transactionId ≠ τ) (ho : ∀ c ∈ recent, c.transactionId ≠ owner) :
    (row.rollback owner).rollback τ = (row.rollback τ).rollback owner := by
  have key : ∀ {a b : ℕ}, a ≠ b → (∀ c ∈ recent, c.transactionId ≠ b) → row.ownedBy a →
      (row.rollback a).rollback b = (row.rollback b).rollback a := by
    intro a b hab hb howned
    obtain ⟨r, older, hrec, hr⟩ := exists_cons_of_ownedBy howned
    have hnot : row.ownedBy b = false := by simp [ownedBy, hrec, hr, hab]
    have hnot' := h.not_ownedBy_rollback_of_ownedBy hb howned
    rw [rollback_of_not_ownedBy hnot', rollback_of_not_ownedBy hnot]
  by_cases h₁ : row.ownedBy owner
  · exact key hne hτ h₁
  · by_cases h₂ : row.ownedBy τ
    · exact (key hne.symm ho h₂).symm
    · have hn₁ : row.rollback owner = row :=
        rollback_of_not_ownedBy (by simpa using h₁)
      have hn₂ : row.rollback τ = row := rollback_of_not_ownedBy (by simpa using h₂)
      rw [hn₁, hn₂, hn₁]

end RowInvariant

/-! ### Stores with and without some rows -/

variable {s : Store V} {e : Event V} {owner τ : ℕ} {kept : ℕ → List Bool}

theorem Store.cleanOldest_eq_self (h : s.recent = []) : s.cleanOldest = s := by
  simp only [cleanOldest, h]

/-- The row was inserted by `τ`, and nothing else happened to it. -/
def VersionedRow.InsertedBy (τ : ℕ) (row : VersionedRow V) : Prop :=
  ∃ number tuple, row.records = [⟨τ, number, ⟨tuple, true⟩⟩]

/-- Nobody sees the row, and there is nothing left to undo. -/
def VersionedRow.Dead (row : VersionedRow V) : Prop :=
  row.state.deleted = true ∧ row.records = []

/-- `s'` has the rows of `s` whose flag in `kept` is set, each seen through `view`. The other rows
of `s` satisfy `dropped`. -/
structure Restricts (view : VersionedRow V → VersionedRow V) (dropped : VersionedRow V → Prop)
    (kept : ℕ → List Bool) (s s' : Store V) : Prop where
  clock : s'.clock = s.clock
  nextId : s'.nextId = s.nextId
  active : s'.active = s.active
  recent : s'.recent = s.recent
  length : ∀ table, (kept table).length = (s.rows table).length
  rows : ∀ table, s'.rows table = (pick (kept table) (s.rows table)).map view
  others : ∀ table (n : ℕ) row, (kept table)[n]? = some false → (s.rows table)[n]? = some row →
    dropped row

namespace Restricts

variable {view view' : VersionedRow V → VersionedRow V} {dropped dropped' : VersionedRow V → Prop}
  {kept : ℕ → List Bool} {s s' : Store V}

theorem mapRows (h : Restricts view dropped kept s s') {f f' : VersionedRow V → VersionedRow V}
    (hcomm : ∀ table, ∀ row ∈ s.rows table, view' (f row) = f' (view row))
    (hdropped : ∀ row, dropped row → dropped' (f row)) :
    Restricts view' dropped' kept (s.mapRows f) (s'.mapRows f') where
  clock := h.clock
  nextId := h.nextId
  active := h.active
  recent := h.recent
  length table := by simpa [Store.mapRows] using h.length table
  rows table := by
    simp only [Store.mapRows, h.rows, pick_map, map_map]
    exact map_congr_left fun row hrow => (hcomm table row (mem_of_mem_pick hrow)).symm
  others table n row hn hrow := by
    obtain ⟨old, hold, rfl⟩ : ∃ old, (s.rows table)[n]? = some old ∧ f old = row := by
      simpa [Store.mapRows] using hrow
    exact hdropped old (h.others table n old hn hold)

theorem cleanOldest (h : Restricts view dropped kept s s')
    (hcomm : ∀ oldest rest, s.recent = oldest :: rest → ∀ table, ∀ row ∈ s.rows table,
      view (row.cleanup oldest.transactionId) = (view row).cleanup oldest.transactionId)
    (hdropped : ∀ oldest rest, s.recent = oldest :: rest → ∀ row, dropped row →
      dropped (row.cleanup oldest.transactionId)) :
    Restricts view dropped kept s.cleanOldest s'.cleanOldest := by
  cases hrec : s.recent with
  | nil => rwa [cleanOldest_eq_self hrec, cleanOldest_eq_self (h.recent.trans hrec)]
  | cons oldest rest =>
    rw [cleanOldest_of_recent hrec, cleanOldest_of_recent (h.recent.trans hrec)]
    have hmap := h.mapRows (hcomm oldest rest hrec) (hdropped oldest rest hrec)
    exact { hmap with recent := rfl }

theorem clean (h : Restricts view dropped kept s s') {I : Store V → Prop} (hI : I s)
    (hstep : ∀ t, I t → I t.cleanOldest)
    (hcomm : ∀ t oldest rest, I t → t.recent = oldest :: rest → ∀ table, ∀ row ∈ t.rows table,
      view (row.cleanup oldest.transactionId) = (view row).cleanup oldest.transactionId)
    (hdropped : ∀ t oldest rest, I t → t.recent = oldest :: rest → ∀ row, dropped row →
      dropped (row.cleanup oldest.transactionId)) :
    Restricts view dropped kept s.clean s'.clean := by
  unfold Store.clean
  rw [h.recent, h.active]
  generalize s.recent.takeWhile _ = cleaned
  induction cleaned generalizing s s' with
  | nil => exact h
  | cons _ cleaned ih =>
    exact ih (h.cleanOldest (fun o r => hcomm s o r hI) fun o r => hdropped s o r hI) (hstep s hI)

end Restricts

/-! ### The events of the other transactions -/

/-- While `τ` is running: `s'` has the rows that `τ` did not insert, as they are once `τ` is rolled
back. -/
abbrev Shadows (τ : ℕ) : (ℕ → List Bool) → Store V → Store V → Prop :=
  Restricts (rollback τ) (InsertedBy τ)

/-- After the rollback: `s'` has the rows that `τ` did not insert, and those are dead. -/
abbrev Agrees : (ℕ → List Bool) → Store V → Store V → Prop :=
  Restricts id Dead

/-- `τ` has not committed. -/
def NotCommitted (τ : ℕ) (s : Store V) : Prop :=
  ∀ c ∈ s.recent, c.transactionId ≠ τ

theorem NotCommitted.cleanOldest (h : NotCommitted τ s) : NotCommitted τ s.cleanOldest := by
  cases hrec : s.recent with
  | nil => rwa [cleanOldest_eq_self hrec]
  | cons oldest rest =>
    rw [cleanOldest_of_recent hrec]
    exact fun c hc => h c (hrec ▸ mem_cons_of_mem _ hc)

theorem Store.Invariant.cleanOldest_any (h : s.Invariant) : s.cleanOldest.Invariant := by
  cases hrec : s.recent with
  | nil => rwa [cleanOldest_eq_self hrec]
  | cons oldest rest => exact h.cleanOldest hrec

namespace VersionedRow.InsertedBy

variable {τ owner commitId : ℕ} {row : VersionedRow V}

section

variable (h : row.InsertedBy τ)

include h

theorem ownedBy : row.ownedBy τ := by
  obtain ⟨number, tuple, hrec⟩ := h
  simp [VersionedRow.ownedBy, hrec]

theorem write (w : RowWrite V) : (row.write τ w).InsertedBy τ := by
  obtain ⟨number, tuple, hrec⟩ := id h
  refine ⟨number, tuple, ?_⟩
  rw [VersionedRow.write, save_of_ownedBy h.ownedBy, hrec]

theorem commit (hne : owner ≠ τ) : (row.commit owner commitId).InsertedBy τ := by
  obtain ⟨number, tuple, hrec⟩ := h
  exact ⟨number, tuple, by simp [VersionedRow.commit, hrec, hne.symm]⟩

theorem rollback (hne : owner ≠ τ) : (row.rollback owner).InsertedBy τ := by
  obtain ⟨number, tuple, hrec⟩ := h
  exact ⟨number, tuple, by simp [VersionedRow.rollback, hrec, hne.symm]⟩

theorem cleanup (hne : owner ≠ τ) : (row.cleanup owner).InsertedBy τ := by
  obtain ⟨number, tuple, hrec⟩ := h
  exact ⟨number, tuple, by simp [VersionedRow.cleanup, hrec, hne.symm]⟩

theorem dead_rollback : (row.rollback τ).Dead := by
  obtain ⟨number, tuple, hrec⟩ := h
  rw [rollback_of_cons hrec rfl]
  exact ⟨rfl, rfl⟩

end

end VersionedRow.InsertedBy

namespace Shadows

variable {τ owner commitId : ℕ} {kept : ℕ → List Bool} {s s' : Store V}

section

variable (h : Shadows τ kept s s')

include h

variable {change : Change V}

theorem clean (hinv : s.Invariant) (hτ : NotCommitted τ s) : Shadows τ kept s.clean s'.clean := by
  have hne : ∀ (t : Store V) oldest rest, NotCommitted τ t → t.recent = oldest :: rest →
      oldest.transactionId ≠ τ := fun t oldest rest ht hrec => ht oldest (hrec ▸ mem_cons_self)
  refine Restricts.clean h (I := fun t => t.Invariant ∧ NotCommitted τ t) ⟨hinv, hτ⟩ ?_ ?_ ?_
  · exact fun t ht => ⟨ht.1.cleanOldest_any, ht.2.cleanOldest⟩
  · exact fun t oldest rest ht hrec table row hrow => rollback_cleanup
      (hne t oldest rest ht.2 hrec) ((ht.1.rows table row hrow).ownedBy_or ht.2)
  · exact fun t oldest rest ht hrec row hrow => hrow.cleanup (hne t oldest rest ht.2 hrec)

theorem commitRows (hne : owner ≠ τ) :
    Shadows τ kept (s.commitRows owner commitId) (s'.commitRows owner commitId) := by
  have hmap : Shadows τ kept (s.mapRows (·.commit owner commitId))
      (s'.mapRows (·.commit owner commitId)) :=
    h.mapRows (fun _ _ _ => rollback_commit hne) fun _ hrow => hrow.commit hne
  exact
    { hmap with
      clock := rfl
      active := by simp only [Store.commitRows, Store.retire, Store.mapRows, h.active]
      recent := by simp only [Store.commitRows, h.recent] }

theorem rollbackRows (hinv : s.Invariant) (hτ : NotCommitted τ s) (hruns : Runs s.active owner)
    (hne : owner ≠ τ) : Shadows τ kept (s.rollbackRows owner) (s'.rollbackRows owner) := by
  have hmap : Shadows τ kept (s.mapRows (·.rollback owner)) (s'.mapRows (·.rollback owner)) :=
    h.mapRows (fun table row hrow => (hinv.rows table row hrow).rollback_comm hne hτ
      (hinv.recent_ne hruns)) fun _ hrow => hrow.rollback hne
  exact
    { hmap with
      active := by simp only [Store.rollbackRows, Store.retire, Store.mapRows, h.active] }

/-- **The rollback of `τ`** leaves the rows that it did not insert as they are without it. -/
theorem rollback_self (hinv : s.Invariant) (hτ : NotCommitted τ s) :
    Agrees kept (s.apply (.rollback τ)) (s'.apply (.rollback τ)) := by
  have hmap : Agrees kept (s.mapRows (·.rollback τ)) (s'.mapRows (·.rollback τ)) := by
    refine h.mapRows (fun table row hrow => ?_) fun _ hrow => hrow.dead_rollback
    exact (rollback_of_not_ownedBy ((hinv.rows table row hrow).not_ownedBy_rollback hτ)).symm
  have hrolled : Agrees kept (s.rollbackRows τ) (s'.rollbackRows τ) :=
    { hmap with
      active := by simp only [Store.rollbackRows, Store.retire, Store.mapRows, h.active] }
  refine Restricts.clean hrolled (I := fun _ => True) trivial (fun _ _ => trivial)
    (fun _ _ _ _ _ _ _ _ => rfl) fun _ _ _ _ _ row hrow => ⟨hrow.1, ?_⟩
  simp [cleanup, hrow.2]

/-! ### Changes of rows -/

theorem updateTable (table : ℕ) {flags : List Bool} {rows : List (VersionedRow V)}
    (hlength : flags.length = rows.length)
    (hothers : ∀ (n : ℕ) row, flags[n]? = some false → rows[n]? = some row → row.InsertedBy τ) :
    Shadows τ (update kept table flags)
      { s with rows := update s.rows table rows }
      { s' with
        rows := update s'.rows table ((pick flags rows).map (·.rollback τ)) } where
  clock := h.clock
  nextId := h.nextId
  active := h.active
  recent := h.recent
  length table' := by
    by_cases htable : table' = table
    · subst htable
      simpa using hlength
    · simpa [htable] using h.length table'
  rows table' := by
    by_cases htable : table' = table
    · subst htable
      simp
    · simpa [htable] using h.rows table'
  others table' n row hn hrow := by
    by_cases htable : table' = table
    · subst htable
      simp only [update_self] at hn hrow
      exact hothers n row hn hrow
    · simp only [update_of_ne htable] at hn hrow
      exact h.others table' n row hn hrow

theorem insert (table : ℕ) (flag : Bool) (new : VersionedRow V)
    (hnew : flag = false → new.InsertedBy τ) :
    Shadows τ (update kept table (kept table ++ [flag]))
      { s with rows := update s.rows table (s.rows table ++ [new]) }
      { s' with
        rows := update s'.rows table
          (s'.rows table ++ (pick [flag] [new]).map (·.rollback τ)) } := by
  rw [h.rows table, ← map_append, ← pick_append (h.length table)]
  refine h.updateTable table (by simp [h.length]) fun n row hn hrow => ?_
  rw [getElem?_append] at hn hrow
  rw [h.length] at hn
  split_ifs at hn hrow with hlt
  · exact h.others table n row hn hrow
  · obtain rfl := mem_singleton.1 (mem_of_getElem? hrow)
    exact hnew (mem_singleton.1 (mem_of_getElem? hn)).symm

theorem modify (table row : ℕ) {f : VersionedRow V → VersionedRow V}
    (hf : ∀ old, (s.rows table)[row]? = some old → old.InsertedBy τ → (f old).InsertedBy τ) :
    Shadows τ kept { s with rows := update s.rows table ((s.rows table).modify row f) }
      { s' with
        rows := update s'.rows table
          ((pick (kept table) ((s.rows table).modify row f)).map (·.rollback τ)) } := by
  have hlength : (kept table).length = ((s.rows table).modify row f).length := by simp [h.length]
  have hupdate := h.updateTable table hlength fun n new hn hnew => ?_
  · rwa [update_eq_self] at hupdate
  · rw [getElem?_modify] at hnew
    obtain ⟨old, hold, rfl⟩ := Option.map_eq_some_iff.1 hnew
    have hins := h.others table n old hn hold
    split_ifs with hrow
    · subst hrow
      exact hf old hold hins
    · exact hins

theorem write_self (hw : change.write.isInsert = false)
    (hlive : ∀ row, (s.rows change.table)[change.row]? = some row →
      row.ownedBy τ ∨ row.state.deleted = false) : Shadows τ kept (s.writeRow τ change) s' := by
  have hmodify := h.modify change.table change.row (f := (·.write τ change.write))
    fun old _ hins => hins.write change.write
  have hsame : (pick (kept change.table) ((s.rows change.table).modify change.row
      (·.write τ change.write))).map (·.rollback τ) = s'.rows change.table := by
    rw [h.rows, ← pick_map, ← pick_map]
    congr 1
    refine ext_getElem? fun n => ?_
    rw [getElem?_map, getElem?_map, getElem?_modify]
    cases hrow : (s.rows change.table)[n]? with
    | none => rfl
    | some row =>
      by_cases hn : change.row = n
      · simp [hn, rollback_write_self (hlive row (hn ▸ hrow))]
      · simp [hn]
  rw [hsame, update_eq_self] at hmodify
  rwa [writeRow_of_not_insert s τ hw]

/-- A row that another transaction may change is not one that `τ` has changed. -/
theorem kept_of_writable (hinv : s.Invariant) (hτ : NotCommitted τ s) (hne : owner ≠ τ)
    {table n : ℕ} {row : VersionedRow V} (hrow : (s.rows table)[n]? = some row)
    (hconf : row.conflicts owner = false) :
    row.ownedBy τ = false ∧ (kept table)[n]? = some true := by
  have hnot : row.ownedBy τ = false := by
    by_cases howned : row.ownedBy owner
    · obtain ⟨r, older, hrec, hr⟩ := exists_cons_of_ownedBy howned
      simp [ownedBy, hrec, hr, hne]
    · have hall := (hinv.rows table row (mem_of_getElem? hrow)).committed_of_not_conflicts
        hinv.active_ge hconf (by simpa using howned)
      cases hrec : row.records with
      | nil => simp [ownedBy, hrec]
      | cons r older =>
        have hr := RowInvariant.owner_ne hτ (hall r (by simp [hrec]))
        simp [ownedBy, hrec, hr]
  refine ⟨hnot, ?_⟩
  have hlt : n < (kept table).length := by
    rw [h.length]
    exact (List.getElem?_eq_some_iff.1 hrow).1
  cases hflag : (kept table)[n] with
  | true => rw [getElem?_eq_getElem hlt, hflag]
  | false =>
    have hins := h.others table n row (by rw [getElem?_eq_getElem hlt, hflag]) hrow
    rw [hins.ownedBy] at hnot
    cases hnot

theorem write_other (hinv : s.Invariant) (hτ : NotCommitted τ s) (hne : owner ≠ τ)
    (hw : change.write.isInsert = false) (hok : s.Writable owner change) :
    let change' := { change with row := rank (kept change.table) change.row }
    s'.Writable owner change' ∧
      Shadows τ kept (s.writeRow owner change) (s'.writeRow owner change') := by
  intro change'
  have hw' : change'.write.isInsert = false := hw
  obtain ⟨row, hrow, hconf⟩ := (writable_iff_of_not_insert hw).1 hok
  obtain ⟨hnot, hkept⟩ := h.kept_of_writable hinv hτ hne hrow hconf
  have hrow' : (s'.rows change.table)[rank (kept change.table) change.row]? = some row := by
    rw [h.rows, getElem?_map, getElem?_pick hkept, hrow, Option.map_some,
      rollback_of_not_ownedBy hnot]
  refine ⟨(writable_iff_of_not_insert hw').2 ⟨row, hrow', hconf⟩, ?_⟩
  have hmodify := h.modify change.table change.row (f := (·.write owner change.write))
    fun old hold hins => by
      obtain rfl := Option.some.inj (hrow.symm.trans hold)
      rw [hins.ownedBy] at hnot
      cases hnot
  rw [writeRow_of_not_insert s owner hw, writeRow_of_not_insert s' owner hw']
  rw [pick_modify hkept] at hmodify
  have hsame : ((pick (kept change.table) (s.rows change.table)).modify
      (rank (kept change.table) change.row) (·.write owner change.write)).map (·.rollback τ) =
      (s'.rows change.table).modify (rank (kept change.table) change.row)
        (·.write owner change.write) := by
    refine ext_getElem? fun n => ?_
    rw [h.rows, getElem?_map, getElem?_modify, getElem?_modify, getElem?_map]
    by_cases hn : rank (kept change.table) change.row = n
    · subst hn
      rw [getElem?_pick hkept, hrow]
      simp [rollback_of_not_ownedBy hnot, rollback_of_not_ownedBy (not_ownedBy_write hne)]
    · simp [hn]
  rwa [hsame] at hmodify

end

end Shadows

/-! ### Whole runs -/

/-- The change with what `Update` does before it: it saves the row. -/
def Change.saved : Change V → List (Change V)
  | ⟨table, row, .set column value⟩ => [⟨table, row, .touch⟩, ⟨table, row, .set column value⟩]
  | change => [change]

namespace Event

/-- The event in the run without the changes of `τ`: the changes of the others go to where the rows
are there. -/
def without (τ : ℕ) (kept : ℕ → List Bool) : Event V → List (Event V)
  | .write owner change =>
    if owner = τ then []
    else (Change.saved { change with row := rank (kept change.table) change.row }).map (.write owner)
  | e => [e]

/-- The flags of the rows after the event. -/
def keep (τ : ℕ) (kept : ℕ → List Bool) : Event V → ℕ → List Bool
  | .write owner ⟨table, _, .insert _⟩ =>
    update kept table (kept table ++ [decide (owner ≠ τ)])
  | _ => kept

/-- The transaction `τ` ends. -/
def ends (τ : ℕ) : Event V → Bool
  | .commit owner _ _ => owner == τ
  | .rollback owner => owner == τ
  | _ => false

theorem keep_of_not_insert {change : Change V} (hw : change.write.isInsert = false) :
    (write owner change).keep τ kept = kept := by
  obtain ⟨table, row, w⟩ := change
  cases w with
  | insert tuple => simp [RowWrite.isInsert] at hw
  | _ => rfl

end Event

theorem VersionedRow.conflicts_write {row : VersionedRow V} (w : RowWrite V)
    (h : row.conflicts owner = false) : (row.write owner w).conflicts owner = false := by
  by_cases howned : row.ownedBy owner
  · rw [conflicts, write, save_of_ownedBy howned]
    exact h
  · simp [conflicts, write, save, howned]

theorem VersionedRow.write_touch_write (owner : ℕ) {w : RowWrite V} (row : VersionedRow V) :
    (row.write owner .touch).write owner w = row.write owner w := by
  have hsave : (row.write owner .touch).save owner = row.write owner .touch :=
    save_of_ownedBy (ownedBy_write owner .touch row)
  simp only [write, change] at hsave ⊢
  rw [hsave]

/-- Saving the row first changes nothing. -/
theorem Change.saved_spec {change : Change V} (hruns : Runs s.active owner)
    (hok : s.Writable owner change) : Meets apply Allowed s (change.saved.map (.write owner)) ∧
      (change.saved.map (.write owner)).foldl apply s = s.writeRow owner change := by
  obtain ⟨table, row, w⟩ := change
  cases w with
  | set column value =>
    obtain ⟨old, hold, hconf⟩ := hok
    refine ⟨⟨⟨hruns, old, hold, hconf⟩, ⟨hruns, old.write owner .touch, ?_, ?_⟩, trivial⟩, ?_⟩
    · simp only [apply, writeRow, update_self, getElem?_modify_eq]
      rw [show (s.rows table)[row]? = some old from hold]
      rfl
    · exact conflicts_write .touch hconf
    · simp only [Change.saved, map_cons, map_nil, foldl_cons, foldl_nil,
        apply, writeRow, update_self, update_idem,
        modify_modify_eq]
      congr 3
      funext old
      exact write_touch_write owner old
  | _ => exact ⟨⟨⟨hruns, hok⟩, trivial⟩, rfl⟩

/-- `τ` changes a deleted row only if it has changed it before. -/
def KeepsDeleted (τ : ℕ) : Store V → Event V → Prop :=
  FirstWrite fun _ owner row => owner = τ → row.state.deleted = false

theorem NotCommitted.apply (h : NotCommitted τ s) (hends : e.ends τ = false) :
    NotCommitted τ (s.apply e) := by
  cases e with
  | start => exact h
  | write owner change => exact h
  | commit owner startTime commitId =>
    have hne : owner ≠ τ := by simpa [ends] using hends
    have hcommit : NotCommitted τ (s.commitRows owner commitId) := fun c hc => by
      rcases mem_append.1 hc with hc | hc
      · exact h c hc
      · obtain rfl := mem_singleton.1 hc
        exact hne
    exact clean_induction hcommit fun _ _ _ ht _ _ _ => ht.cleanOldest
  | rollback owner =>
    have hrollback : NotCommitted τ (s.rollbackRows owner) := h
    exact clean_induction hrollback fun _ _ _ ht _ _ _ => ht.cleanOldest

/-- **One event**: what it becomes without the changes of `τ` is allowed there and keeps the
relation. -/
theorem Shadows.apply {s' : Store V} (h : Shadows τ kept s s') (hinv : s.Invariant)
    (hτ : NotCommitted τ s) (hok : s.Allowed e) (hlive : KeepsDeleted τ s e)
    (hends : e.ends τ = false) : Meets Store.apply Allowed s' (e.without τ kept) ∧
      Shadows τ (e.keep τ kept) (s.apply e) ((e.without τ kept).foldl Store.apply s') := by
  cases e with
  | start =>
    refine ⟨⟨?_, trivial⟩, ⟨?_, ?_, ?_, h.recent, h.length, h.rows, h.others⟩⟩
    · exact h.clock.trans_lt hok
    · simp [without, Store.apply, Store.start, h.clock]
    · simp [without, Store.apply, Store.start, h.nextId]
    · simp [without, Store.apply, Store.start, h.active, h.nextId, h.clock]
  | write owner change =>
    by_cases hne : owner = τ
    · subst hne
      rw [without, if_pos rfl]
      refine ⟨trivial, ?_⟩
      cases hw : change.write.isInsert with
      | false =>
        rw [keep_of_not_insert hw]
        exact h.write_self hw fun row hrow => (hlive hw row hrow).imp_right fun hdel => hdel rfl
      | true =>
        obtain ⟨table, row, w⟩ := change
        cases w with
        | insert tuple =>
          have hinsert := h.insert table false (inserted owner tuple)
            fun _ => ⟨owner, tuple, rfl⟩
          simpa [keep, Store.apply, writeRow] using hinsert
        | _ => simp [RowWrite.isInsert] at hw
    · have hruns' : Runs s'.active owner := h.active ▸ hok.1
      rw [without, if_neg hne]
      cases hw : change.write.isInsert with
      | false =>
        obtain ⟨hok', hshadows⟩ := h.write_other hinv hτ hne hw hok.2
        obtain ⟨hmeets, hfoldl⟩ := Change.saved_spec hruns' hok'
        rw [hfoldl, keep_of_not_insert hw]
        exact ⟨hmeets, hshadows⟩
      | true =>
        obtain ⟨table, row, w⟩ := change
        cases w with
        | insert tuple =>
          have hrow : row = (s.rows table).length := hok.2
          have hrank : rank (kept table) row = (s'.rows table).length := by
            rw [hrow, ← h.length, rank_length (h.length table), h.rows, length_map]
          refine ⟨⟨⟨hruns', hrank⟩, trivial⟩, ?_⟩
          have hinsert := h.insert table true (inserted owner tuple) (by simp)
          have hnew : (inserted owner tuple).rollback τ =
              inserted owner tuple := rollback_of_not_ownedBy (by
            simp [ownedBy, inserted, hne])
          simpa [keep, Change.saved, Store.apply, writeRow, hne, hnew] using hinsert
        | _ => simp [RowWrite.isInsert] at hw
  | commit owner startTime commitId =>
    have hne : owner ≠ τ := by simpa [ends] using hends
    obtain ⟨hactive, rfl⟩ := hok
    refine ⟨⟨⟨h.active ▸ hactive, h.clock.symm⟩, trivial⟩, ?_⟩
    refine (h.commitRows hne).clean (hinv.commitRows ⟨_, hactive, rfl⟩) fun c hc => ?_
    rcases mem_append.1 hc with hc | hc
    · exact hτ c hc
    · obtain rfl := mem_singleton.1 hc
      exact hne
  | rollback owner =>
    have hne : owner ≠ τ := by simpa [ends] using hends
    have hruns : Runs s.active owner := hok
    refine ⟨⟨?_, trivial⟩, ?_⟩
    · rw [Allowed, h.active]
      exact hruns
    · exact (h.rollbackRows hinv hτ hruns hne).clean hinv.rollbackRows hτ

/-- The events of a run without the changes of `τ`. -/
def withoutChanges (τ : ℕ) : (ℕ → List Bool) → List (Event V) → List (Event V)
  | _, [] => []
  | kept, e :: es => e.without τ kept ++ withoutChanges τ (e.keep τ kept) es

/-- **A run**: without the changes of `τ` it is a run, too, and it keeps the relation. -/
theorem Shadows.foldl {s' : Store V} {es : List (Event V)} (h : Shadows τ kept s s')
    (hinv : s.Invariant) (hτ : NotCommitted τ s) (hok : Meets Store.apply Allowed s es)
    (hlive : Meets Store.apply (KeepsDeleted τ) s es) (hends : ∀ e ∈ es, e.ends τ = false) :
    Meets Store.apply Allowed s' (withoutChanges τ kept es) ∧
      Shadows τ (es.foldl (fun kept e => e.keep τ kept) kept) (es.foldl Store.apply s)
        ((withoutChanges τ kept es).foldl Store.apply s') ∧
      NotCommitted τ (es.foldl Store.apply s) := by
  induction es generalizing kept s s' with
  | nil => exact ⟨trivial, h, hτ⟩
  | cons e es ih =>
    have he := hends e mem_cons_self
    obtain ⟨hmeets, hshadows⟩ := h.apply hinv hτ hok.1 hlive.1 he
    obtain ⟨hmeets', hshadows', hτ'⟩ := ih hshadows (hinv.apply hok.1) (hτ.apply he) hok.2 hlive.2
      fun e' he' => hends e' (mem_cons_of_mem _ he')
    rw [withoutChanges, foldl_append]
    exact ⟨meets_append.2 ⟨hmeets, hmeets'⟩, hshadows', hτ'⟩

/-- `τ` has started, and it is not running any more. -/
def Gone (τ : ℕ) (s : Store V) : Prop :=
  τ < s.nextId ∧ ¬Runs s.active τ

namespace Gone

variable {τ : ℕ} {s : Store V} {e : Event V}

theorem clean (h : Gone τ s) : Gone τ s.clean := by
  refine clean_induction h fun t oldest rest ht hrec _ _ => ?_
  rw [cleanOldest_of_recent hrec]
  exact ht

theorem retire (h : Gone τ s) (owner : ℕ) : Gone τ (s.retire owner) :=
  ⟨h.1, fun ⟨a, ha, haτ⟩ => h.2 ⟨a, (mem_filter.1 ha).1, haτ⟩⟩

theorem retire_self (hlt : τ < s.nextId) : Gone τ (s.retire τ) :=
  ⟨hlt, fun ⟨a, ha, haτ⟩ => by simp [Store.retire, haτ] at ha⟩

theorem apply (h : Gone τ s) (e : Event V) : Gone τ (s.apply e) := by
  cases e with
  | start =>
    refine ⟨h.1.trans (Nat.lt_succ_self _), fun ⟨a, ha, haτ⟩ => ?_⟩
    rcases mem_append.1 ha with ha | ha
    · exact h.2 ⟨a, ha, haτ⟩
    · obtain rfl := mem_singleton.1 ha
      exact absurd haτ h.1.ne'
  | write owner change => exact h
  | commit owner startTime commitId =>
    have hcommit : Gone τ (s.commitRows owner commitId) := h.retire owner
    exact hcommit.clean
  | rollback owner =>
    have hrollback : Gone τ (s.rollbackRows owner) := h.retire owner
    exact hrollback.clean

theorem foldl (h : Gone τ s) (es : List (Event V)) : Gone τ (es.foldl Store.apply s) := by
  induction es generalizing s with
  | nil => exact h
  | cons e es ih => exact ih (h.apply e)

theorem of_ends (hinv : s.Invariant) (hok : s.Allowed e) (hends : e.ends τ = true) :
    Gone τ (s.apply e) := by
  cases e with
  | start | write owner change => simp [ends] at hends
  | commit owner startTime commitId =>
    obtain rfl : owner = τ := by simpa [ends] using hends
    have hcommit : Gone owner (s.commitRows owner commitId) :=
      retire_self (s := s) (hinv.active_id _ hok.1).2
    exact hcommit.clean
  | rollback owner =>
    obtain rfl : owner = τ := by simpa [ends] using hends
    obtain ⟨a, ha, rfl⟩ := hok
    have hrollback : Gone a.transactionId (s.rollbackRows a.transactionId) :=
      retire_self (s := s) (hinv.active_id a ha).2
    exact hrollback.clean

end Gone

/-! ### The changes of one transaction -/

section Changes

variable {τ owner : ℕ} {kept : ℕ → List Bool} {changes : List (Change V)} {tuples : List (List V)}

theorem withoutChanges_self : withoutChanges τ kept (changes.map (.write τ)) = [] := by
  induction changes generalizing kept with
  | nil => rfl
  | cons c changes ih => simp [withoutChanges, without, ih]

theorem withoutChanges_other (hne : owner ≠ τ) (hw : ∀ c ∈ changes, c.write.isInsert = false) :
    withoutChanges τ kept (changes.map (.write owner)) =
      ((changes.map fun c => { c with row := rank (kept c.table) c.row }).flatMap
        Change.saved).map (.write owner) := by
  induction changes with
  | nil => rfl
  | cons c changes ih =>
    have hrest := ih fun c' hc' => hw c' (mem_cons_of_mem _ hc')
    rw [map_cons, withoutChanges, without, if_neg hne,
      keep_of_not_insert (hw c mem_cons_self), hrest]
    simp

/-- Inserted rows go to the end of the table. -/
theorem withoutChanges_insert (hne : owner ≠ τ) {table : ℕ} :
    withoutChanges τ kept ((tuples.zipIdx (kept table).length).map fun e =>
        .write owner ⟨table, e.2, .insert e.1⟩) =
      (tuples.zipIdx (rank (kept table) (kept table).length)).map fun e =>
        .write owner ⟨table, e.2, .insert e.1⟩ := by
  induction tuples generalizing kept with
  | nil => rfl
  | cons tuple tuples ih =>
    have hkeep : (write owner ⟨table, (kept table).length, .insert tuple⟩).keep τ kept =
        update kept table (kept table ++ [true]) := by simp [keep, hne]
    have hrest := @ih (update kept table (kept table ++ [true]))
    simp only [update_self, length_append, length_singleton] at hrest
    have hrank := rank_length_append_true (kept table)
    rw [length_append, length_singleton] at hrank
    rw [hrank] at hrest
    simp only [zipIdx_cons, map_cons, withoutChanges, hkeep, hrest]
    simp [without, Change.saved, hne]

theorem keep_foldl_of_not_insert (hw : ∀ c ∈ changes, c.write.isInsert = false) :
    (changes.map (Event.write owner)).foldl (fun kept e => e.keep τ kept) kept = kept := by
  induction changes with
  | nil => rfl
  | cons c changes ih =>
    rw [map_cons, foldl_cons, keep_of_not_insert (hw c mem_cons_self)]
    exact ih fun c' hc' => hw c' (mem_cons_of_mem _ hc')

theorem keep_foldl_insert {table n : ℕ} :
    ((tuples.zipIdx n).map fun e => (write owner ⟨table, e.2, .insert e.1⟩)).foldl
        (fun kept e => e.keep τ kept) kept =
      update kept table (kept table ++ List.replicate tuples.length (decide (owner ≠ τ))) := by
  induction tuples generalizing kept n with
  | nil => simp
  | cons tuple tuples ih =>
    rw [zipIdx_cons, map_cons, foldl_cons, ih]
    simp [keep, replicate_succ]

end Changes

end DuckDB
