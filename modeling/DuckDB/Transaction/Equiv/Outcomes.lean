import DuckDB.Transaction.Equiv.VersionedStore
import DuckDB.Transaction.History

/-!
# Outcomes of the running transactions

A row that a running transaction has changed has two outcomes: its newest state if the transaction
commits, the saved one if it rolls back. `KeysUnique` says that, whichever of the running
transactions roll back, no two rows end up with the same key; it also says that an index knows every
key a row has or can get back.

* `KeysUnique.apply`: what is unique under all outcomes stays so when a transaction starts or ends.
* `KeysUnique.rewrite_same`, `KeysUnique.rewrite_new`: it stays so when a transaction changes rows,
  if it makes no new key or makes keys that no other row can have.
-/

namespace DuckDB

open Theory List VersionedRow RowState

variable {V κ : Type*}

namespace VersionedRow

/-- The row, if the running transactions in `undone` roll back and the other ones commit. -/
def outcome (undone : ℕ → Bool) (row : VersionedRow V) : Option (List V) :=
  match row.records with
  | [] => row.current
  | r :: _ => if undone r.owner then r.before.tuple? else row.current

/-- The column values that the row has or can get back. -/
def columnStates (row : VersionedRow V) : List (List V) :=
  row.state.columns :: row.records.map (·.before.columns)

variable {undone : ℕ → Bool} {row : VersionedRow V} {owner : ℕ}

theorem outcome_congr {undone' : ℕ → Bool} (h : ∀ r ∈ row.records, undone r.owner = undone' r.owner) :
    row.outcome undone = row.outcome undone' := by
  unfold outcome
  cases hrec : row.records with
  | nil => rfl
  | cons r older => simp only [h r (by simp [hrec])]

theorem outcome_of_kept (h : ∀ r ∈ row.records.head?, undone r.owner = false) :
    row.outcome undone = row.current := by
  unfold outcome
  cases hrec : row.records with
  | nil => rfl
  | cons r older => simp [h r (by simp [hrec])]

theorem mem_columnStates_of_outcome {tuple : List V} (h : row.outcome undone = some tuple) :
    tuple ∈ row.columnStates := by
  have htuple : ∀ state : RowState V, state.tuple? = some tuple → state.columns = tuple := by
    intro state hstate
    unfold tuple? at hstate
    split_ifs at hstate
    exact Option.some.inj hstate
  unfold outcome at h
  cases hrec : row.records with
  | nil =>
    simp only [hrec] at h
    simp [columnStates, hrec, htuple _ h]
  | cons r older =>
    simp only [hrec] at h
    split_ifs at h
    · simp [columnStates, hrec, htuple _ h]
    · simp [columnStates, htuple _ h]

/-! ### Several changes of one row -/

/-- Several changes of an existing row by one transaction. -/
def writeAll (owner : ℕ) (writes : List (RowWrite V)) (row : VersionedRow V) : VersionedRow V :=
  writes.foldl (fun row w => row.write owner w) row

theorem writeAll_eq {writes : List (RowWrite V)} (h : writes ≠ []) : row.writeAll owner writes =
      { row.save owner with state := writes.foldl (fun state w => change w state) row.state } := by
  induction writes generalizing row with
  | nil => exact absurd rfl h
  | cons w writes ih =>
    have hsave : (row.write owner w).save owner = row.write owner w :=
      save_of_ownedBy (ownedBy_write owner w row)
    by_cases hw : writes = []
    · subst hw
      rfl
    · have hstep : row.writeAll owner (w :: writes) = (row.write owner w).writeAll owner writes := rfl
      rw [hstep, ih hw, hsave]
      rfl

end VersionedRow

/-- Only running transactions are rolled back. -/
def OnlyRunning (active : List Running) (undone : ℕ → Bool) : Prop :=
  ∀ owner, undone owner → Runs active owner

/-! ### Outcomes of changed rows -/

namespace RowInvariant

variable {active : List Running} {recent : List Finished} {row : VersionedRow V} {owner : ℕ}
  {undone : ℕ → Bool}

/-- The committed records of a row do not matter for its outcome. -/
theorem not_undone (hne : ∀ owner, Runs active owner → ∀ c ∈ recent, c.transactionId ≠ owner)
    (hundone : OnlyRunning active undone) {r : Record V} (hr : r.committed recent) :
    undone r.owner = false := by
  by_contra hcon
  exact hne r.owner (hundone _ (by simpa using hcon)) _ hr rfl

/-- A row that `owner` may change is kept as it is by the outcomes in which `owner` commits. -/
theorem outcome_of_writable (h : RowInvariant active recent row)
    (hids : ∀ a ∈ active, transactionIdStart ≤ a.transactionId)
    (hne : ∀ owner, Runs active owner → ∀ c ∈ recent, c.transactionId ≠ owner)
    (hconf : row.conflicts owner = false) (hundone : OnlyRunning active undone)
    (howner : undone owner = false) : row.outcome undone = row.current := by
  refine outcome_of_kept fun r hr => ?_
  cases howned : row.ownedBy owner with
  | true =>
    have hr' : r.owner = owner := by simpa [ownedBy, Option.mem_def.1 hr] using howned
    rw [hr', howner]
  | false =>
    have hall := h.committed_of_not_conflicts hids hconf howned
    exact not_undone hne hundone (hall r (mem_of_head? hr))

/-- **Undoing changes**: an outcome in which `owner` rolls back is the same before and after its
changes, unless it is the first one to change a deleted row. -/
theorem outcome_save (h : RowInvariant active recent row)
    (hids : ∀ a ∈ active, transactionIdStart ≤ a.transactionId)
    (hne : ∀ owner, Runs active owner → ∀ c ∈ recent, c.transactionId ≠ owner)
    (hconf : row.conflicts owner = false)
    (hlive : row.state.deleted = true → row.ownedBy owner = true)
    (hundone : OnlyRunning active undone) (howner : undone owner = true) (state : RowState V) :
    ({ row.save owner with state := state } : VersionedRow V).outcome undone =
      row.outcome undone := by
  cases howned : row.ownedBy owner with
  | true =>
    rw [VersionedRow.save_of_ownedBy howned]
    obtain ⟨r, older, hrec, hr⟩ := exists_cons_of_ownedBy howned
    simp [VersionedRow.outcome, hrec, hr, howner]
  | false =>
    have hall := h.committed_of_not_conflicts hids hconf howned
    have hrow : row.outcome undone = row.current :=
      VersionedRow.outcome_of_kept fun r hr =>
        not_undone hne hundone (hall r (mem_of_head? hr))
    have hdel : row.state.deleted = false := by
      by_contra hcon
      rw [hlive (by simpa using hcon)] at howned
      cases howned
    rw [hrow]
    simp [VersionedRow.outcome, VersionedRow.save, howned, howner, VersionedRow.current,
      tuple?, hdel]

end RowInvariant

variable {state : RowState V} {row : VersionedRow V} {owner : ℕ}

theorem VersionedRow.outcome_save_kept {undone : ℕ → Bool} (howner : undone owner = false) :
    ({ row.save owner with state := state } : VersionedRow V).outcome undone = state.tuple? := by
  refine outcome_of_kept fun r hr => ?_
  have howned := ownedBy_save owner row
  have hr' : r.owner = owner := by
    simpa [ownedBy, Option.mem_def.1 hr] using howned
  rw [hr', howner]

theorem VersionedRow.columnStates_save {columns : List V}
    (h : columns ∈ ({ row.save owner with state := state } : VersionedRow V).columnStates) :
    columns = state.columns ∨ columns ∈ row.columnStates := by
  unfold columnStates at h ⊢
  refine (mem_cons.1 h).imp_right fun h => ?_
  unfold save at h
  split_ifs at h
  · exact mem_cons_of_mem _ h
  · exact h

/-! ### KeysUnique keys -/

/-- No two rows end up with the same key. `key` is `none` for a row without a key. -/
def KeysDiffer (key : List V → Option κ) (undone : ℕ → Bool) (rows : List (VersionedRow V)) : Prop :=
  ∀ (i j : ℕ) (row row' : VersionedRow V), i ≠ j → rows[i]? = some row → rows[j]? = some row' →
    ∀ k, (row.outcome undone).bind key = some k → (row'.outcome undone).bind key ≠ some k

/-- Whichever running transactions roll back, no two rows have the same key; and `entries` knows
every key that a row has or can get back. -/
structure KeysUnique (key : List V → Option κ) (entries : κ → List ℕ) (active : List Running)
    (rows : List (VersionedRow V)) : Prop where
  known : ∀ (i : ℕ) (row : VersionedRow V), rows[i]? = some row → ∀ columns ∈ row.columnStates,
    ∀ k, key columns = some k → i ∈ entries k
  differ : ∀ undone, OnlyRunning active undone → KeysDiffer key undone rows

namespace KeysDiffer

variable {key : List V → Option κ} {undone undone' : ℕ → Bool} {rows rows' : List (VersionedRow V)}

/-- Every key of a row was a key of the row before. -/
theorem of_outcomes (h : KeysDiffer key undone rows)
    (hsame : ∀ (i : ℕ) (row' : VersionedRow V), rows'[i]? = some row' → ∀ k,
      (row'.outcome undone').bind key = some k →
        ∃ row, rows[i]? = some row ∧ (row.outcome undone).bind key = some k) :
    KeysDiffer key undone' rows' := by
  intro i j row' row'' hne hi hj k hk hk'
  obtain ⟨row, hrow, heq⟩ := hsame i row' hi k hk
  obtain ⟨other, hother, heq'⟩ := hsame j row'' hj k hk'
  exact h i j row other hne hrow hother k heq heq'

/-- The rows in `new` have new keys, which no other row has. -/
theorem of_new (h : KeysDiffer key undone rows) (new : ℕ → Prop)
    (hold : ∀ (i : ℕ) (row' : VersionedRow V), rows'[i]? = some row' → ¬new i → ∀ k,
      (row'.outcome undone).bind key = some k →
        ∃ row, rows[i]? = some row ∧ (row.outcome undone).bind key = some k)
    (hnew : ∀ (i : ℕ) (row' : VersionedRow V), rows'[i]? = some row' → new i → ∀ k,
      (row'.outcome undone).bind key = some k → ∀ (j : ℕ) (row'' : VersionedRow V), j ≠ i →
        rows'[j]? = some row'' → (row''.outcome undone).bind key ≠ some k) :
    KeysDiffer key undone rows' := by
  intro i j row' row'' hne hi hj k hk hk'
  by_cases hi' : new i
  · exact hnew i row' hi hi' k hk j row'' hne.symm hj hk'
  · by_cases hj' : new j
    · exact hnew j row'' hj hj' k hk' i row' hne hi hk
    · obtain ⟨row, hrow, heq⟩ := hold i row' hi hi' k hk
      obtain ⟨other, hother, heq'⟩ := hold j row'' hj hj' k hk'
      exact h i j row other hne hrow hother k heq heq'

end KeysDiffer

namespace KeysUnique

variable {key : List V → Option κ} {entries : κ → List ℕ} {s : Store V} {table owner : ℕ}

/-- Every outcome after a step is one before it. -/
theorem of_outcomes {active active' : List Running} {rows rows' : List (VersionedRow V)}
    (h : KeysUnique key entries active rows)
    (hstates : ∀ (i : ℕ) (row' : VersionedRow V), rows'[i]? = some row' → ∃ row, rows[i]? = some row ∧
      ∀ columns ∈ row'.columnStates, columns ∈ row.columnStates)
    (houtcomes : ∀ undone', OnlyRunning active' undone' → ∃ undone, OnlyRunning active undone ∧
      ∀ (i : ℕ) (row' : VersionedRow V), rows'[i]? = some row' → ∃ row, rows[i]? = some row ∧
        row'.outcome undone' = row.outcome undone) : KeysUnique key entries active' rows' where
  known i row' hrow' columns hcolumns k hk := by
    obtain ⟨row, hrow, hsub⟩ := hstates i row' hrow'
    exact h.known i row hrow columns (hsub columns hcolumns) k hk
  differ undone' hundone' := by
    obtain ⟨undone, hundone, hsame⟩ := houtcomes undone' hundone'
    refine (h.differ undone hundone).of_outcomes fun i row' hrow' k hk => ?_
    obtain ⟨row, hrow, heq⟩ := hsame i row' hrow'
    exact ⟨row, hrow, heq ▸ hk⟩

theorem start (h : KeysUnique key entries s.active (s.rows table)) (hinv : s.Invariant) :
    KeysUnique key entries s.start.active (s.start.rows table) := by
  refine h.of_outcomes (fun i row hrow => ⟨row, hrow, fun _ hc => hc⟩) fun undone hundone => ?_
  refine ⟨fun o => undone o && o != s.nextId, fun o ho => ?_, fun i row hrow => ⟨row, hrow, ?_⟩⟩
  · simp only [Bool.and_eq_true, bne_iff_ne] at ho
    obtain ⟨a, ha, rfl⟩ := hundone o ho.1
    rcases mem_append.1 ha with ha | ha
    · exact ⟨a, ha, rfl⟩
    · exact absurd (congrArg Running.transactionId (mem_singleton.1 ha)) ho.2
  · -- no row has a record of the new transaction
    refine outcome_congr fun r hr => ?_
    have hlt : r.owner < s.nextId := by
      rcases (hinv.rows table row (mem_of_getElem? hrow)).known r hr with ⟨⟨a, ha, hown⟩, -⟩ | hc
      · exact hown ▸ (hinv.active_id a ha).2
      · exact hinv.recent_id _ hc
    simp [hlt.ne]

theorem commitRows (commitId : ℕ) (h : KeysUnique key entries s.active (s.rows table)) :
    KeysUnique key entries (s.commitRows owner commitId).active
      ((s.commitRows owner commitId).rows table) := by
  have hget : ∀ (i : ℕ) (row' : VersionedRow V),
      ((s.commitRows owner commitId).rows table)[i]? = some row' →
      ∃ row, (s.rows table)[i]? = some row ∧ row.commit owner commitId = row' := by
    intro i row' hrow'
    simpa [Store.commitRows, Store.retire, Store.mapRows] using hrow'
  refine h.of_outcomes (fun i row' hrow' => ?_) fun undone hundone => ?_
  · obtain ⟨row, hrow, rfl⟩ := hget i row' hrow'
    refine ⟨row, hrow, fun columns hcolumns => ?_⟩
    have hsame : (row.commit owner commitId).columnStates = row.columnStates := by
      unfold columnStates commit
      rw [map_map]
      congr 1
      refine map_congr_left fun r _ => ?_
      simp only [Function.comp_apply]
      split_ifs <;> rfl
    exact hsame ▸ hcolumns
  · refine ⟨undone, fun o ho => ?_, fun i row' hrow' => ?_⟩
    · obtain ⟨a, ha, rfl⟩ := hundone o ho
      exact ⟨a, (mem_filter.1 ha).1, rfl⟩
    · obtain ⟨row, hrow, rfl⟩ := hget i row' hrow'
      refine ⟨row, hrow, ?_⟩
      unfold outcome commit
      cases hrec : row.records with
      | nil => rfl
      | cons r older =>
        simp only [map_cons]
        split_ifs <;> rfl

/-- The outcomes after a rollback are those before it in which the transaction rolls back. -/
theorem rollbackRows (h : KeysUnique key entries s.active (s.rows table)) (hinv : s.Invariant)
    (hruns : Runs s.active owner) :
    KeysUnique key entries (s.rollbackRows owner).active ((s.rollbackRows owner).rows table) := by
  have hget : ∀ (i : ℕ) (row' : VersionedRow V), ((s.rollbackRows owner).rows table)[i]? = some row' →
      ∃ row, (s.rows table)[i]? = some row ∧ row.rollback owner = row' := by
    intro i row' hrow'
    simpa [Store.rollbackRows, Store.retire, Store.mapRows] using hrow'
  have hactive : ∀ o, Runs (s.rollbackRows owner).active o → Runs s.active o :=
    fun o ho => ((runs_retire _ _ o).1 ho).1
  refine h.of_outcomes (fun i row' hrow' => ?_) fun undone hundone => ?_
  · obtain ⟨row, hrow, rfl⟩ := hget i row' hrow'
    refine ⟨row, hrow, fun columns hcolumns => ?_⟩
    unfold rollback at hcolumns
    cases hrec : row.records with
    | nil => simpa [hrec] using hcolumns
    | cons r older =>
      simp only [hrec] at hcolumns
      split_ifs at hcolumns
      · simp only [columnStates, mem_cons] at hcolumns
        simp only [columnStates, hrec, map_cons, mem_cons]
        exact .inr hcolumns
      · exact hcolumns
  · refine ⟨fun o => undone o || o == owner, fun o ho => ?_, fun i row' hrow' => ?_⟩
    · rcases Bool.or_eq_true_iff.1 ho with ho | ho
      · exact hactive o (hundone o ho)
      · exact (by simpa using ho : o = owner) ▸ hruns
    · obtain ⟨row, hrow, rfl⟩ := hget i row' hrow'
      refine ⟨row, hrow, ?_⟩
      have hrowinv := hinv.rows table row (mem_of_getElem? hrow)
      cases hrec : row.records with
      | nil => simp [rollback, outcome, hrec]
      | cons r older =>
        by_cases hown : r.owner = owner
        · -- below the record of the transaction there are only committed ones
          have hkept : (VersionedRow.mk r.before older).outcome undone = r.before.tuple? := by
            refine outcome_of_kept fun o ho => ?_
            have hcommitted := hrowinv.committed_of_mem_tail hrec (mem_of_head? ho)
            by_contra hcon
            have hrunning := hactive _ (hundone o.owner (by simpa using hcon))
            exact hinv.recent_ne hrunning _ hcommitted rfl
          have hbefore : row.outcome (fun o => undone o || o == owner) = r.before.tuple? := by
            simp [outcome, hrec, hown]
          simp only [rollback, hrec, hown, if_true]
          rw [hkept, hbefore]
        · have hsame : row.rollback owner = row := by
            simp only [rollback, hrec, hown, if_false]
          rw [hsame]
          simp [outcome, hrec, hown]

theorem cleanOldest {oldest : Finished} {rest : List Finished} (hrec : s.recent = oldest :: rest)
    (h : KeysUnique key entries s.active (s.rows table)) (hinv : s.Invariant) :
    KeysUnique key entries s.cleanOldest.active (s.cleanOldest.rows table) := by
  have hget : ∀ (i : ℕ) (row' : VersionedRow V), (s.cleanOldest.rows table)[i]? = some row' →
      ∃ row, (s.rows table)[i]? = some row ∧ row.cleanup oldest.transactionId = row' := by
    intro i row' hrow'
    simpa [Store.cleanOldest_of_recent hrec, Store.mapRows] using hrow'
  rw [Store.cleanOldest_active]
  refine h.of_outcomes (fun i row' hrow' => ?_) fun undone hundone => ⟨undone, hundone, ?_⟩
  · obtain ⟨row, hrow, rfl⟩ := hget i row' hrow'
    refine ⟨row, hrow, fun columns hcolumns => ?_⟩
    refine (mem_cons.1 hcolumns).elim (fun heq => heq ▸ mem_cons_self) fun hmem => ?_
    obtain ⟨r, hr, rfl⟩ := mem_map.1 hmem
    exact mem_cons_of_mem _ (mem_map_of_mem (mem_filter.1 hr).1)
  · intro i row' hrow'
    obtain ⟨row, hrow, rfl⟩ := hget i row' hrow'
    refine ⟨row, hrow, ?_⟩
    have hrowinv := hinv.rows table row (mem_of_getElem? hrow)
    have hcommitted : ∀ r : Record V, r.committed s.recent → undone r.owner = false := fun r hr =>
      RowInvariant.not_undone (fun _ hruns => hinv.recent_ne hruns) hundone hr
    cases hrec' : row.records with
    | nil => simp [outcome, cleanup, hrec', current]
    | cons r older =>
      by_cases hown : r.owner = oldest.transactionId
      · -- the newest record is dropped; it and those below it are committed
        have hundone' : undone r.owner = false := by
          by_contra hcon
          exact hinv.recent_ne (hundone r.owner (by simpa using hcon)) oldest
            (hrec ▸ mem_cons_self) hown.symm
        have hrow' : row.outcome undone = row.current :=
          outcome_of_kept fun o ho => by
            rw [hrec', head?_cons, Option.mem_some_iff] at ho
            rwa [← ho]
        rw [hrow']
        refine outcome_of_kept fun o ho => ?_
        have hmem : o ∈ older := by
          have hmem := mem_of_head? ho
          simp only [cleanup, hrec', mem_filter, mem_cons] at hmem
          refine hmem.1.resolve_left fun heq => ?_
          simp [heq, hown] at hmem
        exact hcommitted o (hrowinv.committed_of_mem_tail hrec' hmem)
      · simp [outcome, cleanup, hrec', hown, current]

theorem clean (h : KeysUnique key entries s.active (s.rows table)) (hinv : s.Invariant) :
    KeysUnique key entries s.clean.active (s.clean.rows table) := by
  refine (Store.clean_induction (P := fun t => t.Invariant ∧
    KeysUnique key entries t.active (t.rows table)) ⟨hinv, h⟩ ?_).2
  rintro t oldest rest ⟨htinv, ht⟩ hrec - -
  exact ⟨htinv.cleanOldest hrec, ht.cleanOldest hrec htinv⟩

/-- **Transactions that start or end** keep the keys unique. -/
theorem apply {e : Event V} (h : KeysUnique key entries s.active (s.rows table)) (hinv : s.Invariant)
    (hok : s.Allowed e) (hwrite : ∀ owner c, e ≠ .write owner c) :
    KeysUnique key entries (s.apply e).active ((s.apply e).rows table) := by
  cases e with
  | start => exact h.start hinv
  | write owner c => exact absurd rfl (hwrite owner c)
  | commit owner startTime commitId =>
    obtain ⟨hactive, rfl⟩ := hok
    exact (h.commitRows s.clock).clean (hinv.commitRows ⟨_, hactive, rfl⟩)
  | rollback owner => exact (h.rollbackRows hinv hok).clean hinv.rollbackRows

end KeysUnique

/-! ### Rows that a transaction changes -/

/-- `owner` has changed the rows in `changed`, which it may change; `f` says how. -/
def Rewritten (owner : ℕ) (changed : List ℕ) (f : ℕ → RowState V → RowState V)
    (rows rows' : List (VersionedRow V)) : Prop :=
  ∀ (i : ℕ) (row' : VersionedRow V), rows'[i]? = some row' → ∃ row, rows[i]? = some row ∧
    (i ∉ changed ∧ row' = row ∨
      i ∈ changed ∧ row.conflicts owner = false ∧
        (row.state.deleted = true → row.ownedBy owner = true) ∧
          row' = { row.save owner with state := f i row.state })

namespace KeysUnique

variable {key : List V → Option κ} {entries entries' : κ → List ℕ} {s : Store V} {table owner : ℕ}
  {changed : List ℕ} {f : ℕ → RowState V → RowState V} {rows' : List (VersionedRow V)}

section

variable (h : KeysUnique key entries s.active (s.rows table))

include h

theorem known_rewritten (hrows : Rewritten owner changed f (s.rows table) rows')
    (hentries : ∀ k, ∀ i ∈ entries k, i ∈ entries' k)
    (hnew : ∀ (i : ℕ) (row : VersionedRow V), (s.rows table)[i]? = some row → i ∈ changed → ∀ k,
      key (f i row.state).columns = some k → i ∈ entries' k) :
    ∀ (i : ℕ) (row' : VersionedRow V), rows'[i]? = some row' → ∀ columns ∈ row'.columnStates, ∀ k,
      key columns = some k → i ∈ entries' k := by
  intro i row' hrow' columns hcolumns k hk
  obtain ⟨row, hrow, ⟨-, rfl⟩ | ⟨hi, -, -, rfl⟩⟩ := hrows i row' hrow'
  · exact hentries k i (h.known i row' hrow columns hcolumns k hk)
  · rcases columnStates_save hcolumns with rfl | hcolumns
    · exact hnew i row hrow hi k hk
    · exact hentries k i (h.known i row hrow columns hcolumns k hk)

/-- The outcomes in which the writer rolls back are the old ones. -/
theorem differ_undone (hinv : s.Invariant) (hrows : Rewritten owner changed f (s.rows table) rows')
    {undone : ℕ → Bool} (hundone : OnlyRunning s.active undone) (howner : undone owner = true) :
    KeysDiffer key undone rows' := by
  refine (h.differ undone hundone).of_outcomes fun i row' hrow' k hk => ?_
  obtain ⟨row, hrow, ⟨-, rfl⟩ | ⟨-, hconf, hlive, rfl⟩⟩ := hrows i row' hrow'
  · exact ⟨row', hrow, hk⟩
  · have hrowinv := hinv.rows table row (mem_of_getElem? hrow)
    refine ⟨row, hrow, ?_⟩
    rwa [← hrowinv.outcome_save hinv.active_ge (fun _ hruns => hinv.recent_ne hruns) hconf hlive
      hundone howner (f i row.state)]

/-- **Changes that make no new key** keep the keys unique. -/
theorem rewrite_same (hinv : s.Invariant) (hrows : Rewritten owner changed f (s.rows table) rows')
    (hentries : ∀ k, ∀ i ∈ entries k, i ∈ entries' k)
    (hkey : ∀ (i : ℕ) (state : RowState V) k, key (f i state).columns = some k →
      key state.columns = some k)
    (hdeleted : ∀ (i : ℕ) (state : RowState V), (f i state).deleted = false →
      state.deleted = false) : KeysUnique key entries' s.active rows' where
  known := h.known_rewritten hrows hentries fun i row hrow _ k hk =>
    hentries k i (h.known i row hrow _ mem_cons_self k (hkey i row.state k hk))
  differ undone hundone := by
    cases howner : undone owner with
    | true => exact h.differ_undone hinv hrows hundone howner
    | false =>
      refine (h.differ undone hundone).of_outcomes fun i row' hrow' k hk => ?_
      obtain ⟨row, hrow, ⟨-, rfl⟩ | ⟨-, hconf, -, rfl⟩⟩ := hrows i row' hrow'
      · exact ⟨row', hrow, hk⟩
      · have hrowinv := hinv.rows table row (mem_of_getElem? hrow)
        refine ⟨row, hrow, ?_⟩
        rw [outcome_save_kept howner, tuple?] at hk
        rw [hrowinv.outcome_of_writable hinv.active_ge (fun _ hruns => hinv.recent_ne hruns) hconf
          hundone howner, current, tuple?]
        split_ifs at hk with hdel
        · simp at hk
        · rw [if_neg (by simp [hdeleted i row.state (by simpa using hdel)])]
          exact hkey i row.state k hk

/-- **Changes that make new keys** keep the keys unique, if no other row can have them when the
writer commits. -/
theorem rewrite_new (hinv : s.Invariant) (hrows : Rewritten owner changed f (s.rows table) rows')
    (hentries : ∀ k, ∀ i ∈ entries k, i ∈ entries' k)
    (hnew : ∀ (i : ℕ) (row : VersionedRow V), (s.rows table)[i]? = some row → i ∈ changed → ∀ k,
      key (f i row.state).columns = some k → i ∈ entries' k)
    (hothers : ∀ (i : ℕ) (row : VersionedRow V), (s.rows table)[i]? = some row → i ∈ changed → ∀ k,
      key (f i row.state).columns = some k → ∀ (j : ℕ) (row' : VersionedRow V), j ≠ i →
        (s.rows table)[j]? = some row' →
          if j ∈ changed then key (f j row'.state).columns ≠ some k
          else ∀ undone, OnlyRunning s.active undone → undone owner = false →
            (row'.outcome undone).bind key ≠ some k) : KeysUnique key entries' s.active rows' where
  known := h.known_rewritten hrows hentries hnew
  differ undone hundone := by
    cases howner : undone owner with
    | true => exact h.differ_undone hinv hrows hundone howner
    | false =>
      -- the key of a changed row is the one of its new columns
      have hkey : ∀ (i : ℕ) (row : VersionedRow V) k,
          (({ row.save owner with state := f i row.state } : VersionedRow V).outcome undone).bind
            key = some k → key (f i row.state).columns = some k := by
        intro i row k hk
        rw [outcome_save_kept howner, tuple?] at hk
        split_ifs at hk
        · simp at hk
        · exact hk
      refine (h.differ undone hundone).of_new (· ∈ changed) (fun i row' hrow' hi k hk => ?_)
        fun i row' hrow' hi k hk j row'' hne hrow'' hk' => ?_
      · obtain ⟨row, hrow, ⟨-, rfl⟩ | ⟨hi', -⟩⟩ := hrows i row' hrow'
        · exact ⟨row', hrow, hk⟩
        · exact absurd hi' hi
      · obtain ⟨row, hrow, ⟨hi', -⟩ | ⟨-, -, -, rfl⟩⟩ := hrows i row' hrow'
        · exact hi' hi
        · obtain ⟨other, hother, hcase⟩ := hrows j row'' hrow''
          have hdiffer := hothers i row hrow hi k (hkey i row k hk) j other hne hother
          rcases hcase with ⟨hj, rfl⟩ | ⟨hj, -, -, rfl⟩
          · rw [if_neg hj] at hdiffer
            exact hdiffer undone hundone howner hk'
          · rw [if_pos hj] at hdiffer
            exact hdiffer (hkey j other k hk')

/-- **Insertions** keep the keys unique, if no other row can have the new keys when the writer
commits. -/
theorem insert {tuples : List (List V)} (hentries : ∀ k, ∀ i ∈ entries k, i ∈ entries' k)
    (hnew : ∀ (n : ℕ) (tuple : List V), tuples[n]? = some tuple → ∀ k, key tuple = some k →
      (s.rows table).length + n ∈ entries' k)
    (hold : ∀ tuple ∈ tuples, ∀ k, key tuple = some k → ∀ row ∈ s.rows table, ∀ undone,
      OnlyRunning s.active undone → undone owner = false → (row.outcome undone).bind key ≠ some k)
    (hpairs : tuples.Pairwise fun tuple tuple' => ∀ k, key tuple = some k → key tuple' ≠ some k) :
    KeysUnique key entries' s.active (s.rows table ++ tuples.map (inserted owner)) := by
  -- a row is an old one or an inserted one
  have hcases : ∀ (i : ℕ) (row : VersionedRow V),
      (s.rows table ++ tuples.map (inserted owner))[i]? = some row →
        (i < (s.rows table).length ∧ (s.rows table)[i]? = some row) ∨
        ∃ n tuple, i = (s.rows table).length + n ∧ tuples[n]? = some tuple ∧
          row = inserted owner tuple := by
    intro i row hrow
    rw [getElem?_append] at hrow
    split_ifs at hrow with hlt
    · exact .inl ⟨hlt, hrow⟩
    · rw [getElem?_map, Option.map_eq_some_iff] at hrow
      obtain ⟨tuple, htuple, rfl⟩ := hrow
      exact .inr ⟨_, tuple, by omega, htuple, rfl⟩
  have hoc : ∀ (undone : ℕ → Bool) (tuple : List V) k,
      ((inserted owner tuple).outcome undone).bind key = some k →
        undone owner = false ∧ key tuple = some k := by
    intro undone tuple k hk
    cases howner : undone owner with
    | true => simp [outcome, inserted, howner, tuple?] at hk
    | false =>
      simpa [outcome, inserted, howner, current, tuple?] using hk
  refine ⟨fun i row hrow columns hcolumns k hk => ?_, fun undone hundone => ?_⟩
  · obtain ⟨-, hrow⟩ | ⟨n, tuple, rfl, htuple, rfl⟩ := hcases i row hrow
    · exact hentries k i (h.known i row hrow columns hcolumns k hk)
    · obtain rfl : columns = tuple := by
        simpa [columnStates, inserted] using hcolumns
      exact hnew n columns htuple k hk
  · refine (h.differ undone hundone).of_new ((s.rows table).length ≤ ·)
      (fun i row hrow hi k hk => ?_) fun i row hrow hi k hk j row' hne hrow' hk' => ?_
    · obtain ⟨-, hrow⟩ | ⟨n, tuple, rfl, -⟩ := hcases i row hrow
      · exact ⟨row, hrow, hk⟩
      · exact absurd (Nat.le_add_right _ _) hi
    · obtain ⟨hlt, -⟩ | ⟨n, tuple, rfl, htuple, rfl⟩ := hcases i row hrow
      · omega
      · obtain ⟨howner, hkey⟩ := hoc undone tuple k hk
        obtain ⟨-, hrow'⟩ | ⟨m, tuple', rfl, htuple', rfl⟩ := hcases j row' hrow'
        · exact hold tuple (mem_of_getElem? htuple) k hkey row' (mem_of_getElem? hrow')
            undone hundone howner hk'
        · obtain ⟨-, hkey'⟩ := hoc undone tuple' k hk'
          obtain ⟨hn, rfl⟩ := List.getElem?_eq_some_iff.1 htuple
          obtain ⟨hm, rfl⟩ := List.getElem?_eq_some_iff.1 htuple'
          rcases Nat.lt_or_gt_of_ne (show n ≠ m by omega) with hlt | hlt
          · exact pairwise_iff_getElem.1 hpairs n m hn hm hlt k hkey hkey'
          · exact pairwise_iff_getElem.1 hpairs m n hm hn hlt k hkey' hkey

end

end KeysUnique

/-! ### The rows after an operation -/

namespace Store

variable {table : ℕ}

theorem foldl_write (s : Store V) (owner : ℕ) {changes : List (Change V)}
    (h : ∀ c ∈ changes, c.table = table ∧ c.write.isInsert = false) :
    ((changes.map (Event.write owner)).foldl apply s).active = s.active ∧
    (∀ i : ℕ, (((changes.map (Event.write owner)).foldl apply s).rows table)[i]? =
      (s.rows table)[i]?.map
        (·.writeAll owner ((changes.filter (·.row = i)).map (·.write)))) ∧
    ∀ table', table' ≠ table →
      ((changes.map (Event.write owner)).foldl apply s).rows table' = s.rows table' := by
  induction changes generalizing s with
  | nil => simp [writeAll]
  | cons c changes ih =>
    obtain ⟨⟨rfl, hw⟩, hchanges⟩ := forall_mem_cons.1 h
    obtain ⟨hactive, hrows, hothers⟩ := ih (s.writeRow owner c) hchanges
    simp only [map_cons, foldl_cons, apply]
    refine ⟨hactive, fun i => ?_, fun table' hne => ?_⟩
    · rw [hrows, writeRow_of_not_insert s owner hw]
      simp only [Function.update_self, getElem?_modify]
      by_cases hi : c.row = i
      · simp [hi, writeAll, Function.comp_def]
      · simp [hi]
    · rw [hothers table' hne]
      exact Function.update_of_ne hne ..

theorem foldl_insert (table : ℕ) (s : Store V) (owner : ℕ) (tuples : List (List V)) (n : ℕ) :
    let changes := (tuples.zipIdx n).map fun e => Change.mk table e.2 (.insert e.1)
    ((changes.map (Event.write owner)).foldl apply s).active = s.active ∧
    ((changes.map (Event.write owner)).foldl apply s).rows table =
      s.rows table ++ tuples.map (inserted owner) ∧
    ∀ table', table' ≠ table →
      ((changes.map (Event.write owner)).foldl apply s).rows table' = s.rows table' := by
  induction tuples generalizing s n with
  | nil => simp
  | cons tuple tuples ih =>
    obtain ⟨hactive, hrows, hothers⟩ := ih (s.writeRow owner ⟨table, n, .insert tuple⟩) (n + 1)
    simp only [zipIdx_cons, map_cons, foldl_cons, apply]
    refine ⟨hactive, ?_, fun table' hne => ?_⟩
    · rw [hrows]
      simp [writeRow]
    · rw [hothers table' hne]
      exact Function.update_of_ne hne ..

end Store

end DuckDB
