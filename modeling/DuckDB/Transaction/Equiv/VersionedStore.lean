import DuckDB.Transaction.VersionedStore

/-!
# The invariant of the abstract store

* `Store.Invariant.apply`: every allowed event keeps the invariant.
* `Store.Invariant.choose_cleanup`: dropping the records of the oldest committed transaction changes
  nothing for a reader that sees it.
-/

namespace DuckDB

open Theory List VersionedRow

variable {V : Type*}

theorem runs_retire (active : List Running) (owner o : ℕ) :
    Runs (active.filter (·.transactionId ≠ owner)) o ↔ Runs active o ∧ o ≠ owner := by
  constructor
  · rintro ⟨a, ha, rfl⟩
    obtain ⟨ha, hne⟩ := mem_filter.1 ha
    exact ⟨⟨a, ha, rfl⟩, by simpa using hne⟩
  · rintro ⟨⟨a, ha, rfl⟩, hne⟩
    exact ⟨a, mem_filter.2 ⟨ha, by simpa using hne⟩, rfl⟩

/-- The record is the one of a committed transaction. -/
def Record.committed (recent : List Finished) (r : Record V) : Prop :=
  ⟨r.owner, r.number⟩ ∈ recent

/-- A record belongs to a running transaction, under its id, or to a committed one, under its commit
id. All records but the newest are committed, and their commit ids decrease. -/
structure RowInvariant (active : List Running) (recent : List Finished) (row : VersionedRow V) :
    Prop where
  known : ∀ r ∈ row.records, (Runs active r.owner ∧ r.number = r.owner) ∨ r.committed recent
  ordered : row.records.Pairwise fun newer older =>
    older.committed recent ∧ (newer.committed recent → older.number < newer.number)

/-- What all reachable stores have in common. -/
structure Store.Invariant (s : Store V) : Prop where
  nextId_le : transactionIdStart ≤ s.nextId
  active_id : ∀ a ∈ s.active, transactionIdStart ≤ a.transactionId ∧ a.transactionId < s.nextId
  active_start : ∀ a ∈ s.active, a.startTime < s.clock ∧ a.startTime < transactionIdStart
  recent_id : ∀ c ∈ s.recent, c.transactionId < s.nextId
  recent_commit : ∀ c ∈ s.recent, c.commitId < s.clock
  nodup : (s.active.map (·.transactionId) ++ s.recent.map (·.transactionId)).Nodup
  sorted : s.recent.Pairwise fun older newer => older.commitId < newer.commitId
  rows : ∀ table, ∀ row ∈ s.rows table, RowInvariant s.active s.recent row

/-! ### Rows -/

namespace VersionedRow

variable {row : VersionedRow V} {owner : ℕ}

@[simp] theorem state_save (owner : ℕ) (row : VersionedRow V) :
    (row.save owner).state = row.state := by
  unfold save
  split_ifs <;> rfl

theorem save_of_ownedBy (h : row.ownedBy owner) : row.save owner = row :=
  if_pos h

@[simp] theorem ownedBy_save (owner : ℕ) (row : VersionedRow V) :
    (row.save owner).ownedBy owner := by
  unfold save
  split_ifs with h
  · exact h
  · simp [ownedBy]

@[simp] theorem ownedBy_write (owner : ℕ) (w : RowWrite V) (row : VersionedRow V) :
    (row.write owner w).ownedBy owner :=
  ownedBy_save owner row

theorem current_write {w : RowWrite V} (hw : w.isInsert = false) (owner : ℕ)
    (row : VersionedRow V) : (row.write owner w).current = w.apply row.current := by
  cases w with
  | insert tuple => simp [RowWrite.isInsert] at hw
  | touch => rfl
  | set column value =>
    by_cases hdel : row.state.deleted <;>
      simp [current, write, change, RowState.tuple?, RowWrite.apply, hdel]
  | delete => rfl

theorem exists_cons_of_ownedBy (h : row.ownedBy owner) :
    ∃ r older, row.records = r :: older ∧ r.owner = owner := by
  cases hrec : row.records with
  | nil => simp [ownedBy, hrec] at h
  | cons r older => exact ⟨r, older, rfl, by simpa [ownedBy, hrec] using h⟩

theorem eq_of_ownedBy {a b : ℕ} (ha : row.ownedBy a) (hb : row.ownedBy b) : a = b := by
  obtain ⟨r, older, hrec, rfl⟩ := exists_cons_of_ownedBy ha
  simpa [ownedBy, hrec] using hb

theorem rollback_of_not_ownedBy (h : row.ownedBy owner = false) : row.rollback owner = row := by
  unfold rollback
  cases hrec : row.records with
  | nil => rfl
  | cons r older =>
    have hr : r.owner ≠ owner := by simpa [ownedBy, hrec] using h
    simp [hr]

theorem rollback_of_cons {r : Record V} {older : List (Record V)} (hrec : row.records = r :: older)
    (hr : r.owner = owner) : row.rollback owner = ⟨r.before, older⟩ := by
  simp [rollback, hrec, hr]

theorem not_conflicts_of_ownedBy {active : List Running} {recent : List Finished}
    (h : RowInvariant active recent row) (howned : row.ownedBy owner)
    (hid : ∀ c ∈ recent, c.transactionId ≠ owner) : row.conflicts owner = false := by
  obtain ⟨r, older, hrec, hr⟩ := exists_cons_of_ownedBy howned
  rcases h.known r (by simp [hrec]) with hk | hk
  · simp [conflicts, hrec, hk.2, hr]
  · exact absurd hr (hid _ hk)

end VersionedRow

/-! ### Dropping the oldest records -/

namespace VersionedRow

variable {oldest : List (Record V)} {row row' : VersionedRow V} {sees : ℕ → Bool}

/-- A reader that sees the oldest changes does not need their records. -/
theorem read_of_append (hcur : row.current = row'.current)
    (hrec : row.records = row'.records ++ oldest) (hsees : ∀ r ∈ oldest, sees r.number) :
    row.read sees = row'.read sees := by
  rw [read, read, hcur, hrec, map_append]
  refine VersionChain.select_append fun e he => ?_
  obtain ⟨r, hr, rfl⟩ := mem_map.1 he
  exact hsees r hr

theorem read_of_choose (sees : ℕ → Bool) (row : VersionedRow V) :
    (match row.choose sees with
      | .base => some row.state.columns
      | .alternate tuple => some tuple
      | .skip => none) = row.read sees := by
  have hread : row.records.head?.all (sees ·.number) → row.read sees = row.current := by
    intro hall
    unfold read
    cases hrec : row.records with
    | nil => rfl
    | cons r older => exact if_pos (by simpa [hrec] using hall)
  unfold choose
  split_ifs with hall hdel
  · rw [hread hall, current, RowState.tuple?, if_pos hdel]
  · rw [hread hall, current, RowState.tuple?, if_neg hdel]
  · cases row.read sees <;> rfl

theorem choose_of_append (hstate : row.state = row'.state)
    (hrec : row.records = row'.records ++ oldest) (hsees : ∀ r ∈ oldest, sees r.number) :
    row.choose sees = row'.choose sees := by
  have hread : row.read sees = row'.read sees :=
    read_of_append (by rw [current, current, hstate]) hrec hsees
  have hhead : row.records.head?.all (sees ·.number) = row'.records.head?.all (sees ·.number) := by
    rw [hrec]
    cases row'.records with
    | cons r records => rfl
    | nil =>
      cases oldest with
      | nil => rfl
      | cons o oldest => simpa using hsees o (by simp)
  rw [choose, choose, hread, hhead, hstate]

end VersionedRow

/-- A list in which nothing without `p` follows something with `p`. -/
theorem eq_filter_append_filter {α : Type*} (p : α → Bool) :
    ∀ {l : List α}, l.Pairwise (fun a b => p a → p b) → l = l.filter (fun a => !p a) ++ l.filter p
  | [], _ => rfl
  | a :: l, h => by
    obtain ⟨ha, hl⟩ := pairwise_cons.1 h
    have ih := eq_filter_append_filter p hl
    by_cases hp : p a
    · have hall : ∀ b ∈ l, p b := fun b hb => ha b hb hp
      have hnone : l.filter (fun b => !p b) = [] :=
        filter_eq_nil_iff.2 fun b hb => by simp [hall b hb]
      rw [filter_cons_of_pos hp, filter_cons_of_neg (by simp [hp]), hnone,
        filter_eq_self.2 hall, nil_append]
    · rw [filter_cons_of_neg hp, filter_cons_of_pos (by simp [hp]), cons_append, ← ih]

namespace RowInvariant

variable {active active' : List Running} {recent recent' : List Finished} {row row' : VersionedRow V}
  {owner commitId : ℕ}

section

variable (h : RowInvariant active recent row)

include h

theorem of_records_eq (hrec : row'.records = row.records) : RowInvariant active recent row' :=
  ⟨fun r hr => h.known r (hrec ▸ hr), hrec ▸ h.ordered⟩

theorem mono (hsub : ∀ owner, Runs active owner → Runs active' owner) :
    RowInvariant active' recent row :=
  ⟨fun r hr => (h.known r hr).imp_left fun hk => ⟨hsub _ hk.1, hk.2⟩, h.ordered⟩

theorem committed_of_mem_tail {r o : Record V} {older : List (Record V)}
    (hrec : row.records = r :: older) (ho : o ∈ older) : o.committed recent := by
  have hord := h.ordered
  rw [hrec, pairwise_cons] at hord
  exact (hord.1 o ho).1

/-- A row without conflict that has no record of `owner` on top has committed records only. -/
theorem committed_of_not_conflicts (hids : ∀ a ∈ active, transactionIdStart ≤ a.transactionId)
    (hconf : row.conflicts owner = false) (howned : row.ownedBy owner = false) :
    ∀ r ∈ row.records, r.committed recent := by
  cases hrec : row.records with
  | nil => simp
  | cons r older =>
    have hne : r.owner ≠ owner := by simpa [ownedBy, hrec] using howned
    have hr : r.committed recent := by
      rcases h.known r (by simp [hrec]) with ⟨⟨a, ha, hown⟩, hnum⟩ | hk
      · have hge : transactionIdStart ≤ r.number := by
          rw [hnum, ← hown]
          exact hids a ha
        have hown' : r.number = owner := by
          simpa [conflicts, hrec, hge] using hconf
        exact absurd (hnum.symm.trans hown') hne
      · exact hk
    intro o ho
    rcases mem_cons.1 ho with rfl | ho
    · exact hr
    · exact h.committed_of_mem_tail hrec ho

theorem save (hids : ∀ a ∈ active, transactionIdStart ≤ a.transactionId)
    (hruns : Runs active owner) (hnew : ∀ c ∈ recent, c.transactionId ≠ owner)
    (hconf : row.conflicts owner = false) : RowInvariant active recent (row.save owner) := by
  by_cases howned : row.ownedBy owner
  · rwa [VersionedRow.save_of_ownedBy howned]
  · have hall := h.committed_of_not_conflicts hids hconf (by simpa using howned)
    simp only [VersionedRow.save, howned]
    refine ⟨fun r hr => ?_, pairwise_cons.2 ⟨fun o ho => ⟨hall o ho, fun hc => ?_⟩, h.ordered⟩⟩
    · rcases mem_cons.1 hr with rfl | hr
      · exact .inl ⟨hruns, rfl⟩
      · exact .inr (hall r hr)
    · exact absurd rfl (hnew _ hc)

end

theorem inserted (hruns : Runs active owner) (tuple : List V) :
    RowInvariant active recent (inserted owner tuple) :=
  ⟨fun r hr => by
    obtain rfl := mem_singleton.1 hr
    exact .inl ⟨hruns, rfl⟩, pairwise_singleton _ _⟩

/-- Committed records are not those of a running transaction. -/
theorem owner_ne (hnew : ∀ c ∈ recent, c.transactionId ≠ owner) {r : Record V}
    (hr : r.committed recent) : r.owner ≠ owner :=
  hnew _ hr

theorem commit (h : RowInvariant active recent row) (hnew : ∀ c ∈ recent, c.transactionId ≠ owner)
    (hclock : ∀ c ∈ recent, c.commitId < commitId) :
    RowInvariant (active.filter (·.transactionId ≠ owner)) (recent ++ [⟨owner, commitId⟩])
      (row.commit owner commitId) := by
  -- a record that was committed before keeps its number
  have hkeep : ∀ r : Record V, r.committed recent →
      (if r.owner = owner then { r with number := commitId } else r) = r := fun r hr =>
    if_neg (owner_ne hnew hr)
  refine ⟨fun r hr => ?_, ?_⟩
  · obtain ⟨r, hmem, rfl⟩ := mem_map.1 hr
    by_cases hown : r.owner = owner
    · rw [if_pos hown]
      exact .inr (by simp [Record.committed, hown])
    · rw [if_neg hown]
      rcases h.known r hmem with ⟨⟨a, ha, haown⟩, hnum⟩ | hk
      · exact .inl ⟨⟨a, by simp [ha, haown, hown], haown⟩, hnum⟩
      · exact .inr (mem_append_left _ hk)
  · simp only [VersionedRow.commit]
    rw [pairwise_map]
    refine (List.Pairwise.and_mem.1 h.ordered).imp ?_
    rintro newer older ⟨-, -, hold, hlt⟩
    rw [hkeep older hold]
    refine ⟨mem_append_left _ hold, fun hc => ?_⟩
    by_cases hown : newer.owner = owner
    · rw [if_pos hown]
      exact hclock _ hold
    · rw [if_neg hown] at hc ⊢
      rcases mem_append.1 hc with hc | hc
      · exact hlt hc
      · exact absurd (congrArg Finished.transactionId (mem_singleton.1 hc)) hown

theorem rollback (h : RowInvariant active recent row) :
    RowInvariant (active.filter (·.transactionId ≠ owner)) recent (row.rollback owner) := by
  cases hrec : row.records with
  | nil =>
    simp only [VersionedRow.rollback, hrec]
    exact ⟨by simp [hrec], by simp [hrec]⟩
  | cons r older =>
    have htail := fun o => h.committed_of_mem_tail hrec (o := o)
    have hord := h.ordered
    rw [hrec, pairwise_cons] at hord
    by_cases hown : r.owner = owner
    · have hrecords : (row.rollback owner).records = older := by
        simp only [VersionedRow.rollback, hrec, hown, if_true]
      exact ⟨fun o ho => .inr (htail o (hrecords ▸ ho)), hrecords ▸ hord.2⟩
    · simp only [VersionedRow.rollback, hrec, hown, if_false]
      refine ⟨fun o ho => ?_, h.ordered⟩
      rcases mem_cons.1 (hrec ▸ ho) with rfl | ho'
      · refine (h.known o ho).imp_left fun ⟨⟨a, ha, haown⟩, hnum⟩ => ⟨⟨a, ?_, haown⟩, hnum⟩
        simp [ha, haown, hown]
      · exact .inr (htail o ho')

theorem cleanup {oldest : Finished} {rest : List Finished}
    (h : RowInvariant active (oldest :: rest) row) :
    RowInvariant active rest (row.cleanup oldest.transactionId) := by
  have hkeep : ∀ r : Record V, r.owner ≠ oldest.transactionId → r.committed (oldest :: rest) →
      r.committed rest := fun r hne hr => by
    rcases mem_cons.1 hr with hr | hr
    · exact absurd (congrArg Finished.transactionId hr) hne
    · exact hr
  refine ⟨fun r hr => ?_, ?_⟩
  · obtain ⟨hr, hne⟩ := mem_filter.1 hr
    exact (h.known r hr).imp_right (hkeep r (by simpa using hne))
  · refine (List.Pairwise.and_mem.1 (h.ordered.filter _)).imp ?_
    rintro newer older ⟨-, holder, hold, hlt⟩
    have hne : older.owner ≠ oldest.transactionId := by
      simpa using (mem_filter.1 holder).2
    exact ⟨hkeep older hne hold, fun hc => hlt (mem_cons_of_mem _ hc)⟩

end RowInvariant

/-! ### The smallest start time and cleaning up -/

namespace Store

variable {change : Change V} {s : Store V} {owner : ℕ}

theorem le_lowestStartTime_iff {active : List Running} {n : ℕ} :
    n ≤ lowestStartTime active ↔ n ≤ transactionIdStart ∧ ∀ a ∈ active, n ≤ a.startTime :=
  le_foldl_min_iff

@[simp] theorem cleanOldest_active : s.cleanOldest.active = s.active := by
  unfold cleanOldest
  split <;> rfl

theorem cleanOldest_of_recent {oldest : Finished} {rest : List Finished}
    (h : s.recent = oldest :: rest) :
    s.cleanOldest = { s.mapRows (·.cleanup oldest.transactionId) with recent := rest } := by
  simp only [cleanOldest, h]

/-- **Induction on cleaning up**: one oldest transaction after the other, each with a commit id
below all start times. -/
theorem clean_induction {P : Store V → Prop} (hs : P s)
    (hstep : ∀ t oldest rest, P t → t.recent = oldest :: rest → t.active = s.active →
      oldest.commitId < lowestStartTime s.active → P t.cleanOldest) : P s.clean := by
  have key : ∀ (recent : List Finished) (t : Store V), t.recent = recent → t.active = s.active →
      P t → P ((recent.takeWhile (·.commitId < lowestStartTime s.active)).foldl
        (fun t _ => t.cleanOldest) t) := by
    intro recent
    induction recent with
    | nil => exact fun t _ _ ht => ht
    | cons oldest rest ih =>
      intro t hrec hact ht
      by_cases hlt : oldest.commitId < lowestStartTime s.active
      · rw [takeWhile_cons_of_pos (by simpa using hlt), foldl_cons]
        refine ih _ ?_ (by simpa using hact) (hstep t oldest rest ht hrec hact hlt)
        rw [cleanOldest_of_recent hrec]
      · rw [takeWhile_cons_of_neg (by simpa using hlt)]
        exact ht
  exact key s.recent s rfl rfl hs

theorem writable_iff_of_not_insert (hw : change.write.isInsert = false) : s.Writable owner change ↔
      ∃ row, (s.rows change.table)[change.row]? = some row ∧ row.conflicts owner = false := by
  unfold Store.Writable
  cases hwrite : change.write with
  | insert tuple => simp [hwrite, RowWrite.isInsert] at hw
  | _ => rfl

theorem writeRow_of_not_insert (s : Store V) (owner : ℕ) (hw : change.write.isInsert = false) :
    s.writeRow owner change =
      { s with
        rows := Function.update s.rows change.table
          ((s.rows change.table).modify change.row (·.write owner change.write)) } := by
  unfold Store.writeRow
  cases hwrite : change.write with
  | insert tuple => simp [hwrite, RowWrite.isInsert] at hw
  | _ => rfl

theorem length_le_writeRow (s : Store V) (owner : ℕ) (change : Change V) (table : ℕ) :
    (s.rows table).length ≤ ((s.writeRow owner change).rows table).length := by
  by_cases htable : table = change.table
  · subst htable
    cases hwrite : change.write <;> simp [Store.writeRow, hwrite]
  · simp [Store.writeRow, htable]

/-- The row of a change exists once it is made. -/
theorem row_lt_writeRow (hok : s.Writable owner change) :
    change.row < ((s.writeRow owner change).rows change.table).length := by
  cases hw : change.write.isInsert with
  | false =>
    obtain ⟨row, hrow, -⟩ := (writable_iff_of_not_insert hw).1 hok
    exact (List.getElem?_eq_some_iff.1 hrow).1.trans_le (length_le_writeRow ..)
  | true =>
    obtain ⟨table, row, w⟩ := change
    cases w with
    | insert tuple =>
      have hlast : row = (s.rows table).length := hok
      simp [Store.writeRow, hlast]
    | _ => simp [RowWrite.isInsert] at hw

theorem length_le_apply (s : Store V) (e : Event V) (table : ℕ) :
    (s.rows table).length ≤ ((s.apply e).rows table).length := by
  have hclean : ∀ s : Store V, (s.rows table).length ≤ (s.clean.rows table).length := fun s =>
    clean_induction (P := fun t => (s.rows table).length ≤ (t.rows table).length) le_rfl
      fun t oldest rest ht hrec _ _ => by simpa [cleanOldest_of_recent hrec, mapRows] using ht
  cases e with
  | start => exact le_rfl
  | write owner change => exact length_le_writeRow ..
  | commit owner startTime commitId | rollback owner =>
    refine le_trans ?_ (hclean _)
    simp [commitRows, rollbackRows, retire, mapRows]

namespace Invariant

variable {s : Store V} {owner : ℕ} {oldest : Finished} {rest : List Finished}

section

variable (h : s.Invariant)

include h

variable {row : VersionedRow V} {table : ℕ}

theorem recent_ne (hruns : Runs s.active owner) : ∀ c ∈ s.recent, c.transactionId ≠ owner := by
  rintro c hc rfl
  obtain ⟨a, ha, haown⟩ := hruns
  exact (nodup_append.1 h.nodup).2.2 _ (mem_map_of_mem ha) _ (mem_map_of_mem hc) haown

theorem active_ge : ∀ a ∈ s.active, transactionIdStart ≤ a.transactionId :=
  fun a ha => (h.active_id a ha).1

theorem start (hok : s.clock < transactionIdStart) : s.start.Invariant where
  nextId_le := h.nextId_le.trans (Nat.le_succ _)
  active_id a ha := by
    rcases mem_append.1 ha with ha | ha
    · exact ⟨(h.active_id a ha).1, (h.active_id a ha).2.trans (Nat.lt_succ_self _)⟩
    · obtain rfl := mem_singleton.1 ha
      exact ⟨h.nextId_le, Nat.lt_succ_self _⟩
  active_start a ha := by
    rcases mem_append.1 ha with ha | ha
    · exact ⟨(h.active_start a ha).1.trans (Nat.lt_succ_self _), (h.active_start a ha).2⟩
    · obtain rfl := mem_singleton.1 ha
      exact ⟨Nat.lt_succ_self _, hok⟩
  recent_id c hc := (h.recent_id c hc).trans (Nat.lt_succ_self _)
  recent_commit c hc := (h.recent_commit c hc).trans (Nat.lt_succ_self _)
  nodup := by
    -- the new id is larger than all ids in use
    have hfresh : s.nextId ∉ s.active.map (·.transactionId) ++ s.recent.map (·.transactionId) := by
      simp only [mem_append, mem_map, not_or, not_exists, not_and]
      exact ⟨fun a ha => (h.active_id a ha).2.ne, fun c hc => (h.recent_id c hc).ne⟩
    have hperm : (s.start.active.map (·.transactionId) ++ s.start.recent.map (·.transactionId)).Perm
        (s.nextId :: (s.active.map (·.transactionId) ++ s.recent.map (·.transactionId))) := by
      simp only [Store.start, map_append, map_cons, map_nil, append_assoc, cons_append, nil_append]
      exact perm_middle
    exact hperm.nodup_iff.2 (nodup_cons.2 ⟨hfresh, h.nodup⟩)
  sorted := h.sorted
  rows table row hrow := (h.rows table row hrow).mono fun owner ⟨a, ha, haown⟩ =>
    ⟨a, mem_append_left _ ha, haown⟩

theorem writeRow (hruns : Runs s.active owner) (hok : s.Writable owner change) :
    (s.writeRow owner change).Invariant where
  nextId_le := h.nextId_le
  active_id := h.active_id
  active_start := h.active_start
  recent_id := h.recent_id
  recent_commit := h.recent_commit
  nodup := h.nodup
  sorted := h.sorted
  rows table row hrow := by
    by_cases htable : table = change.table
    · subst htable
      have hmodify : ∀ w : RowWrite V,
          (∃ row, (s.rows change.table)[change.row]? = some row ∧ row.conflicts owner = false) →
          row ∈ (s.rows change.table).modify change.row (·.write owner w) →
          RowInvariant s.active s.recent row := by
        rintro w ⟨old, hold, hconf⟩ hmem
        obtain ⟨i, hi⟩ := mem_iff_getElem?.1 hmem
        rw [getElem?_modify] at hi
        by_cases hii : change.row = i
        · subst hii
          simp only [hold, Option.map_eq_map, Option.map_some, if_true, Option.some.injEq] at hi
          subst hi
          have hinv := h.rows change.table old (mem_of_getElem? hold)
          exact (hinv.save h.active_ge hruns (h.recent_ne hruns) hconf).of_records_eq
            rfl
        · simp only [hii, if_false, Option.map_eq_map, Option.map_id'] at hi
          exact h.rows change.table row (mem_of_getElem? hi)
      simp only [Store.writeRow, Function.update_self] at hrow
      simp only [Writable] at hok
      cases hw : change.write with
      | insert tuple =>
        simp only [hw, mem_append, mem_singleton] at hrow
        rcases hrow with hrow | rfl
        · exact h.rows change.table row hrow
        · exact RowInvariant.inserted hruns tuple
      | touch => rw [hw] at hrow hok; exact hmodify .touch hok hrow
      | set column value => rw [hw] at hrow hok; exact hmodify (.set column value) hok hrow
      | delete => rw [hw] at hrow hok; exact hmodify .delete hok hrow
    · simp only [Store.writeRow, Function.update_of_ne htable] at hrow
      exact h.rows table row hrow

theorem filter_nodup :
    ((s.active.filter (·.transactionId ≠ owner)).map (·.transactionId) ++
      s.recent.map (·.transactionId)).Nodup :=
  h.nodup.sublist ((filter_sublist.map _).append (List.Sublist.refl _))

theorem commitRows (hruns : Runs s.active owner) : (s.commitRows owner s.clock).Invariant where
  nextId_le := h.nextId_le
  active_id a ha := h.active_id a (mem_filter.1 ha).1
  active_start a ha := by
    obtain ⟨h₁, h₂⟩ := h.active_start a (mem_filter.1 ha).1
    exact ⟨h₁.trans (Nat.lt_succ_self _), h₂⟩
  recent_id c hc := by
    rcases mem_append.1 hc with hc | hc
    · exact h.recent_id c hc
    · obtain rfl := mem_singleton.1 hc
      obtain ⟨a, ha, rfl⟩ := hruns
      exact (h.active_id a ha).2
  recent_commit c hc := by
    rcases mem_append.1 hc with hc | hc
    · exact (h.recent_commit c hc).trans (Nat.lt_succ_self _)
    · obtain rfl := mem_singleton.1 hc
      exact Nat.lt_succ_self _
  nodup := by
    have hnot : owner ∉ (s.active.filter (·.transactionId ≠ owner)).map (·.transactionId) ++
        s.recent.map (·.transactionId) := by
      simp only [mem_append, mem_map, mem_filter, not_or, not_exists, not_and]
      exact ⟨fun a ha => by simpa using ha.2, fun c hc => h.recent_ne hruns c hc⟩
    have hperm : ((s.commitRows owner s.clock).active.map (·.transactionId) ++
        (s.commitRows owner s.clock).recent.map (·.transactionId)).Perm
        (owner :: ((s.active.filter (·.transactionId ≠ owner)).map (·.transactionId) ++
          s.recent.map (·.transactionId))) := by
      simp only [Store.commitRows, retire, mapRows, map_append, map_cons, map_nil, ← append_assoc]
      exact perm_append_singleton _ _
    exact hperm.nodup_iff.2 (nodup_cons.2 ⟨hnot, h.filter_nodup⟩)
  sorted := by
    refine pairwise_append.2 ⟨h.sorted, pairwise_singleton _ _, fun c hc d hd => ?_⟩
    obtain rfl := mem_singleton.1 hd
    exact h.recent_commit c hc
  rows table row hrow := by
    obtain ⟨old, hold, rfl⟩ := mem_map.1 hrow
    exact (h.rows table old hold).commit (h.recent_ne hruns) h.recent_commit

theorem rollbackRows : (s.rollbackRows owner).Invariant where
  nextId_le := h.nextId_le
  active_id a ha := h.active_id a (mem_filter.1 ha).1
  active_start a ha := h.active_start a (mem_filter.1 ha).1
  recent_id := h.recent_id
  recent_commit := h.recent_commit
  nodup := h.filter_nodup
  sorted := h.sorted
  rows table row hrow := by
    obtain ⟨old, hold, rfl⟩ := mem_map.1 hrow
    exact (h.rows table old hold).rollback

theorem cleanOldest (hrec : s.recent = oldest :: rest) : s.cleanOldest.Invariant := by
  rw [cleanOldest_of_recent hrec]
  have hsub : ∀ c ∈ rest, c ∈ s.recent := fun c hc => hrec ▸ mem_cons_of_mem _ hc
  refine ⟨h.nextId_le, h.active_id, h.active_start, fun c hc => h.recent_id c (hsub c hc),
    fun c hc => h.recent_commit c (hsub c hc), ?_, ?_, fun table row hrow => ?_⟩
  · refine h.nodup.sublist ((List.Sublist.refl _).append ?_)
    rw [hrec]
    exact (sublist_cons_self _ _).map _
  · have := h.sorted
    rw [hrec] at this
    exact this.of_cons
  · obtain ⟨old, hold, rfl⟩ := mem_map.1 hrow
    exact (hrec ▸ h.rows table old hold).cleanup

/-- The record of the oldest committed transaction is the oldest record of every row. -/
theorem records_eq_append (hrec : s.recent = oldest :: rest) (hrow : row ∈ s.rows table) :
    ∃ bottom, row.records = (row.cleanup oldest.transactionId).records ++ bottom ∧
      ∀ r ∈ bottom, r.number = oldest.commitId := by
  have hinv := h.rows table row hrow
  have hmem : oldest ∈ s.recent := hrec ▸ mem_cons_self
  have hnumber : ∀ r ∈ row.records, r.owner = oldest.transactionId →
      r.number = oldest.commitId := by
    intro r hr hown
    rcases hinv.known r hr with ⟨hruns, -⟩ | hk
    · exact absurd hown.symm (h.recent_ne hruns oldest hmem)
    · have hnd := (nodup_append.1 h.nodup).2.1
      exact congrArg Finished.commitId (inj_on_of_nodup_map hnd hk hmem hown)
  refine ⟨row.records.filter (·.owner = oldest.transactionId), ?_, fun r hr => ?_⟩
  · refine (eq_filter_append_filter (fun r : Record V => decide (r.owner = oldest.transactionId))
      ?_).trans ?_
    · -- nothing is older than the oldest
      refine (List.Pairwise.and_mem.1 hinv.ordered).imp ?_
      rintro newer older ⟨hnewer, holder, hold, hlt⟩ hown
      have hsorted := h.sorted
      rw [hrec, pairwise_cons] at hsorted
      have hn := hnumber newer hnewer (by simpa using hown)
      have hc : newer.committed s.recent := by
        rw [Record.committed, hn, of_decide_eq_true hown]
        exact hmem
      have hlt := hlt hc
      rw [Record.committed, hrec] at hold
      rcases mem_cons.1 hold with hold | hold
      · have hno : older.number = oldest.commitId := congrArg Finished.commitId hold
        omega
      · have hno : oldest.commitId < older.number := hsorted.1 _ hold
        omega
    · simp [cleanup]
  · obtain ⟨hr, hown⟩ := mem_filter.1 hr
    exact hnumber r hr (by simpa using hown)

/-- **Cleaning up is invisible** to every reader that sees the oldest committed transaction. -/
theorem choose_cleanup (hrec : s.recent = oldest :: rest) (hrow : row ∈ s.rows table)
    {sees : ℕ → Bool} (hsees : sees oldest.commitId) :
    (row.cleanup oldest.transactionId).choose sees = row.choose sees := by
  obtain ⟨bottom, hbottom, hnumber⟩ := h.records_eq_append hrec hrow
  symm
  exact choose_of_append rfl hbottom fun r hr => hnumber r hr ▸ hsees

theorem clean : s.clean.Invariant :=
  clean_induction h fun _ _ _ ht hrec _ _ => ht.cleanOldest hrec

/-- **Every allowed event keeps the invariant.** -/
theorem apply {e : Event V} (hok : s.Allowed e) : (s.apply e).Invariant := by
  cases e with
  | start => exact h.start hok
  | write owner change => exact h.writeRow hok.1 hok.2
  | commit owner startTime commitId =>
    obtain ⟨hactive, rfl⟩ := hok
    exact (h.commitRows ⟨_, hactive, rfl⟩).clean
  | rollback owner => exact h.rollbackRows.clean

end

end Invariant

theorem invariant_initial : (({} : Store V)).Invariant where
  nextId_le := le_rfl
  active_id := by simp
  active_start := by simp
  recent_id := by simp
  recent_commit := by simp
  nodup := by simp
  sorted := List.Pairwise.nil
  rows := by simp

end Store

end DuckDB
