import DuckDB.Transaction.Equiv.VersionedStore
import DuckDB.Transaction.History

/-!
# The records of a row and its history

`History.Invariant` connects a store with the history of the events that led to it: the records of a
row are those of the newest of the transactions that changed it, and the other ones committed before
every running transaction started.

A record of a deleted row does not remember the deletion (`VersionedRow.save`), so the states in the
records are the right ones only if nobody changes deleted rows. What does not depend on the states
holds in any case. A `RowView` says how much of a row state matters: `RowView.full` is everything,
`RowView.blind` nothing, and `SavedRight` asks that the records are right as far as the view can
tell.

* `History.Invariant.apply`: every allowed event keeps the invariant.
* `History.Invariant.read_eq`: a running transaction reads its snapshot.
-/

namespace DuckDB

open Theory List VersionedRow Function History VersionChain Store

variable {V σ : Type*}

/-! ### Views -/

/-- A view of the state of a row, with what a change does to it. -/
structure RowView (V σ : Type*) where
  see : Option (List V) → σ
  act : RowWrite V → σ → σ
  see_apply : ∀ w state, see (w.apply state) = act w (see state)

/-- All of the state. -/
def RowView.full : RowView V (Option (List V)) where
  see := id
  act := RowWrite.apply
  see_apply _ _ := rfl

/-- Nothing of the state. -/
def RowView.blind : RowView V Unit where
  see _ := ()
  act _ _ := ()
  see_apply _ _ := rfl

namespace RowView

variable (view : RowView V σ)

/-- What a list of changes does to one row. -/
def effect (table row : ℕ) (changes : List (Change V)) (state : σ) : σ :=
  (onRow table row changes).foldl (fun state c => view.act c.write state) state

/-- A record as an entry of a version chain. -/
def entry (r : Record V) : (ℕ × ℕ) × σ :=
  ((r.owner, r.number), view.see r.before.tuple?)

/-- What the committed transactions did to a row, newest first. -/
def committedOn (h : History V) (table row : ℕ) : List ((ℕ × ℕ) × (σ → σ)) :=
  (h.committed.filter fun c => onRow table row c.changes ≠ []).reverse.map fun c =>
    ((c.transactionId, c.commitId), view.effect table row c.changes)

/-- What the running transaction that writes to a row, if any, did to it. -/
def pendingOn (h : History V) (table row : ℕ) (writer : Option ℕ) : List ((ℕ × ℕ) × (σ → σ)) :=
  writer.toList.map fun owner => ((owner, owner), view.effect table row (h.pending owner))

/-- The history of a row, newest first. -/
def rowHistory (h : History V) (table row : ℕ) (writer : Option ℕ) : List ((ℕ × ℕ) × (σ → σ)) :=
  view.pendingOn h table row writer ++ view.committedOn h table row

end RowView

/-! ### Changes of one row -/

variable {row table : ℕ} {c : Change V} {changes : List (Change V)}

theorem onRow_concat_of_ne (h : ¬(c.table = table ∧ c.row = row)) :
    onRow table row (changes ++ [c]) = onRow table row changes := by
  simp [onRow, h]

theorem onRow_concat_self :
    onRow c.table c.row (changes ++ [c]) = onRow c.table c.row changes ++ [c] := by
  simp [onRow]

namespace RowView

variable (view : RowView V σ) {changes : List (Change V)}

theorem effect_concat_self {c : Change V} : view.effect c.table c.row (changes ++ [c]) =
      view.act c.write ∘ view.effect c.table c.row changes := by
  funext state
  rw [effect, onRow_concat_self, foldl_concat]
  rfl

theorem effect_of_onRow_eq_nil (h : onRow table row changes = []) :
    view.effect table row changes = id := by
  funext state
  rw [effect, h]
  rfl

end RowView

/-! ### The invariant -/

/-- The records of a row fit its history. `writer` is the running transaction that has changed the
row, if any. -/
structure RowHistory (view : RowView V σ) (s : Store V) (h : History V) (table row : ℕ)
    (versioned : VersionedRow V) (writer : Option ℕ) : Prop where
  pending : ∀ owner, onRow table row (h.pending owner) ≠ [] ↔ writer = some owner
  running : ∀ owner, writer = some owner → Runs s.active owner
  explains : Explains (view.see none) (view.see versioned.current)
    (versioned.records.map view.entry) (view.rowHistory h table row writer)
  lost : ∀ c ∈ (view.rowHistory h table row writer).drop versioned.records.length,
    c.1.2 < transactionIdStart ∧ c.1.2 < s.clock ∧ ∀ a ∈ s.active, c.1.2 < a.startTime

/-- What all reachable stores and their histories have in common. -/
structure History.Invariant (view : RowView V σ) (s : Store V) (h : History V) : Prop where
  store : s.Invariant
  ids : ∀ c ∈ h.committed, c.transactionId < s.nextId ∧ ¬Runs s.active c.transactionId
  commitIds : ∀ c ∈ h.committed, c.commitId < s.clock
  sorted : h.committed.Pairwise fun older newer => older.commitId < newer.commitId
  rows : ∀ table row versioned, (s.rows table)[row]? = some versioned →
    ∃ writer, RowHistory view s h table row versioned writer
  unused : ∀ table row, (s.rows table).length ≤ row →
    (∀ owner, onRow table row (h.pending owner) = []) ∧
      ∀ c ∈ h.committed, onRow table row c.changes = []

/-- `P` holds for the row that a transaction changes, unless it has changed the row before. -/
def FirstWrite (P : Store V → ℕ → VersionedRow V → Prop) (s : Store V) : Event V → Prop
  | .write owner change => change.write.isInsert = false →
    ∀ versioned, (s.rows change.table)[change.row]? = some versioned →
      versioned.ownedBy owner ∨ P s owner versioned
  | _ => True

/-- The records are right as far as the view can tell. -/
def SavedRight (view : RowView V σ) : Store V → Event V → Prop :=
  FirstWrite fun _ _ versioned =>
    view.see (some versioned.state.columns) = view.see versioned.current

namespace FirstWrite

variable {P : Store V → ℕ → VersionedRow V → Prop} {s : Store V} {owner : ℕ}

theorem writeRow (hP : ∀ versioned c, P s owner versioned → P (s.writeRow owner c) owner versioned)
    (c : Change V) {c' : Change V} (h : FirstWrite P s (.write owner c')) :
    FirstWrite P (s.writeRow owner c) (.write owner c') := by
  intro hw versioned hrow
  by_cases htable : c'.table = c.table
  · cases hins : c.write.isInsert with
    | false =>
      rw [Store.writeRow_of_not_insert s owner hins] at hrow
      simp only [htable, update_self, getElem?_modify] at hrow
      obtain ⟨old, hold, rfl⟩ := Option.map_eq_some_iff.1 hrow
      split_ifs
      · exact .inl (ownedBy_write ..)
      · exact (h hw old (by rw [htable]; exact hold)).imp_right (hP old c)
    | true =>
      obtain ⟨table, row, w⟩ := c
      obtain ⟨tuple, rfl⟩ : ∃ tuple, w = .insert tuple := by
        cases w <;> simp [RowWrite.isInsert] at hins ⊢
      simp only at htable
      simp only [Store.writeRow, htable, update_self] at hrow
      rw [getElem?_append] at hrow
      split_ifs at hrow with hlt
      · exact (h hw versioned (by rw [htable]; exact hrow)).imp_right (hP versioned _)
      · obtain rfl := mem_singleton.1 (mem_of_getElem? hrow)
        exact .inl (by simp [ownedBy, inserted])
  · have hsame : (s.writeRow owner c).rows c'.table = s.rows c'.table :=
      update_of_ne htable ..
    rw [hsame] at hrow
    exact (h hw versioned hrow).imp_right (hP versioned c)

/-- It is enough to check all writes of an operation in the state before it. -/
theorem meets (hP : ∀ s versioned c, P s owner versioned → P (s.writeRow owner c) owner versioned)
    {changes : List (Change V)} (h : ∀ c ∈ changes, FirstWrite P s (.write owner c)) :
    Meets apply (FirstWrite P) s (changes.map (.write owner)) := by
  induction changes generalizing s with
  | nil => trivial
  | cons c changes ih =>
    refine ⟨h c mem_cons_self, ih fun c' hc' => ?_⟩
    exact (h c' (mem_cons_of_mem _ hc')).writeRow (hP s) c

end FirstWrite

/-! ### The writer of a row -/

namespace RowView

variable {h : History V} {row table : ℕ} {view : RowView V σ}

theorem mem_committedOn {c : (ℕ × ℕ) × (σ → σ)} (hc : c ∈ view.committedOn h table row) :
    ∃ t ∈ h.committed, onRow table row t.changes ≠ [] ∧
      c = ((t.transactionId, t.commitId), view.effect table row t.changes) := by
  obtain ⟨t, ht, rfl⟩ := mem_map.1 hc
  obtain ⟨ht, hrow⟩ := mem_filter.1 (mem_reverse.1 ht)
  exact ⟨t, ht, by simpa using hrow, rfl⟩

theorem mem_committedOn_of_mem (view : RowView V σ) {t : CommittedTransaction V}
    (ht : t ∈ h.committed) (hrow : onRow table row t.changes ≠ []) :
    ((t.transactionId, t.commitId), view.effect table row t.changes) ∈
      view.committedOn h table row :=
  mem_map.2 ⟨t, mem_reverse.2 (mem_filter.2 ⟨ht, by simpa using hrow⟩), rfl⟩

@[simp] theorem pendingOn_none (h : History V) : view.pendingOn h table row none = [] := rfl

@[simp] theorem pendingOn_some (h : History V) {owner : ℕ} :
    view.pendingOn h table row (some owner) =
      [((owner, owner), view.effect table row (h.pending owner))] := rfl

end RowView

namespace RowHistory

variable {view : RowView V σ} {s : Store V} {h : History V} {table row : ℕ}
  {versioned : VersionedRow V} {writer : Option ℕ}

section

variable (hrow : RowHistory view s h table row versioned writer)

include hrow

variable {owner : ℕ}

theorem head_tag {r : Record V} {older : List (Record V)} (hrec : versioned.records = r :: older) :
    ∃ change rest, view.rowHistory h table row writer = ((r.owner, r.number), change) :: rest := by
  have hexp := hrow.explains
  rw [hrec, map_cons] at hexp
  cases hhist : view.rowHistory h table row writer with
  | nil => rw [hhist] at hexp; exact hexp.elim
  | cons c rest =>
    rw [hhist] at hexp
    exact ⟨c.2, rest, by rw [show (r.owner, r.number) = c.1 from hexp.1]⟩

theorem ownedBy_of_writer (hs : s.Invariant) (hwriter : writer = some owner) :
    versioned.ownedBy owner := by
  subst hwriter
  cases hrec : versioned.records with
  | nil =>
    -- the change of a running transaction is not lost
    obtain ⟨a, ha, rfl⟩ := hrow.running owner rfl
    have hlost := hrow.lost ((a.transactionId, a.transactionId), _)
      (by rw [hrec]; exact mem_cons_self)
    exact absurd hlost.1 (not_lt.2 (hs.active_ge a ha))
  | cons r older =>
    obtain ⟨change, rest, hhist⟩ := hrow.head_tag hrec
    have htag := congrArg (fun c => c.1.1) (List.cons.inj hhist).1
    simp only at htag
    simp [ownedBy, hrec, ← htag]

theorem ownedBy_iff (hinv : h.Invariant view s) (hruns : Runs s.active owner) :
    versioned.ownedBy owner ↔ writer = some owner := by
  refine ⟨fun howned => ?_, hrow.ownedBy_of_writer hinv.store⟩
  obtain ⟨r, older, hrec, hr⟩ := exists_cons_of_ownedBy howned
  obtain ⟨change, rest, hhist⟩ := hrow.head_tag hrec
  cases writer with
  | some o =>
    have htag := congrArg (fun c => c.1.1) (List.cons.inj hhist).1
    simp only at htag
    rw [htag, hr]
  | none =>
    -- a committed transaction is not running
    have hmem : ((r.owner, r.number), change) ∈ view.committedOn h table row := by
      rw [show view.committedOn h table row = _ from hhist]
      exact mem_cons_self
    obtain ⟨t, ht, -, heq⟩ := RowView.mem_committedOn hmem
    have hid : r.owner = t.transactionId := congrArg (fun c => c.1.1) heq
    exact absurd (hid ▸ hr ▸ hruns) (hinv.ids t ht).2

/-- A row that a transaction may change is not being changed by another one. -/
theorem writer_eq_none (hinv : h.Invariant view s) (hmem : versioned ∈ s.rows table)
    (hconf : versioned.conflicts owner = false) (howned : versioned.ownedBy owner = false) :
    writer = none := by
  cases hw : writer with
  | none => rfl
  | some o =>
    obtain ⟨r, older, hrec, hr⟩ := exists_cons_of_ownedBy (hrow.ownedBy_of_writer hinv.store hw)
    have hall := (hinv.store.rows table _ hmem).committed_of_not_conflicts
      hinv.store.active_ge hconf howned
    exact absurd hr (RowInvariant.owner_ne (hinv.store.recent_ne (hrow.running o hw))
      (hall r (hrec ▸ mem_cons_self)))

/-- Only changes of committed transactions have lost their record. -/
theorem mem_committedOn_of_lost (hs : s.Invariant) {c : (ℕ × ℕ) × (σ → σ)}
    (hc : c ∈ (view.rowHistory h table row writer).drop versioned.records.length) :
    c ∈ view.committedOn h table row := by
  rcases mem_append.1 (mem_of_mem_drop hc) with hmem | hmem
  · obtain ⟨o, ho, rfl⟩ := mem_map.1 hmem
    obtain ⟨a, ha, rfl⟩ := hrow.running o (Option.mem_toList.1 ho)
    exact absurd (hrow.lost _ hc).1 (not_lt.2 (hs.active_ge a ha))
  · exact hmem

theorem of_eq {s' : Store V} {h' : History V}
    (hpending : ∀ owner, onRow table row (h'.pending owner) = onRow table row (h.pending owner))
    (hcommitted : h'.committed = h.committed)
    (hruns : ∀ owner, writer = some owner → Runs s'.active owner) (hclock : s.clock ≤ s'.clock)
    (hstart : ∀ a ∈ s'.active, a ∈ s.active ∨ s.clock ≤ a.startTime) :
    RowHistory view s' h' table row versioned writer := by
  have heffect : ∀ owner, view.effect table row (h'.pending owner) =
      view.effect table row (h.pending owner) := by
    intro owner
    funext state
    rw [RowView.effect, hpending, RowView.effect]
  have hhist : view.rowHistory h' table row writer = view.rowHistory h table row writer := by
    simp only [RowView.rowHistory, RowView.pendingOn, RowView.committedOn, hcommitted, heffect]
  refine ⟨fun owner => by rw [hpending, hrow.pending], hruns, hhist ▸ hrow.explains,
    fun c hc => ?_⟩
  obtain ⟨h₁, h₂, h₃⟩ := hrow.lost c (hhist ▸ hc)
  refine ⟨h₁, h₂.trans_le hclock, fun a ha => ?_⟩
  rcases hstart a ha with ha | ha
  · exact h₃ a ha
  · exact h₂.trans_le ha

end

end RowHistory

/-! ### Starting and writing -/

namespace History.Invariant

variable {view : RowView V σ} {s : Store V} {h : History V} {owner : ℕ} {c : Change V}
  {writer : Option ℕ} {versioned : VersionedRow V}

theorem start (hinv : h.Invariant view s) (hok : s.clock < transactionIdStart) :
    h.Invariant view s.start where
  store := hinv.store.start hok
  ids c hc := by
    obtain ⟨hlt, hruns⟩ := hinv.ids c hc
    refine ⟨hlt.trans (Nat.lt_succ_self _), ?_⟩
    rintro ⟨a, ha, hid⟩
    rcases mem_append.1 ha with ha | ha
    · exact hruns ⟨a, ha, hid⟩
    · obtain rfl := mem_singleton.1 ha
      exact absurd hid hlt.ne'
  commitIds c hc := (hinv.commitIds c hc).trans (Nat.lt_succ_self _)
  sorted := hinv.sorted
  rows table row versioned hrow := by
    obtain ⟨writer, hist⟩ := hinv.rows table row versioned hrow
    refine ⟨writer, hist.of_eq (fun _ => rfl) rfl (fun owner hw => ?_) (Nat.le_succ _) fun a ha => ?_⟩
    · obtain ⟨a, ha, hid⟩ := hist.running owner hw
      exact ⟨a, mem_append_left _ ha, hid⟩
    · rcases mem_append.1 ha with ha | ha
      · exact .inl ha
      · obtain rfl := mem_singleton.1 ha
        exact .inr le_rfl
  unused := hinv.unused

variable {table row : ℕ}

theorem write_other {s' : Store V} (hinv : h.Invariant view s)
    (hne : ¬(c.table = table ∧ c.row = row)) (hrow : (s.rows table)[row]? = some versioned)
    (hclock : s'.clock = s.clock) (hactive : s'.active = s.active) :
    ∃ writer, RowHistory view s' (h.record (.write owner c)) table row versioned writer := by
  obtain ⟨writer, hist⟩ := hinv.rows table row versioned hrow
  refine ⟨writer, hist.of_eq (fun o => ?_) rfl (hactive ▸ hist.running) hclock.ge
    fun a ha => .inl (hactive ▸ ha)⟩
  simp only [record]
  by_cases ho : o = owner
  · subst ho
    rw [update_self, onRow_concat_of_ne hne]
  · rw [update_of_ne ho]

/-- What is left to check for a write is the row it is made to. -/
theorem of_write (hinv : h.Invariant view s) (hruns : Runs s.active owner)
    (hok : s.Writable owner c)
    (hother : ∀ table row versioned, ¬(c.table = table ∧ c.row = row) →
      ((s.writeRow owner c).rows table)[row]? = some versioned →
        (s.rows table)[row]? = some versioned)
    (hself : ∀ versioned, ((s.writeRow owner c).rows c.table)[c.row]? = some versioned →
      ∃ writer, RowHistory view (s.writeRow owner c) (h.record (.write owner c)) c.table c.row
        versioned writer) : (h.record (.write owner c)).Invariant view (s.writeRow owner c) where
  store := hinv.store.writeRow hruns hok
  ids := hinv.ids
  commitIds := hinv.commitIds
  sorted := hinv.sorted
  rows table row versioned hrow := by
    by_cases heq : c.table = table ∧ c.row = row
    · obtain ⟨rfl, rfl⟩ := heq
      exact hself versioned hrow
    · exact hinv.write_other heq (hother table row versioned heq hrow) rfl rfl
  unused table row hle := by
    have hne : ¬(c.table = table ∧ c.row = row) := by
      rintro ⟨rfl, rfl⟩
      exact absurd (row_lt_writeRow hok) (not_lt.2 hle)
    obtain ⟨h₁, h₂⟩ :=
      hinv.unused table row ((length_le_writeRow s owner c table).trans hle)
    refine ⟨fun o => ?_, h₂⟩
    simp only [record]
    by_cases ho : o = owner
    · subst ho
      rw [update_self, onRow_concat_of_ne hne, h₁]
    · rw [update_of_ne ho, h₁]

theorem rowHistory_write (view : RowView V σ) (h : History V) (owner : ℕ) (c : Change V) :
    view.rowHistory (h.record (.write owner c)) c.table c.row (some owner) =
      ((owner, owner), view.act c.write ∘ view.effect c.table c.row (h.pending owner)) ::
        view.committedOn h c.table c.row := by
  simp only [RowView.rowHistory, RowView.pendingOn_some, record, update_self,
    RowView.effect_concat_self]
  rfl

theorem pending_write (hothers : ∀ o, onRow c.table c.row (h.pending o) ≠ [] → o = owner) (o : ℕ) :
    onRow c.table c.row ((h.record (.write owner c)).pending o) ≠ [] ↔ some owner = some o := by
  simp only [record]
  by_cases ho : o = owner
  · subst ho
    simp [update_self, onRow_concat_self]
  · rw [update_of_ne ho]
    exact ⟨fun hne => absurd (hothers o hne) ho, fun heq => absurd (Option.some.inj heq).symm ho⟩

theorem getElem?_writeRow (hw : c.write.isInsert = false)
    (hrow : (s.rows c.table)[c.row]? = some versioned) :
    ((s.writeRow owner c).rows c.table)[c.row]? = some (versioned.write owner c.write) := by
  rw [writeRow_of_not_insert s owner hw]
  simp [hrow]

section

variable (hinv : h.Invariant view s)

include hinv

section

variable (hruns : Runs s.active owner)

include hruns

theorem write_self (hw : c.write.isInsert = false)
    (hrow : (s.rows c.table)[c.row]? = some versioned) (hconf : versioned.conflicts owner = false)
    (hsaved : versioned.ownedBy owner ∨
      view.see (some versioned.state.columns) = view.see versioned.current)
    (hist : RowHistory view s h c.table c.row versioned writer) :
    RowHistory view (s.writeRow owner c) (h.record (.write owner c)) c.table c.row
      (versioned.write owner c.write) (some owner) := by
  have hcur : view.see (versioned.write owner c.write).current =
      view.act c.write (view.see versioned.current) := by
    rw [current_write hw, view.see_apply]
  have hexp := hist.explains
  have hlost := hist.lost
  by_cases howned : versioned.ownedBy owner
  · -- the transaction goes on with its change
    obtain rfl := (hist.ownedBy_iff hinv hruns).1 howned
    obtain ⟨r, older, hrec, -⟩ := exists_cons_of_ownedBy howned
    have hrecords : (versioned.write owner c.write).records = versioned.records := by
      rw [VersionedRow.write, save_of_ownedBy howned]
    refine ⟨pending_write fun o ho => (Option.some.inj ((hist.pending o).1 ho)).symm, ?_, ?_, ?_⟩
    · rintro o ⟨⟩
      exact hruns
    · rw [rowHistory_write, hcur, hrecords, hrec, map_cons]
      rw [hrec, map_cons] at hexp
      have htag : (view.entry r).1 = (owner, owner) := hexp.1
      rw [show view.entry r = ((owner, owner), (view.entry r).2) from Prod.ext htag rfl] at hexp ⊢
      exact hexp.extend
    · rw [rowHistory_write, hrecords, hrec]
      rw [hrec] at hlost
      exact hlost
  · -- the transaction changes the row for the first time
    obtain rfl := hist.writer_eq_none hinv (mem_of_getElem? hrow) hconf (by simpa using howned)
    have hnone : ∀ o, onRow c.table c.row (h.pending o) = [] := by
      intro o
      by_contra hne
      exact absurd ((hist.pending o).1 hne) (by simp)
    have hrecords : (versioned.write owner c.write).records =
        ⟨owner, owner, ⟨versioned.state.columns, false⟩⟩ :: versioned.records := by
      simp [VersionedRow.write, save, howned]
    have hentry : view.entry (⟨owner, owner, ⟨versioned.state.columns, false⟩⟩ : Record V) =
        ((owner, owner), view.see versioned.current) := by
      rw [RowView.entry, ← hsaved.resolve_left howned]
      rfl
    refine ⟨pending_write fun o ho => absurd (hnone o) ho, ?_, ?_, ?_⟩
    · rintro o ⟨⟩
      exact hruns
    · rw [rowHistory_write, hcur, hrecords, map_cons, hentry,
        view.effect_of_onRow_eq_nil (hnone owner), comp_id]
      exact hexp.push
    · rw [rowHistory_write, hrecords]
      exact hlost

theorem write_existing (hok : s.Writable owner c) (hw : c.write.isInsert = false)
    (hsaved : SavedRight view s (.write owner c)) :
    (h.record (.write owner c)).Invariant view (s.writeRow owner c) := by
  obtain ⟨versioned, hrow, hconf⟩ := (writable_iff_of_not_insert hw).1 hok
  have hrows : ∀ table, (s.writeRow owner c).rows table = if table = c.table then
      (s.rows c.table).modify c.row (·.write owner c.write) else s.rows table := by
    intro table
    rw [writeRow_of_not_insert s owner hw]
    exact update_apply ..
  refine hinv.of_write hruns hok ?_ fun versioned' hrow' => ?_
  · intro table row versioned' hne hrow'
    rw [hrows] at hrow'
    split_ifs at hrow' with heq
    · subst heq
      have hne' : c.row ≠ row := fun hcr => hne ⟨rfl, hcr⟩
      simpa [getElem?_modify, hne'] using hrow'
    · exact hrow'
  · obtain rfl := Option.some.inj ((getElem?_writeRow hw hrow).symm.trans hrow')
    obtain ⟨writer, hist⟩ := hinv.rows _ _ _ hrow
    exact ⟨_, hinv.write_self hruns hw hrow hconf (hsaved hw versioned hrow) hist⟩

theorem write_new {tuple : List V} (hok : row = (s.rows table).length) :
    (h.record (.write owner ⟨table, row, .insert tuple⟩)).Invariant view
      (s.writeRow owner ⟨table, row, .insert tuple⟩) := by
  have hrows : ∀ table', (s.writeRow owner ⟨table, row, .insert tuple⟩).rows table' =
      if table' = table then s.rows table ++ [.inserted owner tuple] else s.rows table' :=
    fun table' => update_apply ..
  obtain ⟨hpending, hcommitted⟩ := hinv.unused table row hok.ge
  refine hinv.of_write hruns hok ?_ fun versioned hrow => ?_
  · intro table' row' versioned hne hrow
    rw [hrows] at hrow
    split_ifs at hrow with heq
    · subst heq
      have hlt : row' < (s.rows table').length := by
        have hle := (List.getElem?_eq_some_iff.1 hrow).1
        have hne' : row ≠ row' := fun hr => hne ⟨rfl, hr⟩
        simp only [length_append, length_singleton] at hle
        omega
      rwa [getElem?_append_left hlt] at hrow
    · exact hrow
  · have hversioned : versioned = .inserted owner tuple := by
      rw [hrows, if_pos rfl] at hrow
      simpa [hok] using hrow.symm
    subst hversioned
    have hcommittedOn : view.committedOn h table row = [] := by
      rw [RowView.committedOn, filter_eq_nil_iff.2 fun c hc => by simp [hcommitted c hc]]
      rfl
    have hhist : view.rowHistory (h.record (.write owner ⟨table, row, .insert tuple⟩)) table row
        (some owner) = [((owner, owner), view.act (.insert tuple))] := by
      have hwrite := rowHistory_write view h owner ⟨table, row, .insert tuple⟩
      simp only at hwrite
      rw [hwrite, hcommittedOn, view.effect_of_onRow_eq_nil (hpending owner), comp_id]
    refine ⟨some owner, pending_write fun o ho => absurd (hpending o) ho, ?_, ?_, ?_⟩
    · rintro o ⟨⟩
      exact hruns
    · rw [hhist]
      exact ⟨rfl, view.see_apply (.insert tuple) none, rfl⟩
    · rw [hhist]
      simp [inserted]

theorem write (hok : s.Writable owner c) (hsaved : SavedRight view s (.write owner c)) :
    (h.record (.write owner c)).Invariant view (s.writeRow owner c) := by
  obtain ⟨table, row, w⟩ := c
  cases w with
  | insert tuple => exact hinv.write_new hruns hok
  | _ => exact hinv.write_existing hruns hok rfl hsaved

end

/-! ### Cleaning up -/

theorem cleanOldest {oldest : Finished} {rest : List Finished} (hrec : s.recent = oldest :: rest)
    (hlow : oldest.commitId < lowestStartTime s.active) : h.Invariant view s.cleanOldest := by
  have hstore := hinv.store.cleanOldest hrec
  have hmem : oldest ∈ s.recent := hrec ▸ mem_cons_self
  obtain ⟨hlow₁, hlow₂⟩ := le_lowestStartTime_iff.1 (le_refl (lowestStartTime s.active))
  rw [cleanOldest_of_recent hrec] at hstore ⊢
  refine ⟨hstore, hinv.ids, hinv.commitIds, hinv.sorted, fun table row versioned hrow => ?_,
    fun table row hle => hinv.unused table row (by simpa [mapRows] using hle)⟩
  simp only [mapRows, getElem?_map, Option.map_eq_some_iff] at hrow
  obtain ⟨old, hold, rfl⟩ := hrow
  obtain ⟨writer, hist⟩ := hinv.rows table row old hold
  obtain ⟨bottom, hbottom, hnumber⟩ := hinv.store.records_eq_append hrec (mem_of_getElem? hold)
  have hexp := hist.explains
  rw [hbottom, map_append] at hexp
  refine ⟨writer, hist.pending, hist.running, hexp.of_append, fun c hc => ?_⟩
  rw [← length_map view.entry] at hc
  rcases hexp.mem_drop_of_append hc with hc | ⟨e, he, htag⟩
  · -- the change was lost before
    rw [← map_append, ← hbottom, length_map] at hc
    exact hist.lost c hc
  · obtain ⟨r, hr, rfl⟩ := mem_map.1 he
    have hc : c.1.2 = oldest.commitId := by
      rw [← htag]
      exact hnumber r hr
    rw [hc]
    exact ⟨hlow.trans_le hlow₁, hinv.store.recent_commit oldest hmem,
      fun a ha => hlow.trans_le (hlow₂ a ha)⟩

theorem clean : h.Invariant view s.clean := by
  refine clean_induction (P := fun t => h.Invariant view t) hinv ?_
  intro t oldest rest ht hrec hactive hlow
  exact ht.cleanOldest hrec (hactive ▸ hlow)

end

/-! ### The end of a transaction -/

/-- A transaction that has ended writes to no row. -/
theorem pending_retire (owner : ℕ)
    (hpending : ∀ o, onRow table row (h.pending o) ≠ [] ↔ writer = some o) (o : ℕ) :
    onRow table row (update h.pending owner [] o) ≠ [] ↔ writer.filter (· ≠ owner) = some o := by
  by_cases ho : o = owner
  · subst ho
    simp [onRow, Option.filter_eq_some_iff]
  · rw [update_of_ne ho, hpending]
    simp [Option.filter_eq_some_iff, ho]

theorem unused_retire (hpending : ∀ o, onRow table row (h.pending o) = []) (o : ℕ) :
    onRow table row (update h.pending owner [] o) = [] := by
  by_cases ho : o = owner
  · subst ho
    simp [onRow]
  · rw [update_of_ne ho, hpending]

/-! ### Commit -/

/-- A commit gives the changes of its transaction a new number. -/
def commitTag (owner commitId : ℕ) (tag : ℕ × ℕ) : ℕ × ℕ :=
  if tag.1 = owner then (tag.1, commitId) else tag

theorem entry_commit (owner commitId : ℕ) (r : Record V) :
    view.entry (if r.owner = owner then { r with number := commitId } else r) =
      Prod.map (commitTag owner commitId) id (view.entry r) := by
  by_cases howner : r.owner = owner <;> simp [RowView.entry, commitTag, howner]

theorem committedOn_retag (hids : ∀ c ∈ h.committed, c.transactionId ≠ owner) {commitId : ℕ} :
    (view.committedOn h table row).map (Prod.map (commitTag owner commitId) id) =
      view.committedOn h table row := by
  refine (map_congr_left fun c hc => ?_).trans (map_id _)
  obtain ⟨t, ht, -, rfl⟩ := RowView.mem_committedOn hc
  simp [commitTag, hids t ht]

theorem rowHistory_commit (view : RowView V σ) (startTime commitId : ℕ)
    (hpending : ∀ o, onRow table row (h.pending o) ≠ [] ↔ writer = some o)
    (hids : ∀ c ∈ h.committed, c.transactionId ≠ owner) :
    view.rowHistory (h.record (.commit owner startTime commitId)) table row
        (writer.filter (· ≠ owner)) =
      (view.rowHistory h table row writer).map (Prod.map (commitTag owner commitId) id) := by
  have hcommitted : view.committedOn (h.record (.commit owner startTime commitId)) table row =
      (if onRow table row (h.pending owner) ≠ [] then
        [((owner, commitId), view.effect table row (h.pending owner))] else []) ++
        view.committedOn h table row := by
    simp only [RowView.committedOn, record, filter_append, reverse_append, map_append]
    congr 1
    by_cases hne : onRow table row (h.pending owner) = [] <;> simp [hne]
  rw [RowView.rowHistory, RowView.rowHistory, map_append, committedOn_retag hids, hcommitted]
  cases writer with
  | none =>
    have hnil : onRow table row (h.pending owner) = [] := by
      by_contra hne
      exact absurd ((hpending owner).1 hne) (by simp)
    simp [hnil]
  | some o =>
    by_cases ho : o = owner
    · subst ho
      simp [(hpending o).2 rfl, Option.filter, commitTag]
    · have hnil : onRow table row (h.pending owner) = [] := by
        by_contra hne
        exact ho (Option.some.inj ((hpending owner).1 hne))
      simp [hnil, Option.filter, ho, commitTag, record]

theorem commitRows {startTime : ℕ} (hinv : h.Invariant view s) (hruns : Runs s.active owner) :
    (h.record (.commit owner startTime s.clock)).Invariant view (s.commitRows owner s.clock) := by
  have hids : ∀ c ∈ h.committed, c.transactionId ≠ owner := fun c hc heq =>
    (hinv.ids c hc).2 (heq ▸ hruns)
  refine ⟨hinv.store.commitRows hruns, fun c hc => ?_, fun c hc => ?_, ?_,
    fun table row versioned hrow => ?_, fun table row hle => ?_⟩
  · rcases mem_append.1 hc with hc | hc
    · exact ⟨(hinv.ids c hc).1, fun hr => (hinv.ids c hc).2 ((runs_retire _ _ _).1 hr).1⟩
    · obtain rfl := mem_singleton.1 hc
      obtain ⟨a, ha, rfl⟩ := hruns
      exact ⟨(hinv.store.active_id a ha).2, fun hr => ((runs_retire _ _ _).1 hr).2 rfl⟩
  · rcases mem_append.1 hc with hc | hc
    · exact (hinv.commitIds c hc).trans (Nat.lt_succ_self _)
    · obtain rfl := mem_singleton.1 hc
      exact Nat.lt_succ_self _
  · refine pairwise_append.2 ⟨hinv.sorted, pairwise_singleton _ _, fun c hc d hd => ?_⟩
    obtain rfl := mem_singleton.1 hd
    exact hinv.commitIds c hc
  · simp only [Store.commitRows, Store.retire, Store.mapRows, getElem?_map,
      Option.map_eq_some_iff] at hrow
    obtain ⟨old, hold, rfl⟩ := hrow
    obtain ⟨writer, hist⟩ := hinv.rows table row old hold
    have hhist := rowHistory_commit view startTime s.clock hist.pending hids
    have hrecords : (old.commit owner s.clock).records.map view.entry =
        (old.records.map view.entry).map (Prod.map (commitTag owner s.clock) id) := by
      simp only [VersionedRow.commit, map_map]
      exact map_congr_left fun r _ => entry_commit owner s.clock r
    refine ⟨writer.filter (· ≠ owner), pending_retire owner hist.pending, fun o ho => ?_, ?_,
      fun c hc => ?_⟩
    · obtain ⟨hw, hne⟩ := Option.filter_eq_some_iff.1 ho
      exact (runs_retire _ _ o).2 ⟨hist.running o hw, by simpa using hne⟩
    · rw [hhist, hrecords]
      exact hist.explains.retag
    · rw [hhist, ← map_drop] at hc
      obtain ⟨d, hd, rfl⟩ := mem_map.1 hc
      have hlen : (old.commit owner s.clock).records.length = old.records.length := by
        simp [VersionedRow.commit]
      rw [hlen] at hd
      obtain ⟨h₁, h₂, h₃⟩ := hist.lost d hd
      have htag : commitTag owner s.clock d.1 = d.1 := by
        obtain ⟨t, ht, -, rfl⟩ :=
          RowView.mem_committedOn (hist.mem_committedOn_of_lost hinv.store hd)
        simp [commitTag, hids t ht]
      rw [Prod.map_fst, htag]
      exact ⟨h₁, h₂.trans (Nat.lt_succ_self _), fun a ha => h₃ a (mem_filter.1 ha).1⟩
  · obtain ⟨h₁, h₂⟩ := hinv.unused table row (by simpa [Store.commitRows, Store.retire,
      Store.mapRows] using hle)
    refine ⟨unused_retire h₁, fun c hc => ?_⟩
    rcases mem_append.1 hc with hc | hc
    · exact h₂ c hc
    · obtain rfl := mem_singleton.1 hc
      exact h₁ owner

/-! ### Rollback -/

theorem rollbackRows (hinv : h.Invariant view s) (hruns : Runs s.active owner) :
    (h.record (.rollback owner)).Invariant view (s.rollbackRows owner) := by
  refine ⟨hinv.store.rollbackRows, fun c hc => ?_, hinv.commitIds, hinv.sorted,
    fun table row versioned hrow => ?_, fun table row hle => ?_⟩
  · refine ⟨(hinv.ids c hc).1, ?_⟩
    rintro ⟨a, ha, hid⟩
    exact (hinv.ids c hc).2 ⟨a, (mem_filter.1 ha).1, hid⟩
  · simp only [Store.rollbackRows, Store.retire, Store.mapRows, getElem?_map,
      Option.map_eq_some_iff] at hrow
    obtain ⟨old, hold, rfl⟩ := hrow
    obtain ⟨writer, hist⟩ := hinv.rows table row old hold
    have howned := hist.ownedBy_iff hinv hruns
    refine ⟨writer.filter (· ≠ owner), ?_⟩
    by_cases hw : writer = some owner
    · -- the row goes back to its newest committed state
      obtain ⟨r, older, hrec, hr⟩ := exists_cons_of_ownedBy (howned.2 hw)
      have hrollback := rollback_of_cons hrec hr
      have hexp := hist.explains
      have hlost := hist.lost
      have hpending := pending_retire owner hist.pending
      subst hw
      rw [hrec] at hexp hlost
      have hnone : (some owner).filter (· ≠ owner) = none := by simp [Option.filter]
      rw [hnone] at hpending ⊢
      refine ⟨hpending, fun o ho => absurd ho (by simp), ?_, fun c hc => ?_⟩
      · rw [hrollback]
        exact hexp.pop
      · rw [hrollback] at hc
        obtain ⟨h₁, h₂, h₃⟩ := hlost c hc
        exact ⟨h₁, h₂, fun a ha => h₃ a (mem_filter.1 ha).1⟩
    · have hrollback := rollback_of_not_ownedBy (Bool.eq_false_iff.2 fun h => hw (howned.1 h))
      have hwriter : writer.filter (· ≠ owner) = writer := by
        cases writer with
        | none => rfl
        | some o =>
          have ho : o ≠ owner := fun heq => hw (congrArg some heq)
          simp [Option.filter, ho]
      rw [hrollback, hwriter]
      refine hist.of_eq (fun o => ?_) rfl (fun o ho => ?_) le_rfl
        fun a ha => .inl (mem_filter.1 ha).1
      · simp only [record]
        by_cases ho : o = owner
        · subst ho
          rw [update_self]
          by_contra hne
          exact hw ((hist.pending o).1 fun hnil => hne (by rw [hnil]; rfl))
        · rw [update_of_ne ho]
      · exact (runs_retire _ _ o).2 ⟨hist.running o ho, fun heq => hw (heq ▸ ho)⟩
  · obtain ⟨h₁, h₂⟩ := hinv.unused table row (by simpa [Store.rollbackRows, Store.retire,
      Store.mapRows] using hle)
    exact ⟨unused_retire h₁, h₂⟩

/-- **Every allowed event keeps the invariant.** -/
theorem apply {e : Event V} (hinv : h.Invariant view s) (hok : s.Allowed e)
    (hsaved : SavedRight view s e) : (h.record e).Invariant view (s.apply e) := by
  cases e with
  | start => exact hinv.start hok
  | write owner c => exact hinv.write hok.1 hok.2 hsaved
  | commit owner startTime commitId =>
    obtain ⟨hactive, rfl⟩ := hok
    exact (hinv.commitRows ⟨_, hactive, rfl⟩).clean
  | rollback owner => exact (hinv.rollbackRows hok).clean

end History.Invariant

theorem History.Invariant.foldl {view : RowView V σ} {s : Store V} {h : History V}
    (hinv : h.Invariant view s) {events : List (Event V)}
    (hok : Meets Store.apply Store.Allowed s events)
    (hsaved : Meets Store.apply (SavedRight view) s events) :
    (events.foldl record h).Invariant view (events.foldl Store.apply s) := by
  induction events generalizing s h with
  | nil => exact hinv
  | cons e events ih => exact ih (hinv.apply hok.1 hsaved.1) hok.2 hsaved.2

theorem History.invariant_initial (view : RowView V σ) :
    ({} : History V).Invariant view ({} : Store V) where
  store := Store.invariant_initial
  ids := by simp
  commitIds := by simp
  sorted := List.Pairwise.nil
  rows := by simp
  unused := by simp [onRow]

/-! ### Transactions that change the same row -/

/-- A transaction changes only rows whose newest change was committed before it started. -/
def SeesNewest : Store V → Event V → Prop :=
  FirstWrite fun s owner versioned => ∀ r ∈ versioned.records.head?, ∀ a ∈ s.active,
    a.transactionId = owner → r.number < a.startTime

/-- Whoever changes a row started after all earlier changes of it were committed. -/
structure History.Isolated (s : Store V) (h : History V) : Prop where
  running : ∀ a ∈ s.active, ∀ table row, onRow table row (h.pending a.transactionId) ≠ [] →
    ∀ t ∈ h.committed, onRow table row t.changes ≠ [] → t.commitId < a.startTime
  committed : h.committed.Pairwise fun older newer => ∀ table row,
    onRow table row older.changes ≠ [] → onRow table row newer.changes ≠ [] →
      older.commitId < newer.startTime

namespace History.Invariant

variable {view : RowView V σ} {s : Store V} {h : History V} {owner table row : ℕ}
  {versioned : VersionedRow V} {t : CommittedTransaction V} {a : Running}

theorem committedOn_sorted (hinv : h.Invariant view s) (table row : ℕ) :
    (view.committedOn h table row).Pairwise fun newer older => older.1.2 < newer.1.2 := by
  rw [RowView.committedOn, pairwise_map, pairwise_reverse]
  exact hinv.sorted.filter _

/-- The changes of a row without writer are older than its newest record or have none. -/
theorem commitId_lt (hinv : h.Invariant view s)
    (hist : RowHistory view s h table row versioned none) (ha : a ∈ s.active)
    (hhead : ∀ r ∈ versioned.records.head?, r.number < a.startTime) (ht : t ∈ h.committed)
    (hrow : onRow table row t.changes ≠ []) : t.commitId < a.startTime := by
  have hmem := view.mem_committedOn_of_mem ht hrow
  cases hrec : versioned.records with
  | nil =>
    have hlost := hist.lost ((t.transactionId, t.commitId), _) (by rw [hrec]; exact hmem)
    exact hlost.2.2 a ha
  | cons r older =>
    obtain ⟨change, rest, hhist⟩ := hist.head_tag hrec
    have hcommitted : view.committedOn h table row = ((r.owner, r.number), change) :: rest := hhist
    have hle : t.commitId ≤ r.number := by
      have hsorted := hinv.committedOn_sorted table row
      rw [hcommitted] at hmem hsorted
      rcases mem_cons.1 hmem with heq | hmem
      · exact (congrArg (fun c => c.1.2) heq).le
      · exact ((pairwise_cons.1 hsorted).1 _ hmem).le
    exact hle.trans_lt (hhead r (by simp [hrec]))

/-- At most one running transaction changes a row. -/
theorem writer_unique (hinv : h.Invariant view s) {o o' : ℕ}
    (ho : onRow table row (h.pending o) ≠ []) (ho' : onRow table row (h.pending o') ≠ []) :
    o = o' := by
  by_cases hlt : row < (s.rows table).length
  · obtain ⟨writer, hist⟩ := hinv.rows table row _ (getElem?_eq_getElem hlt)
    exact Option.some.inj (((hist.pending o).1 ho).symm.trans ((hist.pending o').1 ho'))
  · exact absurd ((hinv.unused table row (not_lt.1 hlt)).1 o) ho

/-- The first change of a row by a transaction comes after all committed ones. -/
theorem commitId_lt_of_write (hinv : h.Invariant view s) {c : Change V} (hok : s.Writable owner c)
    (hsees : SeesNewest s (.write owner c)) (ha : a ∈ s.active) (hid : a.transactionId = owner)
    (hnil : onRow c.table c.row (h.pending owner) = []) (ht : t ∈ h.committed)
    (hrow : onRow c.table c.row t.changes ≠ []) : t.commitId < a.startTime := by
  cases hw : c.write.isInsert with
  | false =>
    obtain ⟨versioned, hversioned, hconf⟩ := (writable_iff_of_not_insert hw).1 hok
    obtain ⟨writer, hist⟩ := hinv.rows _ _ _ hversioned
    have howned : versioned.ownedBy owner = false := by
      rw [Bool.eq_false_iff]
      intro howned
      exact (hist.pending owner).2 ((hist.ownedBy_iff hinv ⟨a, ha, hid⟩).1 howned) hnil
    obtain rfl := hist.writer_eq_none hinv (mem_of_getElem? hversioned) hconf howned
    have hhead := (hsees hw versioned hversioned).resolve_left (by simp [howned])
    exact hinv.commitId_lt hist ha (fun r hr => hhead r hr a ha hid) ht hrow
  | true =>
    obtain ⟨table, row, w⟩ := c
    cases w with
    | insert tuple => exact absurd ((hinv.unused table row (Eq.ge hok)).2 t ht) hrow
    | _ => simp [RowWrite.isInsert] at hw

end History.Invariant

namespace History.Isolated

variable {view : RowView V σ} {s s' : Store V} {h : History V} {owner : ℕ}

section

variable (hiso : h.Isolated s)

include hiso

theorem write {c : Change V} (hinv : h.Invariant view s)
    (hok : s.Writable owner c) (hsees : SeesNewest s (.write owner c)) :
    (h.record (.write owner c)).Isolated (s.writeRow owner c) := by
  refine ⟨fun a ha table row hne t ht hrow => ?_, hiso.committed⟩
  by_cases hold : onRow table row (h.pending a.transactionId) = []
  · -- the first change of the row
    simp only [record] at hne
    have hid : a.transactionId = owner := by
      by_contra hid
      rw [update_of_ne hid] at hne
      exact hne hold
    rw [hid, update_self] at hne
    have heq : c.table = table ∧ c.row = row := by
      by_contra hother
      rw [onRow_concat_of_ne hother, ← hid] at hne
      exact hne hold
    obtain ⟨rfl, rfl⟩ := heq
    exact hinv.commitId_lt_of_write hok hsees ha hid (hid ▸ hold) ht hrow
  · exact hiso.running a ha table row hold t ht hrow

theorem of_retire {h' : History V} (hpending : ∀ o, o ≠ owner → h'.pending o = h.pending o)
    {a : Running} (ha : a ∈ s.active.filter (·.transactionId ≠ owner))
    (hne : onRow table row (h'.pending a.transactionId) ≠ []) {t : CommittedTransaction V}
    (ht : t ∈ h.committed) (hrow : onRow table row t.changes ≠ []) : t.commitId < a.startTime := by
  obtain ⟨ha, hid⟩ := mem_filter.1 ha
  rw [hpending _ (by simpa using hid)] at hne
  exact hiso.running a ha table row hne t ht hrow

theorem commit {startTime commitId : ℕ} (hinv : h.Invariant view s)
    (hactive : ⟨owner, startTime⟩ ∈ s.active) :
    (h.record (.commit owner startTime commitId)).Isolated (s.commitRows owner commitId) := by
  have hpending : ∀ o, o ≠ owner →
      (h.record (.commit owner startTime commitId)).pending o = h.pending o :=
    fun o ho => update_of_ne ho ..
  refine ⟨fun a ha table row hne t ht hrow => ?_, ?_⟩
  · rcases mem_append.1 ht with ht | ht
    · exact hiso.of_retire hpending ha hne ht hrow
    · -- no other transaction has changed the rows of the committing one
      obtain rfl := mem_singleton.1 ht
      have hid : a.transactionId ≠ owner := by simpa using (mem_filter.1 ha).2
      rw [hpending _ hid] at hne
      exact absurd (hinv.writer_unique hne hrow) hid
  · refine pairwise_append.2 ⟨hiso.committed, pairwise_singleton _ _, ?_⟩
    intro older holder newer hnewer table row hrow hrow'
    obtain rfl := mem_singleton.1 hnewer
    exact hiso.running _ hactive table row hrow' older holder hrow

theorem clean : h.Isolated s.clean :=
  clean_induction (P := fun t => h.Isolated t) hiso fun t oldest rest ht _ _ _ =>
    ⟨by rw [cleanOldest_active]; exact ht.running, ht.committed⟩

theorem apply {e : Event V} (hinv : h.Invariant view s) (hok : s.Allowed e)
    (hsees : SeesNewest s e) : (h.record e).Isolated (s.apply e) := by
  cases e with
  | start =>
    refine ⟨fun a ha table row hne t ht hrow => ?_, hiso.committed⟩
    rcases mem_append.1 ha with ha | ha
    · exact hiso.running a ha table row hne t ht hrow
    · obtain rfl := mem_singleton.1 ha
      exact hinv.commitIds t ht
  | write owner c => exact hiso.write hinv hok.2 hsees
  | commit owner startTime commitId => exact (hiso.commit hinv hok.1).clean
  | rollback owner =>
    refine clean ⟨fun a ha table row hne t ht hrow => ?_, hiso.committed⟩
    exact hiso.of_retire (fun o ho => update_of_ne ho ..) ha hne ht hrow

theorem foldl (hinv : h.Invariant view s) {events : List (Event V)}
    (hok : Meets Store.apply Store.Allowed s events)
    (hsaved : Meets Store.apply (SavedRight view) s events)
    (hsees : Meets Store.apply SeesNewest s events) :
    (events.foldl record h).Isolated (events.foldl Store.apply s) := by
  induction events generalizing s h with
  | nil => exact hiso
  | cons e events ih =>
    exact ih (hiso.apply hinv hok.1 hsees.1) (hinv.apply hok.1 hsaved.1) hok.2 hsaved.2 hsees.2

end

end History.Isolated

theorem History.isolated_initial : ({} : History V).Isolated ({} : Store V) :=
  ⟨by simp, List.Pairwise.nil⟩

/-! ### Reading -/

/-- A running transaction sees its own changes and those committed before it started. -/
def Running.sees (a : Running) (versionNumber : ℕ) : Bool :=
  versionNumber == a.transactionId || decide (versionNumber < a.startTime)

theorem applyTo_of_onRow_eq_nil (h : onRow table row changes = []) {state : Option (List V)} :
    applyTo table row changes state = state := by
  rw [applyTo, h]
  rfl

theorem replay_committedOn (h : History V) (table row startTime : ℕ) :
    replay none
        ((RowView.full.committedOn h table row).filter fun c => decide (c.1.2 < startTime)) =
      (h.committed.filter (·.commitId < startTime)).foldl
        (fun state c => applyTo table row c.changes state) none := by
  have hfilter : (RowView.full.committedOn h table row).filter (fun c => decide (c.1.2 < startTime)) =
      (((h.committed.filter (·.commitId < startTime)).filter
        fun c => onRow table row c.changes ≠ []).map fun c =>
          ((c.transactionId, c.commitId), RowView.full.effect table row c.changes)).reverse := by
    rw [RowView.committedOn, filter_map, filter_reverse, filter_filter, map_reverse, filter_filter]
    refine congrArg (fun l => List.reverse (List.map _ l)) (filter_congr fun c _ => ?_)
    exact Bool.and_comm _ _
  rw [hfilter, replay, foldr_reverse, foldl_map, foldl_filter]
  congr 1
  funext state c
  by_cases hrow : onRow table row c.changes = []
  · simp [hrow, applyTo_of_onRow_eq_nil hrow]
  · simp only [hrow, ne_eq, not_false_eq_true, decide_true, if_true]
    rfl

namespace RowHistory

variable {view : RowView V σ} {s : Store V} {h : History V} {table row : ℕ}
  {versioned : VersionedRow V} {writer : Option ℕ} {a : Running}

theorem filter_rowHistory (hist : RowHistory view s h table row versioned writer) (hs : s.Invariant)
    (ha : a ∈ s.active) (hcommit : ∀ t ∈ h.committed, t.commitId < transactionIdStart) :
    (view.rowHistory h table row writer).filter (fun c => a.sees c.1.2) =
      view.pendingOn h table row (writer.filter (· = a.transactionId)) ++
        (view.committedOn h table row).filter fun c => decide (c.1.2 < a.startTime) := by
  rw [RowView.rowHistory, filter_append]
  congr 1
  · cases writer with
    | none => rfl
    | some o =>
      obtain ⟨b, hb, rfl⟩ := hist.running o rfl
      have hlt : ¬b.transactionId < a.startTime := by
        have := hs.active_ge b hb
        have := (hs.active_start a ha).2
        omega
      by_cases hid : b.transactionId = a.transactionId <;>
        simp [Running.sees, hlt, hid, Option.filter]
  · refine filter_congr fun c hc => ?_
    obtain ⟨t, ht, -, rfl⟩ := RowView.mem_committedOn hc
    have hne : t.commitId ≠ a.transactionId := by
      have := hcommit t ht
      have := hs.active_ge a ha
      omega
    simp [Running.sees, hne]

/-- With a change, a running transaction sees all older changes of the row. -/
theorem visible_closed (hist : RowHistory view s h table row versioned writer)
    (hinv : h.Invariant view s) (hiso : h.Isolated s) (ha : a ∈ s.active)
    (hcommit : ∀ t ∈ h.committed, t.commitId < transactionIdStart) :
    (view.rowHistory h table row writer).Pairwise fun newer older =>
      a.sees newer.1.2 → a.sees older.1.2 := by
  have hid := hinv.store.active_ge a ha
  have hstart := (hinv.store.active_start a ha).2
  simp only [Running.sees, Bool.or_eq_true, beq_iff_eq, decide_eq_true_eq]
  refine pairwise_append.2 ⟨?_, ?_, ?_⟩
  · cases writer <;> simp
  · refine (hinv.committedOn_sorted table row).imp_of_mem fun {newer older} hnew _ hlt hsees => ?_
    obtain ⟨t, ht, -, rfl⟩ := RowView.mem_committedOn hnew
    have := hcommit t ht
    simp only at hlt hsees
    omega
  · intro newer hnew older hold hsees
    obtain ⟨o, ho, rfl⟩ := mem_map.1 hnew
    obtain ⟨t, ht, hrow, rfl⟩ := RowView.mem_committedOn hold
    have hwriter : writer = some o := Option.mem_toList.1 ho
    obtain ⟨b, hb, rfl⟩ := hist.running o hwriter
    have hge := hinv.store.active_ge b hb
    have heq : b.transactionId = a.transactionId := by
      simp only at hsees
      omega
    have hpending := (hist.pending _).2 hwriter
    rw [heq] at hpending
    exact .inr (hiso.running a ha table row hpending t ht hrow)

end RowHistory

namespace History.Invariant

variable {s : Store V} {h : History V} {row table : ℕ}

/-- **Snapshot reads**: what a running transaction reads through the records of a row is its
snapshot. -/
theorem read_eq (hinv : h.Invariant RowView.full s) (hiso : h.Isolated s)
    (hcommit : ∀ t ∈ h.committed, t.commitId < transactionIdStart) {a : Running} (ha : a ∈ s.active)
    {versioned : VersionedRow V} (hrow : (s.rows table)[row]? = some versioned) :
    versioned.read a.sees = h.snapshot a.transactionId a.startTime table row := by
  obtain ⟨writer, hist⟩ := hinv.rows table row versioned hrow
  have hselect : versioned.read a.sees = replay none
      ((RowView.full.rowHistory h table row writer).filter fun c => a.sees c.1.2) := by
    refine hist.explains.select_eq (hist.visible_closed hinv hiso ha hcommit) fun c hc => ?_
    rw [length_map] at hc
    simp [Running.sees, (hist.lost c hc).2.2 a ha]
  rw [hist.filter_rowHistory hinv.store ha hcommit, replay, foldr_append] at hselect
  have hcommitted := replay_committedOn h table row a.startTime
  rw [replay] at hcommitted
  rw [hselect, hcommitted, snapshot]
  by_cases hw : writer = some a.transactionId
  · subst hw
    simp only [Option.filter, decide_true, if_true]
    rfl
  · have hnil : onRow table row (h.pending a.transactionId) = [] := by
      by_contra hne
      exact hw ((hist.pending _).1 hne)
    have hfilter : writer.filter (· = a.transactionId) = none := by
      cases writer with
      | none => rfl
      | some o =>
        have ho : o ≠ a.transactionId := fun heq => hw (congrArg some heq)
        simp [Option.filter, ho]
    rw [hfilter, applyTo_of_onRow_eq_nil hnil]
    rfl

/-- Rows that do not exist are in no snapshot. -/
theorem snapshot_eq_none {view : RowView V σ} (hinv : h.Invariant view s)
    (hrow : (s.rows table).length ≤ row) {transactionId startTime : ℕ} :
    h.snapshot transactionId startTime table row = none := by
  obtain ⟨hpending, hcommitted⟩ := hinv.unused table row hrow
  rw [snapshot, applyTo_of_onRow_eq_nil (hpending transactionId), ← replay_committedOn]
  have hnil : RowView.full.committedOn h table row = [] := by
    rw [RowView.committedOn, filter_eq_nil_iff.2 fun c hc => by simp [hcommitted c hc]]
    rfl
  rw [hnil]
  rfl

end History.Invariant

end DuckDB
