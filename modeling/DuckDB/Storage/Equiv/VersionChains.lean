import DuckDB.Transaction.Equiv.VersionedStore

/-!
# Version chains and records

A transaction that changes a row several times leaves several nodes in its version chain; they
follow each other, and only the oldest of them matters to anyone else. `RowSlot.versioned` keeps
that one: it is the row of the abstract store that a row slot stands for.

* `chooseVersion_eq`: `Scan` and `Fetch` read the row as the abstract store does.
* `versioned_pushTuple`, `versioned_setVersionNumbers`, `versioned_rollbacks`, `versioned_cleanups`:
  the operations on a slot are those of the abstract row.
-/

namespace DuckDB

open Theory List VersionChain DataTable VersionInformation

variable {V C : Type*} {versions : List (VersionInformation V)} {v : VersionInformation V}

/-! ### The records of a chain -/

/-- The record of a version; `above` are the column values after the change, which an insertion
leaves behind when it is undone. -/
def VersionInformation.record (above : List V) (v : VersionInformation V) : Record V where
  owner := v.pointer.owner
  number := v.versionNumber
  before :=
    match v.tupleData with
    | some tuple => ⟨tuple, false⟩
    | none => ⟨above, true⟩

variable (above : List V) (transaction : Transaction C)
  {older : List (VersionInformation V)} {slot : RowSlot V} {owner : ℕ}

@[simp] theorem VersionInformation.owner_record : (v.record above).owner = v.pointer.owner := rfl

@[simp] theorem VersionInformation.number_record : (v.record above).number = v.versionNumber := rfl

/-- Adds a record unless there is a newer-made one of the same transaction below it. -/
def pushRecord (r : Record V) (older : List (Record V)) : List (Record V) :=
  if older.head?.any (·.owner == r.owner) then older else r :: older

/-- The records of a version chain: the oldest node of each transaction. -/
def records (above : List V) : List (VersionInformation V) → List (Record V)
  | [] => []
  | v :: older => pushRecord (v.record above) (records (v.record above).before.columns older)

/-- The abstract row a slot stands for. -/
def RowSlot.versioned (slot : RowSlot V) : VersionedRow V where
  state := ⟨slot.columns, slot.deleted⟩
  records := records slot.columns slot.versionPointers

/-- The state of the row once the given versions have been undone. -/
def undone (state : RowState V) (versions : List (VersionInformation V)) : RowState V :=
  versions.foldl (fun state v => (v.record state.columns).before) state

/-- The versions of one transaction have one number. -/
def SameNumbers (versions : List (VersionInformation V)) : Prop :=
  ∀ v ∈ versions, ∀ w ∈ versions, v.pointer.owner = w.pointer.owner →
    v.versionNumber = w.versionNumber

theorem SameNumbers.tail (h : SameNumbers (v :: versions)) : SameNumbers versions :=
  fun a ha b hb => h a (mem_cons_of_mem _ ha) b (mem_cons_of_mem _ hb)

theorem mem_pushRecord {r r' : Record V} {older : List (Record V)}
    (h : r' ∈ pushRecord r older) : r' = r ∨ r' ∈ older := by
  unfold pushRecord at h
  split_ifs at h
  · exact .inr h
  · exact mem_cons.1 h

theorem exists_of_mem_records {above : List V} {r : Record V} (h : r ∈ records above versions) :
    ∃ v ∈ versions, r.owner = v.pointer.owner ∧ r.number = v.versionNumber := by
  induction versions generalizing above with
  | nil => simp [records] at h
  | cons v older ih =>
    rcases mem_pushRecord h with rfl | h
    · exact ⟨v, mem_cons_self, rfl, rfl⟩
    · obtain ⟨w, hw, hr⟩ := ih h
      exact ⟨w, mem_cons_of_mem _ hw, hr⟩

theorem exists_record_of_mem (h : v ∈ versions) :
    ∃ r ∈ records above versions, r.owner = v.pointer.owner := by
  induction versions generalizing above with
  | nil => simp at h
  | cons w older ih =>
    rw [records, pushRecord]
    rcases mem_cons.1 h with rfl | h
    · split_ifs with hown
      · obtain ⟨r, hr, hr'⟩ := (Option.any_eq_true _ _).1 hown
        exact ⟨r, mem_of_head? hr, by simpa using hr'⟩
      · exact ⟨_, mem_cons_self, rfl⟩
    · obtain ⟨r, hr, hown⟩ := ih (w.record above).before.columns h
      split_ifs
      · exact ⟨r, hr, hown⟩
      · exact ⟨r, mem_cons_of_mem _ hr, hown⟩

/-- The newest record has the owner and the number of the head of the chain. -/
theorem exists_records_cons (h : SameNumbers (v :: older)) :
    ∃ r rest, records above (v :: older) = r :: rest ∧ r.owner = v.pointer.owner ∧
      r.number = v.versionNumber := by
  rw [records, pushRecord]
  split_ifs with hown
  · obtain ⟨r, hr, hr'⟩ := (Option.any_eq_true _ _).1 hown
    obtain ⟨rest, hrest⟩ := head?_eq_some_iff.1 hr
    have howner : r.owner = v.pointer.owner := by simpa using hr'
    obtain ⟨w, hw, how, hnum⟩ := exists_of_mem_records (mem_of_head? hr)
    refine ⟨r, rest, hrest, howner, hnum.trans ?_⟩
    exact h w (mem_cons_of_mem _ hw) v mem_cons_self (how.symm.trans howner)
  · exact ⟨_, _, rfl, rfl, rfl⟩

theorem ownedBy_eq (h : SameNumbers slot.versionPointers) :
    slot.versioned.ownedBy owner = slot.head?.any (·.pointer.owner == owner) := by
  rw [VersionedRow.ownedBy, RowSlot.versioned, RowSlot.head?]
  cases hvp : slot.versionPointers with
  | nil => rfl
  | cons v older =>
    obtain ⟨r, rest, hrec, hown, -⟩ := exists_records_cons slot.columns (hvp ▸ h)
    simp [hrec, hown]

/-! ### Reading -/

theorem tuple?_record_before : (v.record above).before.tuple? = v.tupleData := by
  unfold record RowState.tuple?
  cases v.tupleData <;> rfl

/-- Reading through the records of a chain is reading through all its nodes. -/
theorem select_records_tags {visible : ℕ × ℕ → Bool} (h : SameNumbers versions) (above : List V)
    (current : Option (List V)) :
    select visible current ((records above versions).map Record.entry) = select visible current
        (versions.map fun v => ((v.pointer.owner, v.versionNumber), v.tupleData)) := by
  induction versions generalizing above current with
  | nil => rfl
  | cons v older ih =>
    rw [map_cons, select_cons, ← ih h.tail (v.record above).before.columns, records, pushRecord]
    cases hrec : records (v.record above).before.columns older with
    | nil =>
      rw [if_neg (by simp), map_cons, Record.entry, select_cons, tuple?_record_before]
      rfl
    | cons r rest =>
      by_cases hown : r.owner = v.pointer.owner
      · -- the record below is of the same change, so it is seen exactly when `v` is
        obtain ⟨w, hw, how, hnum⟩ := exists_of_mem_records (hrec ▸ mem_cons_self)
        have hn := h v mem_cons_self w (mem_cons_of_mem _ hw) (hown.symm.trans how)
        have hkeep : (r :: rest).head?.any (fun x => x.owner == (v.record above).owner) := by
          simp [hown]
        rw [if_pos hkeep, map_cons, Record.entry, select_cons, select_cons, hnum, ← hn, hown]
        split_ifs <;> rfl
      · have hpush : ¬(r :: rest).head?.any (fun x => x.owner == (v.record above).owner) := by
          simp [hown]
        rw [if_neg hpush, map_cons, Record.entry, select_cons, tuple?_record_before]
        rfl

theorem select_records {sees : ℕ → Bool} (h : SameNumbers versions) {above : List V}
    {current : Option (List V)} :
    select (fun tag : ℕ × ℕ => sees tag.2) current
        ((records above versions).map Record.entry) =
      select (fun tag : ℕ × ℕ => sees tag.2) current
        (versions.map fun v => ((v.pointer.owner, v.versionNumber), v.tupleData)) :=
  select_records_tags h above current

theorem tupleData_followVersions : (followVersions transaction v older).tupleData =
      select (fun tag : ℕ × ℕ => transaction.sees tag.2) v.tupleData
        (older.map fun v => ((v.pointer.owner, v.versionNumber), v.tupleData)) := by
  induction older generalizing v with
  | nil => rfl
  | cons w older ih =>
    rw [followVersions, map_cons, select_cons]
    by_cases hid : w.versionNumber = transaction.transactionId
    · simp [Transaction.sees, hid]
    · by_cases hlt : w.versionNumber < transaction.startTime
      · simp [Transaction.sees, hid, hlt]
      · rw [if_neg hid, if_neg hlt, ih]
        simp [Transaction.sees, hid, hlt]

/-- **Reading a row**: the choice of `Scan` and `Fetch` is the one of the abstract row. -/
theorem chooseVersion_eq (h : SameNumbers slot.versionPointers) :
    chooseVersion transaction slot = slot.versioned.choose transaction.sees := by
  cases hvp : slot.versionPointers with
  | nil => simp [chooseVersion, VersionedRow.choose, RowSlot.versioned, hvp, records]
  | cons v older =>
    rw [hvp] at h
    obtain ⟨r, rest, hrec, -, hnum⟩ := exists_records_cons slot.columns h
    simp only [chooseVersion, VersionedRow.choose, RowSlot.versioned, hvp, hrec,
      head?_cons, Option.all_some, hnum]
    split_ifs with hsees
    · rfl
    · rfl
    · have hread : VersionedRow.read transaction.sees
          ⟨⟨slot.columns, slot.deleted⟩, r :: rest⟩ =
            (followVersions transaction v older).tupleData := by
        rw [tupleData_followVersions, VersionedRow.read, ← hrec, select_records h,
          map_cons, select_cons]
        simp [hsees]
      cases htuple : (followVersions transaction v older).tupleData with
      | none | some tuple => simp only [hread.trans htuple]

/-- The conflict check of `Delete` and `Update` is the one of the abstract row. -/
theorem conflicts_eq (h : SameNumbers slot.versionPointers) :
    conflicts transaction slot = slot.versioned.conflicts transaction.transactionId := by
  unfold conflicts RowSlot.head?
  simp only [VersionedRow.conflicts, RowSlot.versioned]
  cases hvp : slot.versionPointers with
  | nil => simp [records]
  | cons v older =>
    obtain ⟨r, rest, hrec, -, hnum⟩ := exists_records_cons slot.columns (hvp ▸ h)
    simp [hrec, hnum]

/-! ### Changing rows -/

namespace RowSlot

variable {slot : RowSlot V} {owner : ℕ} {index : ℕ}

@[simp] theorem versioned_setDeleted :
    slot.setDeleted.versioned = { slot.versioned with state := ⟨slot.columns, true⟩ } := rfl

/-- `PushTuple` saves the row unless its newest change is of the same transaction. -/
theorem versioned_pushTuple :
    (slot.pushTuple ⟨owner, index⟩ owner).versioned = slot.versioned.save owner := by
  unfold VersionedRow.save
  split_ifs with howned
  · exact congrArg (VersionedRow.mk _) (if_pos howned)
  · exact congrArg (VersionedRow.mk _) (if_neg howned)

/-- The newest version is a change of `owner` that saved the row. -/
def savedBy (owner : ℕ) (slot : RowSlot V) : Prop :=
  ∃ v older, slot.versionPointers = v :: older ∧ v.pointer.owner = owner ∧ v.tupleData ≠ none

theorem savedBy.setColumn (h : slot.savedBy owner) (column : ℕ) (value : V) :
    (slot.setColumn column value).savedBy owner :=
  h

theorem savedBy.ownedBy (h : slot.savedBy owner) (hsame : SameNumbers slot.versionPointers) :
    slot.versioned.ownedBy owner := by
  obtain ⟨v, older, hvp, hown, -⟩ := h
  rw [ownedBy_eq hsame, head?, hvp]
  simp [hown]

/-- Copying a value into a row that has been saved is a change of the abstract row. -/
theorem savedBy.versioned_setColumn (h : slot.savedBy owner)
    (hsame : SameNumbers slot.versionPointers) (column : ℕ) (value : V) :
    (slot.setColumn column value).versioned = slot.versioned.write owner (.set column value) := by
  rw [VersionedRow.write, VersionedRow.save_of_ownedBy (h.ownedBy hsame)]
  obtain ⟨v, older, hvp, -, hdata⟩ := h
  obtain ⟨tuple, htuple⟩ := Option.ne_none_iff_exists'.1 hdata
  have hrecord : ∀ above above' : List V, v.record above = v.record above' := by
    simp [record, htuple]
  refine congrArg (VersionedRow.mk _) ?_
  change records (slot.columns.set column value) slot.versionPointers =
    records slot.columns slot.versionPointers
  rw [hvp, records, records, hrecord (slot.columns.set column value) slot.columns]

end RowSlot

/-! ### Chains of several transactions -/

theorem records_cons_of_owner {above : List V} {w : VersionInformation V}
    (h : v.pointer.owner = w.pointer.owner) (hsame : SameNumbers (w :: older)) :
    records above (v :: w :: older) = records (v.record above).before.columns (w :: older) := by
  rw [records, pushRecord, if_pos]
  obtain ⟨r, rest, hrec, hown, -⟩ := exists_records_cons (v.record above).before.columns hsame
  simp [hrec, hown, h]

/-- The versions of one transaction have one record: undoing it undoes them all. -/
theorem records_of_owner (hne : versions ≠ []) (hown : ∀ v ∈ versions, v.pointer.owner = owner)
    (hsame : SameNumbers versions) (state : RowState V) :
    ∃ number, records state.columns versions = [⟨owner, number, undone state versions⟩] := by
  induction versions generalizing state with
  | nil => exact absurd rfl hne
  | cons v older ih =>
    cases older with
    | nil =>
      refine ⟨v.versionNumber, ?_⟩
      have hv := hown v mem_cons_self
      simp only [records, pushRecord, undone, foldl_cons, foldl_nil, head?_nil,
        Option.any_none, Bool.false_eq_true, if_false, ← hv]
      rfl
    | cons w older =>
      have hvw : v.pointer.owner = w.pointer.owner := by
        rw [hown v (by simp), hown w (by simp)]
      rw [records_cons_of_owner hvw hsame.tail]
      exact ih (cons_ne_nil _ _) (fun x hx => hown x (mem_cons_of_mem _ hx)) hsame.tail
        (v.record state.columns).before

/-- Chains of different transactions are recorded one after the other. -/
theorem records_append {newer : List (VersionInformation V)}
    (h : ∀ v ∈ newer, ∀ w ∈ older, v.pointer.owner ≠ w.pointer.owner) (state : RowState V) :
    records state.columns (newer ++ older) =
      records state.columns newer ++ records (undone state newer).columns older := by
  induction newer generalizing state with
  | nil => rfl
  | cons v newer ih =>
    have ih := ih (fun x hx => h x (mem_cons_of_mem _ hx)) (v.record state.columns).before
    rw [cons_append, records, ih, records]
    have hundone : undone state (v :: newer) = undone (v.record state.columns).before newer := rfl
    rw [hundone]
    -- whether `v` is recorded depends on the next record only
    cases hrec : records (v.record state.columns).before.columns newer with
    | cons r rest =>
      by_cases hown : r.owner = v.pointer.owner <;> simp [pushRecord, hown]
    | nil =>
      rw [nil_append, pushRecord, if_neg]
      · simp [pushRecord]
      · intro hany
        obtain ⟨r, hr, hown⟩ := (Option.any_eq_true _ _).1 hany
        obtain ⟨w, hw, how, -⟩ := exists_of_mem_records (mem_of_head? hr)
        refine h v mem_cons_self w hw ?_
        rw [← how]
        exact (by simpa using hown : r.owner = v.pointer.owner).symm

/-- Changing numbers changes the numbers of the records. -/
theorem records_map {f : VersionInformation V → VersionInformation V} {g : Record V → Record V}
    (hg : ∀ above v, (f v).record above = g (v.record above)) (howner : ∀ r, (g r).owner = r.owner)
    (hbefore : ∀ r, (g r).before = r.before) {above : List V} :
    records above (versions.map f) = (records above versions).map g := by
  induction versions generalizing above with
  | nil => rfl
  | cons v older ih =>
    rw [map_cons, records, records, hg, hbefore, ih, pushRecord, pushRecord]
    have hany : ((records (v.record above).before.columns older).map g).head?.any
        (fun r => r.owner == (g (v.record above)).owner) =
        (records (v.record above).before.columns older).head?.any
          (fun r => r.owner == (v.record above).owner) := by
      cases records (v.record above).before.columns older with
      | nil => rfl
      | cons r rest => simp [howner]
    rw [hany]
    split_ifs <;> rfl

/-! ### Commit, rollback and cleanup of all versions of a transaction -/

namespace RowSlot

variable {pointers : List VersionPointer} {slot : RowSlot V} {owner : ℕ}
  {newer newest older oldest : List (VersionInformation V)}

theorem foldl_setVersionNumber (commitId : ℕ) (pointers : List VersionPointer) (slot : RowSlot V) :
    pointers.foldl (fun slot p => slot.setVersionNumber p commitId) slot =
      { slot with
        versionPointers := slot.versionPointers.map fun v =>
          if v.pointer ∈ pointers then { v with versionNumber := commitId } else v } := by
  induction pointers generalizing slot with
  | nil => simp
  | cons p pointers ih =>
    rw [foldl_cons, ih]
    simp only [setVersionNumber, map_map]
    refine congrArg (RowSlot.mk _ _) (map_congr_left fun v _ => ?_)
    by_cases hp : v.pointer = p
    · simp [hp]
    · by_cases hmem : v.pointer ∈ pointers <;> simp [hp, hmem]

theorem versioned_setVersionNumbers (commitId : ℕ)
    (h : ∀ v ∈ slot.versionPointers, v.pointer ∈ pointers ↔ v.pointer.owner = owner) :
    (pointers.foldl (fun slot p => slot.setVersionNumber p commitId) slot).versioned =
      slot.versioned.commit owner commitId := by
  rw [foldl_setVersionNumber]
  refine congrArg (VersionedRow.mk _) ?_
  have hmap : (slot.versionPointers.map fun v =>
      if v.pointer ∈ pointers then { v with versionNumber := commitId } else v) =
      slot.versionPointers.map fun v =>
        if v.pointer.owner = owner then { v with versionNumber := commitId } else v :=
    map_congr_left fun v hv => by simp only [h v hv]
  change records slot.columns _ = _
  rw [hmap]
  refine records_map (fun above v => ?_) (fun r => ?_) (fun r => ?_)
  · by_cases hown : v.pointer.owner = owner <;> simp [record, hown]
  · split_ifs <;> rfl
  · split_ifs <;> rfl

theorem foldl_rollback (hvp : slot.versionPointers = newest ++ older)
    (hptr : newest.map (·.pointer) = pointers) :
    pointers.foldl (fun slot p => slot.rollback p) slot =
      { columns := (undone ⟨slot.columns, slot.deleted⟩ newest).columns
        deleted := (undone ⟨slot.columns, slot.deleted⟩ newest).deleted
        versionPointers := older } := by
  induction newest generalizing slot pointers with
  | nil =>
    subst hptr
    cases slot
    simp_all [undone]
  | cons v newest ih =>
    subst hptr
    have hhead : slot.isHead v.pointer := by simp [isHead, head?, hvp]
    rw [map_cons, foldl_cons, rollback, if_pos hhead]
    have hundo : slot.undo =
        { columns := (v.record slot.columns).before.columns
          deleted := (v.record slot.columns).before.deleted
          versionPointers := newest ++ older } := by
      simp only [undo, hvp, cons_append, record]
      cases v.tupleData <;> rfl
    rw [hundo]
    exact ih rfl rfl

theorem versioned_rollbacks (hvp : slot.versionPointers = newest ++ older)
    (hptr : newest.map (·.pointer) = pointers) (hnewest : ∀ v ∈ newest, v.pointer.owner = owner)
    (holder : ∀ v ∈ older, v.pointer.owner ≠ owner) (hsame : SameNumbers slot.versionPointers) :
    (pointers.foldl (fun slot p => slot.rollback p) slot).versioned =
      slot.versioned.rollback owner := by
  rw [foldl_rollback hvp hptr]
  have hrecords : slot.versioned.records = records slot.columns newest ++
      records (undone ⟨slot.columns, slot.deleted⟩ newest).columns older := by
    refine (congrArg (records slot.columns) hvp).trans
      (records_append (fun v hv w hw => ?_) ⟨slot.columns, slot.deleted⟩)
    rw [hnewest v hv]
    exact (holder w hw).symm
  by_cases hne : newest = []
  · subst hne
    rw [VersionedRow.rollback, hrecords]
    cases hrec : records slot.columns older with
    | nil => simp [versioned, undone, records, hvp, hrec]
    | cons r rest =>
      obtain ⟨w, hw, how, -⟩ := exists_of_mem_records (hrec ▸ mem_cons_self)
      have hr : r.owner ≠ owner := how ▸ holder w hw
      simp [versioned, undone, records, hvp, hrec, hr]
  · have hsame' : SameNumbers newest := fun a ha b hb =>
      hsame a (by simp [hvp, ha]) b (by simp [hvp, hb])
    obtain ⟨number, hnumber⟩ :=
      records_of_owner hne hnewest hsame' ⟨slot.columns, slot.deleted⟩
    rw [VersionedRow.rollback, hrecords, hnumber]
    simp [versioned]

theorem foldl_cleanup (hvp : slot.versionPointers = newer ++ oldest)
    (hptr : oldest.map (·.pointer) = pointers.reverse) (hnd : pointers.Nodup)
    (hnewer : ∀ v ∈ newer, v.pointer ∉ pointers) :
    pointers.foldl (fun slot p => slot.cleanup p) slot =
      { slot with versionPointers := newer } := by
  induction pointers generalizing slot oldest with
  | nil =>
    have hnil : oldest = [] := by simpa using hptr
    cases slot
    simp_all
  | cons p pointers ih =>
    obtain ⟨hp, hnd⟩ := nodup_cons.1 hnd
    rw [reverse_cons] at hptr
    obtain ⟨rest, last, rfl, hrest, hlast⟩ := map_eq_append_iff.1 hptr
    obtain ⟨v, rfl, hv⟩ := map_eq_singleton_iff.1 hlast
    have hcleanup : slot.cleanup p = { slot with versionPointers := newer ++ rest } := by
      have hno : ∀ w ∈ newer ++ rest, ¬(w.pointer == p) = true := by
        intro w hw
        rcases mem_append.1 hw with hw | hw
        · simpa using fun h => hnewer w hw (by simp [h])
        · have : w.pointer ∈ pointers.reverse := hrest ▸ mem_map_of_mem hw
          simpa using fun h : w.pointer = p => hp (by simpa [h] using this)
      simp only [cleanup, unlink, hvp, ← append_assoc]
      rw [eraseP_append_right _ hno]
      simp [hv]
    rw [foldl_cons, hcleanup]
    exact ih rfl hrest hnd fun w hw hmem => hnewer w hw (mem_cons_of_mem _ hmem)

theorem versioned_cleanups (hvp : slot.versionPointers = newer ++ oldest)
    (hptr : oldest.map (·.pointer) = pointers.reverse) (hnd : pointers.Nodup)
    (holdest : ∀ v ∈ oldest, v.pointer.owner = owner)
    (hnewer : ∀ v ∈ newer, v.pointer.owner ≠ owner) :
    (pointers.foldl (fun slot p => slot.cleanup p) slot).versioned =
      slot.versioned.cleanup owner := by
  have hnot : ∀ v ∈ newer, v.pointer ∉ pointers := by
    intro v hv hmem
    have : v.pointer ∈ oldest.map (·.pointer) := hptr ▸ mem_reverse.2 hmem
    obtain ⟨w, hw, hwv⟩ := mem_map.1 this
    exact hnewer v hv (hwv ▸ holdest w hw)
  rw [foldl_cleanup hvp hptr hnd hnot]
  refine congrArg (VersionedRow.mk _) ?_
  have hrecords : slot.versioned.records = records slot.columns newer ++
      records (undone ⟨slot.columns, slot.deleted⟩ newer).columns oldest := by
    refine (congrArg (records slot.columns) hvp).trans
      (records_append (fun v hv w hw => ?_) ⟨slot.columns, slot.deleted⟩)
    rw [holdest w hw]
    exact hnewer v hv
  rw [hrecords, filter_append]
  have hkeep : (records slot.columns newer).filter (fun r => decide (r.owner ≠ owner)) =
      records slot.columns newer := by
    refine filter_eq_self.2 fun r hr => ?_
    obtain ⟨w, hw, how, -⟩ := exists_of_mem_records hr
    simpa [how] using hnewer w hw
  have hdrop : (records (undone ⟨slot.columns, slot.deleted⟩ newer).columns oldest).filter
      (fun r => decide (r.owner ≠ owner)) = [] := by
    refine filter_eq_nil_iff.2 fun r hr => ?_
    obtain ⟨w, hw, how, -⟩ := exists_of_mem_records hr
    simpa [how] using holdest w hw
  rw [hkeep, hdrop, append_nil]

end RowSlot

end DuckDB
