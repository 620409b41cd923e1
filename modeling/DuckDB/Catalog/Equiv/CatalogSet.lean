import DuckDB.Catalog.CatalogHistory
import DuckDB.Catalog.Equiv.CatalogChain
import DuckDB.Transaction.Equiv.GarbageCollection

/-!
# What all reachable catalog sets have in common

`CatalogState.Invariant` ties the version chain of a name to two other accounts of it. The undo
buffers say which transaction wrote which version (`links`): first the versions of the active
transaction that has written the name, if there is one, then those of the recently committed
transactions, the last one first. The history says which values these versions have (`versions`).
Every operation keeps the invariant (`CatalogState.Invariant.step`).
-/

namespace DuckDB

open List CatalogVersion CatalogHistory

variable {E : Type*}

/-! ### Undo entries of one name -/

/-- The version of the given name that the entry points to. -/
def UndoEntry.addressOn (name : String) : UndoEntry EntryPointer → Option ℕ
  | .catalogEntry entry => if entry.name = name then some entry.address else none
  | _ => none

/-- The versions of the given name that the transaction has replaced, in program order. -/
def Transaction.entriesOn (name : String) (t : Transaction EntryPointer) : List ℕ :=
  t.undoBuffer.filterMap (UndoEntry.addressOn name)

theorem CatalogSet.data_foldl_onEntry {f : List (CatalogVersion E) → ℕ → List (CatalogVersion E)}
    (name : String) (entries : List (UndoEntry EntryPointer)) (set : CatalogSet E) :
    (entries.foldl (onEntry f) set).data name =
      (entries.filterMap (UndoEntry.addressOn name)).foldl f (set.data name) := by
  induction entries generalizing set with
  | nil => rfl
  | cons entry entries ih =>
    rw [foldl_cons, ih]
    cases entry with
    | catalogEntry e =>
      by_cases he : e.name = name
      · subst he
        simp [onEntry, UndoEntry.addressOn]
      · simp [onEntry, UndoEntry.addressOn, he, Function.update_of_ne (Ne.symm he)]
    | _ => rfl

theorem CatalogSet.nextAddress_foldl_onEntry
    (f : List (CatalogVersion E) → ℕ → List (CatalogVersion E))
    (entries : List (UndoEntry EntryPointer)) (set : CatalogSet E) :
    (entries.foldl (onEntry f) set).nextAddress = set.nextAddress := by
  induction entries generalizing set with
  | nil => rfl
  | cons entry entries ih =>
    rw [foldl_cons, ih]
    cases entry <;> rfl

namespace Transaction

variable {t : Transaction EntryPointer} {set : CatalogSet E} {name : String}

theorem data_commitEntries (commitId : ℕ) : (t.commitEntries commitId set).data name =
      (t.entriesOn name).foldl (commit commitId) (set.data name) :=
  CatalogSet.data_foldl_onEntry name t.undoBuffer set

theorem data_rollbackEntries :
    (t.rollbackEntries set).data name = (t.entriesOn name).reverse.foldl undo (set.data name) := by
  rw [rollbackEntries, CatalogSet.data_foldl_onEntry, filterMap_reverse, entriesOn]

theorem data_cleanupEntries : (cleanupEntries set t).data name =
      (t.entriesOn name).foldl cleanup (set.data name) :=
  CatalogSet.data_foldl_onEntry name t.undoBuffer set

theorem entriesOn_pushCatalogEntry {entry : EntryPointer} :
    (t.pushCatalogEntry entry).entriesOn name =
      t.entriesOn name ++ if entry.name = name then [entry.address] else [] := by
  by_cases he : entry.name = name <;>
    simp [entriesOn, pushCatalogEntry, createEntry, UndoEntry.addressOn, he]

theorem data_foldl_cleanupEntries (name : String) (ts : List (Transaction EntryPointer))
    (set : CatalogSet E) : (ts.foldl cleanupEntries set).data name =
        ts.foldl (fun versions t => (t.entriesOn name).foldl cleanup versions)
          (set.data name) ∧
      (ts.foldl cleanupEntries set).nextAddress = set.nextAddress := by
  induction ts generalizing set with
  | nil => exact ⟨rfl, rfl⟩
  | cons t ts ih =>
    obtain ⟨hdata, hnext⟩ := ih (cleanupEntries set t)
    rw [foldl_cons, foldl_cons, hdata, hnext, data_cleanupEntries]
    exact ⟨rfl, CatalogSet.nextAddress_foldl_onEntry _ _ _⟩

end Transaction

/-! ### Blocks of versions -/

/-- The versions of several transactions, each with its number, newest first. -/
def blocks {α β : Type*} (number : α → ℕ) (items : α → List β) (l : List α) : List (ℕ × β) :=
  l.flatMap fun a => (items a).reverse.map (number a, ·)

section blocks

variable {α β : Type*} {number : α → ℕ} {items : α → List β} {l : List α} {l' : List α}

@[simp] theorem blocks_append :
    blocks number items (l ++ l') = blocks number items l ++ blocks number items l' :=
  flatMap_append

theorem blocks_cons {a : α} :
    blocks number items (a :: l) = (items a).reverse.map (number a, ·) ++ blocks number items l :=
  rfl

theorem blocks_eq_nil (h : ∀ a ∈ l, items a = []) : blocks number items l = [] :=
  flatMap_eq_nil_iff.2 fun a ha => by rw [h a ha, reverse_nil, map_nil]

theorem blocks_middle {a : α} (h : items a = [] ∨ ∀ b ∈ l ++ l', items b = []) :
    blocks number items (l ++ a :: l') =
      (items a).reverse.map (number a, ·) ++ blocks number items (l ++ l') := by
  rcases h with ha | hothers
  · rw [blocks_append, blocks_cons, blocks_append, ha, reverse_nil, map_nil, nil_append, nil_append]
  · have hl : blocks number items l = [] := blocks_eq_nil fun b hb => hothers b (by simp [hb])
    rw [blocks_append, blocks_cons, blocks_append, hl, nil_append, nil_append]

theorem blocks_append_comm {bs : List β} {m : ℕ} (h : bs = [] ∨ ∀ b ∈ l, items b = []) :
    blocks number items l ++ bs.reverse.map (m, ·) =
      bs.reverse.map (m, ·) ++ blocks number items l := by
  rcases h with rfl | hothers
  · rw [reverse_nil, map_nil, append_nil, nil_append]
  · rw [blocks_eq_nil hothers, append_nil, nil_append]

theorem mem_blocks {x : ℕ × β} :
    x ∈ blocks number items l ↔ ∃ a ∈ l, x.1 = number a ∧ x.2 ∈ items a := by
  rw [blocks, mem_flatMap]
  refine exists_congr fun a => and_congr_right fun _ => ?_
  rw [mem_map]
  constructor
  · rintro ⟨b, hb, rfl⟩
    exact ⟨rfl, mem_reverse.1 hb⟩
  · rintro ⟨hnumber, hx⟩
    exact ⟨x.2, mem_reverse.2 hx, by rw [← hnumber]⟩

variable (number) in
theorem length_blocks {γ : Type*} {items' : α → List γ}
    (h : ∀ a ∈ l, (items a).length = (items' a).length) :
    (blocks number items l).length = (blocks number items' l).length := by
  rw [blocks, blocks, length_flatMap, length_flatMap]
  refine congrArg List.sum (map_congr_left fun a ha => ?_)
  rw [length_map, length_reverse, length_map, length_reverse, h a ha]

end blocks

/-- The versions above the last one: the address below each of them, with its timestamp. -/
def CatalogVersion.links (versions : List (CatalogVersion E)) : List (ℕ × ℕ) :=
  (versions.map (·.timestamp)).zip (versions.tail.map (·.address))

/-- The values that a history has for a name, with the numbers of the transactions, newest first. -/
def CatalogHistory.versions (h : CatalogHistory E) (active : List (Transaction EntryPointer))
    (name : String) : List (ℕ × Option E) :=
  blocks (·.transactionId) (fun t => versionsOf name (h.pending t.transactionId)) active ++
    blocks (·.commitId) (fun c => versionsOf name c.versions) h.committed.reverse

/-- Who wrote the versions of a name, according to the undo buffers. -/
def undoLinks (active recent : List (Transaction EntryPointer)) (name : String) : List (ℕ × ℕ) :=
  blocks (·.transactionId) (Transaction.entriesOn name) active ++
    blocks (·.commitId) (Transaction.entriesOn name) recent.reverse

/-- The transactions of a catalog set behave like those of a database. -/
def TransactionManager.Managed (manager : TransactionManager EntryPointer) : Prop :=
  ∃ tables : Tables Unit, (⟨manager, tables⟩ : Database Unit EntryPointer).Invariant

/-- What the version chain of a name has to do with the transactions and the history. -/
structure NameInvariant (name : String) (h : CatalogHistory E)
    (active recent : List (Transaction EntryPointer)) (versions : List (CatalogVersion E))
    (nextAddress : ℕ) : Prop where
  linked : Linked versions
  fresh : ∀ v ∈ versions, v.address < nextAddress
  links : links versions = undoLinks active recent name
  values : versions.map key <+: h.versions active name ++ [(0, none)]
  unknown : versions = [] → h.versions active name = []
  exclusive : active.Pairwise fun t u => t.entriesOn name = [] ∨ u.entriesOn name = []
  pending : ∀ t ∈ active,
    (t.entriesOn name).length = (versionsOf name (h.pending t.transactionId)).length
  lost : ∀ v ∈ (h.versions active name).drop (versions.length - 1), ∀ t ∈ active, v.1 < t.startTime

/-- What all reachable catalog sets have in common. -/
structure CatalogState.Invariant (s : CatalogState E) (h : CatalogHistory E) : Prop where
  managed : s.transactionManager.Managed
  names : ∀ name, NameInvariant name h s.transactionManager.activeTransactions
    s.transactionManager.recentlyCommittedTransactions (s.set.data name) s.set.nextAddress
  idle : ∀ id, (∀ t ∈ s.transactionManager.activeTransactions, t.transactionId ≠ id) →
    h.pending id = []
  committed : ∀ c ∈ h.committed, c.commitId < s.transactionManager.currentStartTimestamp ∧
    ∀ t ∈ s.transactionManager.activeTransactions, c.commitId ≠ t.startTime
  sorted : h.committed.Pairwise fun c d => c.commitId < d.commitId

/-! ### Links -/

namespace CatalogVersion

@[simp] theorem links_cons_cons (v w : CatalogVersion E) (older : List (CatalogVersion E)) :
    links (v :: w :: older) = (v.timestamp, w.address) :: links (w :: older) :=
  rfl

variable (versions : List (CatalogVersion E))

theorem map_snd_links : (links versions).map (·.2) = versions.tail.map (·.address) :=
  map_snd_zip (by simp)

theorem length_links : (links versions).length = versions.length - 1 := by
  simp [links]

theorem links_take (n : ℕ) : links (versions.take n) = (links versions).take (n - 1) := by
  induction versions generalizing n with
  | nil => simp [links]
  | cons v older ih =>
    match n, older with
    | 0, _ => rfl
    | 1, _ => rfl
    | n + 2, [] => rfl
    | n + 2, w :: older =>
      have hrest := ih (n + 1)
      simp only [take_succ_cons, links_cons_cons, Nat.add_one_sub_one] at hrest ⊢
      rw [hrest]

theorem links_drop {n : ℕ} : links (versions.drop n) = (links versions).drop n := by
  induction n generalizing versions with
  | zero => rfl
  | succ n ih =>
    match versions with
    | [] => rfl
    | [v] => simp [links]
    | v :: w :: older => exact ih (w :: older)

theorem links_unparent : links (unparent versions) = links versions := by
  match versions with
  | [] => rfl
  | [_] => rfl
  | _ :: _ :: _ => rfl

theorem map_key_unparent : (unparent versions).map key = versions.map key := by
  cases versions <;> rfl

theorem links_commit {versions : List (CatalogVersion E)} {number : ℕ} (commitId : ℕ)
    {addresses : List ℕ} {rest : List (ℕ × ℕ)}
    (h : links versions = addresses.map (number, ·) ++ rest) :
    links ((versions.take addresses.length).map (setTimestamp commitId) ++
      versions.drop addresses.length) = addresses.map (commitId, ·) ++ rest := by
  induction addresses generalizing versions with
  | nil => simpa using h
  | cons address addresses ih =>
    obtain ⟨v, w, older, rfl⟩ : ∃ v w older, versions = v :: w :: older := by
      match versions, h with
      | v :: w :: older, _ => exact ⟨v, w, older, rfl⟩
    simp only [links_cons_cons, map_cons, cons_append, List.cons.injEq, Prod.mk.injEq] at h
    have hrest := ih h.2
    cases addresses with
    | nil | cons address' addresses =>
      simp only [length_nil, length_cons, take_zero, drop_zero, map_nil,
        nil_append, take_succ_cons, map_cons, drop_succ_cons,
        cons_append, links_cons_cons] at hrest ⊢
      rw [hrest, ← h.1.2]
      rfl

end CatalogVersion

/-! ### One name -/

namespace NameInvariant

variable {name : String} {h : CatalogHistory E} {t t' : Transaction EntryPointer}
  {before after recent : List (Transaction EntryPointer)} {versions : List (CatalogVersion E)}
  {n : ℕ} {active : List (Transaction EntryPointer)}

/-- The values of the versions of `t`, according to the history. -/
def ownValues (name : String) (h : CatalogHistory E) (t : Transaction EntryPointer) :
    List (Option E) :=
  versionsOf name (h.pending t.transactionId)

variable {current : CatalogVersion E} {older : List (CatalogVersion E)} {h' : CatalogHistory E}

/-- Either `t` has not written the name, or no other active transaction has. -/
theorem alone (hn : NameInvariant name h (before ++ t :: after) recent versions n) :
    t.entriesOn name = [] ∨ ∀ u ∈ before ++ after, u.entriesOn name = [] := by
  by_cases ht : t.entriesOn name = []
  · exact .inl ht
  · right
    intro u hu
    obtain ⟨-, hafter, hbefore⟩ := pairwise_append.1 hn.exclusive
    rcases mem_append.1 hu with hu | hu
    · exact (hbefore u hu t (by simp)).resolve_right ht
    · exact ((pairwise_cons.1 hafter).1 u hu).resolve_left ht

theorem ownValues_eq_nil_iff (hn : NameInvariant name h active recent versions n)
    {u : Transaction EntryPointer} (hu : u ∈ active) :
    ownValues name h u = [] ↔ u.entriesOn name = [] := by
  rw [← length_eq_zero_iff, ← length_eq_zero_iff, hn.pending u hu]
  rfl

section

variable (hn : NameInvariant name h (before ++ t :: after) recent versions n)

include hn

theorem aloneValues : ownValues name h t = [] ∨ ∀ u ∈ before ++ after, ownValues name h u = [] := by
  refine hn.alone.imp (fun ht => (hn.ownValues_eq_nil_iff (by simp)).2 ht) fun hothers u hu => ?_
  refine (hn.ownValues_eq_nil_iff ?_).2 (hothers u hu)
  rcases mem_append.1 hu with hu | hu <;> simp [hu]

/-- The versions of an active transaction come first. -/
theorem versions_eq : h.versions (before ++ t :: after) name =
      (ownValues name h t).reverse.map (t.transactionId, ·) ++
        h.versions (before ++ after) name := by
  rw [CatalogHistory.versions, CatalogHistory.versions, ← append_assoc]
  congr 1
  exact blocks_middle hn.aloneValues

theorem links_eq : CatalogVersion.links versions =
      (t.entriesOn name).reverse.map (t.transactionId, ·) ++
        undoLinks (before ++ after) recent name := by
  rw [hn.links, undoLinks, undoLinks, ← append_assoc]
  congr 1
  exact blocks_middle hn.alone

/-- The versions below those of an active transaction are the ones it has saved. -/
theorem tail_eq : ∃ rest, versions.tail.map (·.address) = (t.entriesOn name).reverse ++ rest := by
  rw [← map_snd_links, hn.links_eq, map_append, map_map]
  exact ⟨_, congrArg (· ++ _) (map_id _)⟩

/-- Below the versions of an active transaction there is another one. -/
theorem length_entriesOn : (t.entriesOn name).length ≤ versions.length - 1 := by
  rw [← length_links, hn.links_eq, length_append, length_map, length_reverse]
  exact Nat.le_add_right _ _

theorem length_ownValues (number : ℕ) :
    ((ownValues name h t).reverse.map (number, ·)).length = (t.entriesOn name).length := by
  rw [length_map, length_reverse, hn.pending t (by simp)]
  rfl

theorem drop_versions :
    (h.versions (before ++ after) name).drop (versions.length - 1 - (t.entriesOn name).length) =
      (h.versions (before ++ t :: after) name).drop (versions.length - 1) := by
  have hlen := hn.length_entriesOn
  have hown : ((ownValues name h t).reverse.map (t.transactionId, ·)).drop
      (versions.length - 1) = [] :=
    drop_of_length_le (by rw [hn.length_ownValues]; exact hlen)
  rw [hn.versions_eq, drop_append, hn.length_ownValues, hown, nil_append]

theorem values_split : (versions.take (t.entriesOn name).length).map key =
        (ownValues name h t).reverse.map (t.transactionId, ·) ∧
      (versions.drop (t.entriesOn name).length).map key <+:
        h.versions (before ++ after) name ++ [(0, none)] := by
  obtain ⟨rest, hrest⟩ := hn.values
  have hlen := hn.length_entriesOn
  rw [hn.versions_eq, ← take_append_drop (t.entriesOn name).length versions,
    map_append, append_assoc, append_assoc] at hrest
  obtain ⟨htake, hdrop⟩ := append_inj hrest (by
    rw [hn.length_ownValues, length_map, length_take]
    omega)
  exact ⟨htake, rest, hdrop⟩

theorem length_pos (hne : versions ≠ []) : (t.entriesOn name).length < versions.length := by
  have hlen := hn.length_entriesOn
  have := length_pos_iff.2 hne
  omega

theorem exclusive_rest :
    (before ++ after).Pairwise fun t u => t.entriesOn name = [] ∨ u.entriesOn name = [] :=
  hn.exclusive.sublist (List.Sublist.append_left (sublist_cons_self _ _) _)

end

/-- The history of the other transactions, once the versions of `t` have been taken out. -/
theorem versions_of_pending
    (hpending : ∀ u ∈ active, h'.pending u.transactionId = h.pending u.transactionId)
    (hcommitted : h'.committed = h.committed) :
    h'.versions active name = h.versions active name := by
  rw [versions, versions, hcommitted]
  congr 1
  refine flatMap_congr fun u hu => ?_
  simp only [hpending u hu]

theorem mem_unparent {v : CatalogVersion E} (hv : v ∈ unparent versions) :
    ∃ w ∈ versions, v.address = w.address := by
  cases versions with
  | nil => simp [unparent] at hv
  | cons w older =>
    rcases mem_cons.1 hv with rfl | hv
    · exact ⟨w, by simp, rfl⟩
    · exact ⟨v, by simp [hv], rfl⟩

section

variable (hn : NameInvariant name h (before ++ t :: after) recent versions n)

include hn

theorem rollback (hids : ∀ u ∈ before ++ after, u.transactionId ≠ t.transactionId) :
    NameInvariant name (h.record (.rollback t.transactionId)) (before ++ after) recent
      ((t.entriesOn name).reverse.foldl undo versions) n := by
  have hpending : ∀ u ∈ before ++ after,
      (h.record (.rollback t.transactionId)).pending u.transactionId =
        h.pending u.transactionId := fun u hu => Function.update_of_ne (hids u hu) _ _
  have hversions : (h.record (.rollback t.transactionId)).versions (before ++ after) name =
      h.versions (before ++ after) name := versions_of_pending hpending rfl
  obtain ⟨rest, htail⟩ := hn.tail_eq
  rw [hn.linked.foldl_undo htail, length_reverse]
  have hlength : ∀ l : List (CatalogVersion E), (unparent l).length = l.length := by
    intro l
    cases l <;> rfl
  refine ⟨hn.linked.unparent_drop, fun v hv => ?_, ?_, ?_, fun hnil => ?_, hn.exclusive_rest,
    fun u hu => ?_, ?_⟩
  · obtain ⟨w, hw, heq⟩ := mem_unparent hv
    rw [heq]
    exact hn.fresh w (mem_of_mem_drop hw)
  · rw [links_unparent, links_drop, hn.links_eq, drop_append_of_le_length (by simp)]
    rw [drop_of_length_le (by simp), nil_append]
  · rw [map_key_unparent, hversions]
    exact hn.values_split.2
  · rw [hversions]
    by_cases hne : versions = []
    · have hall := hn.unknown hne
      rw [hn.versions_eq] at hall
      exact (append_eq_nil_iff.1 hall).2
    · have hlen := congrArg List.length hnil
      rw [hlength, length_drop, length_nil] at hlen
      have := hn.length_pos hne
      omega
  · rw [hpending u hu]
    refine hn.pending u ?_
    rcases mem_append.1 hu with hu | hu <;> simp [hu]
  · rw [hversions, hlength, length_drop, Nat.sub_right_comm, hn.drop_versions]
    intro v hv u hu
    refine hn.lost v hv u ?_
    rcases mem_append.1 hu with hu | hu <;> simp [hu]

theorem versions_commit (hids : ∀ u ∈ before ++ after, u.transactionId ≠ t.transactionId)
    (commitId : ℕ) : (h.record (.commit t.transactionId commitId)).versions (before ++ after) name =
      (ownValues name h t).reverse.map (commitId, ·) ++ h.versions (before ++ after) name := by
  have hactive : blocks (·.transactionId) (fun u => versionsOf name
        ((h.record (.commit t.transactionId commitId)).pending u.transactionId))
        (before ++ after) =
      blocks (·.transactionId) (ownValues name h) (before ++ after) := by
    refine flatMap_congr fun u hu => ?_
    have hu' : (h.record (.commit t.transactionId commitId)).pending u.transactionId =
        h.pending u.transactionId := Function.update_of_ne (hids u hu) _ _
    simp only [hu', ownValues]
  have hcommitted : blocks (·.commitId) (fun c => versionsOf name c.versions)
      (h.record (.commit t.transactionId commitId)).committed.reverse =
      (ownValues name h t).reverse.map (commitId, ·) ++
        blocks (·.commitId) (fun c => versionsOf name c.versions) h.committed.reverse := by
    rw [CatalogHistory.record, reverse_append, reverse_singleton, singleton_append, blocks_cons]
    rfl
  rw [CatalogHistory.versions, hactive, hcommitted, ← append_assoc,
    blocks_append_comm hn.aloneValues, append_assoc]
  rfl

theorem undoLinks_commit (commitId : ℕ) :
    undoLinks (before ++ after) (recent ++ [{ t with commitId := commitId }]) name =
      (t.entriesOn name).reverse.map (commitId, ·) ++ undoLinks (before ++ after) recent name := by
  have hrecent : blocks (·.commitId) (Transaction.entriesOn name)
      (recent ++ [{ t with commitId := commitId }]).reverse =
      (t.entriesOn name).reverse.map (commitId, ·) ++
        blocks (·.commitId) (Transaction.entriesOn name) recent.reverse := by
    rw [reverse_append, reverse_singleton, singleton_append, blocks_cons]
    rfl
  rw [undoLinks, hrecent, ← append_assoc, blocks_append_comm hn.alone, append_assoc]
  rfl

theorem commit (hids : ∀ u ∈ before ++ after, u.transactionId ≠ t.transactionId) (commitId : ℕ) :
    NameInvariant name (h.record (.commit t.transactionId commitId)) (before ++ after)
      (recent ++ [{ t with commitId := commitId }])
      ((t.entriesOn name).foldl (CatalogVersion.commit commitId) versions) n := by
  obtain ⟨rest, htail⟩ := hn.tail_eq
  have hversions := hn.versions_commit hids commitId
  obtain ⟨hown, hrest⟩ := hn.values_split
  rw [hn.linked.foldl_commit commitId htail]
  set m := (t.entriesOn name).length with hm
  have haddress : ((versions.take m).map (setTimestamp commitId) ++
      versions.drop m).map (·.address) = versions.map (·.address) := by
    rw [map_append, map_map]
    conv_rhs => rw [← take_append_drop m versions, map_append]
    rfl
  have hlength : ((versions.take m).map (setTimestamp commitId) ++
      versions.drop m).length = versions.length := by
    simpa using congrArg List.length haddress
  refine ⟨⟨?_, haddress ▸ hn.linked.nodup⟩, fun v hv => ?_, ?_, ?_, fun hnil => ?_,
    hn.exclusive_rest, fun u hu => ?_, ?_⟩
  · have hparents : ∀ (above : Option ℕ) (k : ℕ) (l : List (CatalogVersion E)),
        LinkedFrom above l → LinkedFrom above
          ((l.take k).map (setTimestamp commitId) ++ l.drop k) := by
      intro above k l
      induction l generalizing above k with
      | nil => simp [LinkedFrom]
      | cons v l ih =>
        intro hl
        cases k with
        | zero => exact hl
        | succ k => exact ⟨hl.1, ih _ k hl.2⟩
    exact hparents none m versions hn.linked.parents
  · have hmem : v.address ∈ versions.map (·.address) := haddress ▸ mem_map_of_mem hv
    obtain ⟨w, hw, heq⟩ := mem_map.1 hmem
    rw [← heq]
    exact hn.fresh w hw
  · have hlinks := links_commit commitId hn.links_eq
    rw [length_reverse, ← hm] at hlinks
    rw [hlinks, hn.undoLinks_commit]
  · rw [hversions, map_append, append_assoc]
    have hkeys : ((versions.take m).map (setTimestamp commitId)).map key =
        (ownValues name h t).reverse.map (commitId, ·) := by
      have hsnd := congrArg (List.map fun k : ℕ × Option E => (commitId, k.2)) hown
      rw [map_map, map_map] at hsnd
      rw [map_map]
      exact hsnd
    rw [hkeys]
    exact (prefix_append_right_inj _).2 hrest
  · have hnil' : versions = [] := by
      rw [← length_eq_zero_iff, ← hlength, hnil, length_nil]
    have hall := hn.unknown hnil'
    rw [hn.versions_eq, append_eq_nil_iff, map_eq_nil_iff] at hall
    rw [hversions, hall.1, hall.2]
    rfl
  · have hu' : (h.record (.commit t.transactionId commitId)).pending u.transactionId =
        h.pending u.transactionId := Function.update_of_ne (hids u hu) _ _
    rw [hu']
    refine hn.pending u ?_
    rcases mem_append.1 hu with hu | hu <;> simp [hu]
  · have hdrop : ((ownValues name h t).reverse.map (commitId, ·) ++
        h.versions (before ++ after) name).drop (versions.length - 1) =
        (h.versions (before ++ t :: after) name).drop (versions.length - 1) := by
      rw [← hn.drop_versions, drop_append, hn.length_ownValues, drop_of_length_le, nil_append]
      rw [hn.length_ownValues]
      exact hn.length_entriesOn
    rw [hversions, hlength, hdrop]
    intro v hv u hu
    refine hn.lost v hv u ?_
    rcases mem_append.1 hu with hu | hu <;> simp [hu]

end

theorem number_eq (hn : NameInvariant name h active recent versions n) {i : ℕ} {v : ℕ × Option E}
    (hi : i < versions.length - 1) (hv : (h.versions active name)[i]? = some v) :
    ∃ address, (CatalogVersion.links versions)[i]? = some (v.1, address) := by
  obtain ⟨rest, hrest⟩ := hn.values
  have hlt : i < versions.length := by omega
  have hkey : (versions.map key)[i]? = some v := by
    have hlen : i < (h.versions active name).length := (List.getElem?_eq_some_iff.1 hv).1
    have happ : (versions.map key ++ rest)[i]? = (versions.map key)[i]? :=
      getElem?_append_left (by simpa using hlt)
    rw [← happ, hrest, getElem?_append_left hlen, hv]
  have htail : versions.tail[i]? = some versions[i + 1] := by
    rw [getElem?_tail, getElem?_eq_getElem]
  rw [getElem?_map, getElem?_eq_getElem hlt, Option.map_some, Option.some.injEq] at hkey
  refine ⟨versions[i + 1].address, ?_⟩
  rw [CatalogVersion.links, getElem?_zip_eq_some, getElem?_map, getElem?_map, htail,
    getElem?_eq_getElem hlt, ← hkey]
  exact ⟨rfl, rfl⟩

theorem cleanup (hn : NameInvariant name h active (t :: recent) versions n)
    (hseen : ∀ u ∈ active, t.commitId < u.startTime) :
    NameInvariant name h active recent
      ((t.entriesOn name).foldl CatalogVersion.cleanup versions) n := by
  have hlinks : CatalogVersion.links versions =
      undoLinks active recent name ++ (t.entriesOn name).reverse.map (t.commitId, ·) := by
    rw [hn.links, undoLinks, undoLinks, reverse_cons, blocks_append, ← append_assoc, blocks_cons]
    exact congrArg (_ ++ ·) (append_nil _)
  have htail : versions.tail.map (·.address) =
      (undoLinks active recent name).map (·.2) ++ (t.entriesOn name).reverse := by
    rw [← map_snd_links, hlinks, map_append, map_map]
    exact congrArg (_ ++ ·) (map_id _)
  rw [hn.linked.foldl_cleanup htail]
  set m := (t.entriesOn name).length with hm
  have hlen : versions.length - 1 = (undoLinks active recent name).length + m := by
    rw [← length_links, hlinks, length_append, length_map, length_reverse]
  have htake : (versions.take (versions.length - m)).length = versions.length - m := by
    rw [length_take]
    omega
  have hsub : versions.length - m - 1 = (undoLinks active recent name).length := by omega
  refine ⟨?_, fun v hv => hn.fresh v (mem_of_mem_take hv), ?_, ?_, fun hnil => ?_,
    hn.exclusive, hn.pending, ?_⟩
  · have hlinked := hn.linked
    rw [← take_append_drop (versions.length - m) versions] at hlinked
    exact hlinked.of_append
  · rw [links_take, hsub, hlinks, take_left]
  · rw [map_take]
    exact ( take_prefix _ _).trans hn.values
  · refine hn.unknown ?_
    rw [← length_eq_zero_iff]
    have := congrArg List.length hnil
    rw [htake, length_nil] at this
    omega
  · intro v hv u hu
    rw [htake, hsub] at hv
    -- a version below the new end of the chain is one of `t`, or it was lost before
    obtain ⟨i, hi⟩ := mem_iff_getElem?.1 hv
    rw [getElem?_drop] at hi
    by_cases hlt : (undoLinks active recent name).length + i < versions.length - 1
    · obtain ⟨address, hlink⟩ := hn.number_eq hlt hi
      rw [hlinks, getElem?_append_right (by omega)] at hlink
      obtain ⟨_, -, heq⟩ := mem_map.1 (mem_of_getElem? hlink)
      have htime : t.commitId = v.1 := congrArg Prod.fst heq
      rw [← htime]
      exact hseen u hu
    · refine hn.lost v ?_ u hu
      rw [mem_iff_getElem?]
      refine ⟨(undoLinks active recent name).length + i - (versions.length - 1), ?_⟩
      rw [getElem?_drop, Nat.add_sub_cancel' (by omega)]
      exact hi

/-- Transactions and histories that look alike from the name. -/
theorem congr {n' : ℕ} (hn : NameInvariant name h (before ++ t :: after) recent versions n)
    (hid : t'.transactionId = t.transactionId) (hstart : t'.startTime = t.startTime)
    (hentries : t'.entriesOn name = t.entriesOn name)
    (hpending : ∀ id, versionsOf name (h'.pending id) = versionsOf name (h.pending id))
    (hcommitted : h'.committed = h.committed) (hle : n ≤ n') :
    NameInvariant name h' (before ++ t' :: after) recent versions n' := by
  have hversions : h'.versions (before ++ t' :: after) name =
      h.versions (before ++ t :: after) name := by
    simp only [CatalogHistory.versions, blocks_append, blocks_cons, hid, hpending, hcommitted]
  have hmem : ∀ u ∈ before ++ t' :: after, ∃ w ∈ before ++ t :: after,
      u.transactionId = w.transactionId ∧ u.startTime = w.startTime ∧
        u.entriesOn name = w.entriesOn name := by
    intro u hu
    rcases mem_append.1 hu with hu | hu
    · exact ⟨u, by simp [hu], rfl, rfl, rfl⟩
    · rcases mem_cons.1 hu with rfl | hu
      · exact ⟨t, by simp, hid, hstart, hentries⟩
      · exact ⟨u, by simp [hu], rfl, rfl, rfl⟩
  refine ⟨hn.linked, fun v hv => (hn.fresh v hv).trans_le hle, ?_, hversions ▸ hn.values,
    fun hnil => hversions ▸ hn.unknown hnil, ?_, fun u hu => ?_, ?_⟩
  · rw [hn.links]
    simp only [undoLinks, blocks_append, blocks_cons, hid, hentries]
  · have hex := hn.exclusive
    simp only [pairwise_append, pairwise_cons, mem_cons, forall_eq_or_imp] at hex ⊢
    simpa only [hentries] using hex
  · obtain ⟨w, hw, hwid, -, hwent⟩ := hmem u hu
    rw [hwent, hwid, hpending, hn.pending w hw]
  · rw [hversions]
    intro v hv u hu
    obtain ⟨w, hw, -, hwstart, -⟩ := hmem u hu
    rw [hwstart]
    exact hn.lost v hv w hw

/-- The newest version has no conflict for `t`, so no other active transaction has written the
name. -/
theorem others_eq_nil (hn : NameInvariant name h (before ++ t :: after) recent (current :: older) n)
    (hids : ∀ u ∈ before ++ after, u.transactionId ≠ t.transactionId)
    (hge : ∀ u ∈ before ++ after, transactionIdStart ≤ u.transactionId)
    (hconf : current.conflicts t = false) : ∀ u ∈ before ++ after, u.entriesOn name = [] := by
  intro u hu
  by_contra hne
  obtain ⟨before', after', hsplit⟩ : ∃ before' after',
      before ++ t :: after = before' ++ u :: after' :=
    append_of_mem (by rcases mem_append.1 hu with hu | hu <;> simp [hu])
  have hn' := hn
  rw [hsplit] at hn'
  have hlinks := hn'.links_eq
  -- the newest version is one of `u`
  obtain ⟨last, entries, hentries⟩ := exists_cons_of_ne_nil
    (l := (u.entriesOn name).reverse) (by simpa using hne)
  rw [hentries] at hlinks
  cases older with
  | nil => simp [CatalogVersion.links] at hlinks
  | cons w older =>
    simp only [links_cons_cons, map_cons, cons_append, List.cons.injEq, Prod.mk.injEq] at hlinks
    have hstamp := hlinks.1.1
    simp only [conflicts, Bool.and_eq_false_imp, decide_eq_true_eq, hstamp, bne_eq_false_iff_eq]
      at hconf
    exact hids u hu (hconf (hge u hu))

theorem push (hn : NameInvariant name h (before ++ t :: after) recent (current :: older) n)
    (hids : ∀ u ∈ before ++ after, u.transactionId ≠ t.transactionId)
    (hothers : ∀ u ∈ before ++ after, u.entriesOn name = [])
    (hid : t'.transactionId = t.transactionId) (hstart : t'.startTime = t.startTime)
    (hentries : t'.entriesOn name = t.entriesOn name ++ [current.address]) (value : Option E) :
    NameInvariant name (h.record (.write t.transactionId (name, value))) (before ++ t' :: after)
      recent (⟨n, value, t.transactionId, none⟩ :: { current with parent := some n } :: older)
      (n + 1) := by
  have hmem : ∀ u ∈ before ++ after, u ∈ before ++ t :: after := by
    intro u hu
    rcases mem_append.1 hu with hu | hu <;> simp [hu]
  have hpending : ∀ u ∈ before ++ after,
      (h.record (.write t.transactionId (name, value))).pending u.transactionId =
        h.pending u.transactionId := fun u hu => Function.update_of_ne (hids u hu) _ _
  have hown : versionsOf name
      ((h.record (.write t.transactionId (name, value))).pending t'.transactionId) =
      ownValues name h t ++ [value] := by
    simp [CatalogHistory.record, versionsOf, ownValues, hid]
  have hvalues : ∀ u ∈ before ++ after, ownValues name h u = [] := fun u hu =>
    (hn.ownValues_eq_nil_iff (hmem u hu)).2 (hothers u hu)
  have hversions : (h.record (.write t.transactionId (name, value))).versions
      (before ++ t' :: after) name =
      (t.transactionId, value) :: h.versions (before ++ t :: after) name := by
    rw [hn.versions_eq, CatalogHistory.versions, blocks_middle, hown, reverse_append, hid]
    · rw [CatalogHistory.versions, ← append_assoc, ← cons_append]
      congr 1
      have hrest : blocks (·.transactionId) (fun u => versionsOf name
          ((h.record (.write t.transactionId (name, value))).pending u.transactionId))
          (before ++ after) = blocks (·.transactionId) (ownValues name h) (before ++ after) := by
        refine flatMap_congr fun u hu => ?_
        simp only [hpending u hu, ownValues]
      rw [hrest]
      rfl
    · right
      intro u hu
      rw [hpending u hu]
      exact hvalues u hu
  have hlinks : undoLinks (before ++ t' :: after) recent name =
      (t.transactionId, current.address) :: CatalogVersion.links (current :: older) := by
    rw [hn.links_eq, undoLinks, blocks_middle (.inr hothers), hentries, reverse_append, hid,
      undoLinks]
    rw [append_assoc, ← cons_append]
    rfl
  have hcases : ∀ u ∈ before ++ t' :: after, u = t' ∨ u ∈ before ++ after := by
    intro u hu
    simp only [mem_append, mem_cons] at hu ⊢
    tauto
  refine ⟨⟨⟨rfl, rfl, hn.linked.parents.2⟩, ?_⟩, fun v hv => ?_, ?_, ?_, fun hnil => ?_, ?_,
    fun u hu => ?_, ?_⟩
  · refine nodup_cons.2 ⟨fun hmem => ?_, hn.linked.nodup⟩
    obtain ⟨v, hv, heq⟩ := mem_map.1 hmem
    have hlt : v.address < n := by
      rcases mem_cons.1 hv with rfl | hv
      · exact hn.fresh current (by simp)
      · exact hn.fresh v (by simp [hv])
    exact absurd heq hlt.ne
  · rcases mem_cons.1 hv with rfl | hv
    · exact Nat.lt_succ_self n
    · rcases mem_cons.1 hv with rfl | hv
      · exact (hn.fresh current (by simp)).trans (Nat.lt_succ_self n)
      · exact (hn.fresh v (by simp [hv])).trans (Nat.lt_succ_self n)
  · rw [hlinks]
    rfl
  · rw [hversions, cons_append]
    exact cons_prefix_cons.2 ⟨rfl, hn.values⟩
  · simp at hnil
  · have hex := hn.exclusive_rest
    simp only [pairwise_append, pairwise_cons, mem_cons] at hex ⊢
    refine ⟨hex.1, ⟨fun u hu => .inr (hothers u (by simp [hu])), hex.2.1⟩, fun u hu w hw => ?_⟩
    rcases hw with rfl | hw
    · exact .inl (hothers u (by simp [hu]))
    · exact hex.2.2 u hu w hw
  · rcases hcases u hu with rfl | hu
    · rw [hown, hentries, length_append, length_append, hn.pending t (by simp)]
      rfl
    · rw [hpending u hu]
      exact hn.pending u (hmem u hu)
  · rw [hversions]
    intro v hv u hu
    have hv' : v ∈ (h.versions (before ++ t :: after) name).drop
        ((current :: older).length - 1) := hv
    rcases hcases u hu with rfl | hu
    · rw [hstart]
      exact hn.lost v hv' t (by simp)
    · exact hn.lost v hv' u (hmem u hu)

theorem dummy (hn : NameInvariant name h active recent ([] : List (CatalogVersion E)) n) :
    NameInvariant name h active recent [⟨n, none, 0, none⟩] (n + 1) where
  linked := ⟨⟨rfl, trivial⟩, nodup_singleton n⟩
  fresh v hv := by
    rw [mem_singleton.1 hv]
    exact Nat.lt_succ_self n
  links := hn.links
  values := by
    rw [hn.unknown rfl]
    exact prefix_refl _
  unknown hnil := by simp at hnil
  exclusive := hn.exclusive
  pending := hn.pending
  lost := hn.lost

theorem start (hn : NameInvariant name h active recent versions n)
    (hentries : t.entriesOn name = []) (hpending : h.pending t.transactionId = [])
    (hcommitted : ∀ c ∈ h.committed, c.commitId < t.startTime) :
    NameInvariant name h (active ++ [t]) recent versions n := by
  have hversions : h.versions (active ++ [t]) name = h.versions active name := by
    simp only [CatalogHistory.versions, blocks_append, blocks_cons, hpending]
    simp [versionsOf, blocks]
  refine ⟨hn.linked, hn.fresh, ?_, hversions ▸ hn.values, fun hnil => hversions ▸ hn.unknown hnil,
    ?_, fun u hu => ?_, ?_⟩
  · rw [hn.links]
    simp only [undoLinks, blocks_append, blocks_cons, hentries]
    simp [blocks]
  · refine pairwise_append.2 ⟨hn.exclusive, pairwise_singleton _ _, fun u _ w hw => ?_⟩
    rw [mem_singleton.1 hw]
    exact .inr hentries
  · rcases mem_append.1 hu with hu | hu
    · exact hn.pending u hu
    · rw [mem_singleton.1 hu, hentries, hpending]
      rfl
  · rw [hversions]
    intro v hv u hu
    rcases mem_append.1 hu with hu | hu
    · exact hn.lost v hv u hu
    · rw [mem_singleton.1 hu]
      -- the versions of active transactions are all in the chain
      have hlen : (blocks (·.transactionId)
          (fun u => versionsOf name (h.pending u.transactionId)) active).length ≤
          versions.length - 1 := by
        rw [← length_links, hn.links, undoLinks, length_append,
          ← length_blocks (·.transactionId) hn.pending]
        exact Nat.le_add_right _ _
      rw [CatalogHistory.versions, drop_append, drop_of_length_le hlen, nil_append] at hv
      obtain ⟨c, hc, hnumber, -⟩ := mem_blocks.1 (mem_of_mem_drop hv)
      rw [hnumber]
      exact hcommitted c (mem_reverse.1 hc)

theorem clean (hn : NameInvariant name h active recent versions n)
    {seen : Transaction EntryPointer → Bool}
    (hseen : ∀ t, seen t → ∀ u ∈ active, t.commitId < u.startTime) :
    NameInvariant name h active (recent.dropWhile seen) ((recent.takeWhile seen).foldl
        (fun versions t => (t.entriesOn name).foldl CatalogVersion.cleanup versions) versions)
      n := by
  induction recent generalizing versions with
  | nil => exact hn
  | cons t recent ih =>
    by_cases ht : seen t
    · rw [dropWhile_cons_of_pos ht, takeWhile_cons_of_pos ht, foldl_cons]
      exact ih (hn.cleanup (hseen t ht))
    · rw [dropWhile_cons_of_neg ht, takeWhile_cons_of_neg ht]
      exact hn

end NameInvariant

end DuckDB
