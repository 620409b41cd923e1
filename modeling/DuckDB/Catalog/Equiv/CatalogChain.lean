import DuckDB.Catalog.CatalogSet
import Mathlib.Data.List.Nodup
import Mathlib.Data.List.TakeDrop

/-!
# Version chains of a catalog set

In the chains that the catalog set builds, every version knows the one above it (`Linked`). The
undo entries of a transaction point to the versions below the ones it wrote, so that

* commit gives the commit id to the newest versions of the chain (`foldl_commit`);
* rollback takes the newest versions off (`foldl_undo`);
* cleanup takes the oldest versions off (`foldl_cleanup`).

`getEntryForTransaction_eq` says what a reader gets from a chain whose oldest versions may be gone.
-/

namespace DuckDB.CatalogVersion

open List

variable {E C : Type*} {versions older newer : List (CatalogVersion E)} {v w : CatalogVersion E}
  {addresses rest : List ℕ}

/-! ### Links -/

/-- Every version knows the one above it; `above` is the parent of the first one. -/
def LinkedFrom : Option ℕ → List (CatalogVersion E) → Prop
  | _, [] => True
  | above, v :: older => v.parent = above ∧ LinkedFrom (some v.address) older

/-- A chain of versions as the catalog set builds it. -/
structure Linked (versions : List (CatalogVersion E)) : Prop where
  parents : LinkedFrom none versions
  nodup : (versions.map (·.address)).Nodup

variable {above : Option ℕ}

theorem LinkedFrom.getElem? (h : LinkedFrom above versions) {i : ℕ} (hv : versions[i]? = some v)
    (hw : versions[i + 1]? = some w) : w.parent = some v.address := by
  induction versions generalizing above i with
  | nil => simp at hv
  | cons u older ih =>
    cases i with
    | zero =>
      simp only [getElem?_cons_zero, Option.some.injEq] at hv
      cases older with
      | nil => simp at hw
      | cons u' older =>
        simp only [Nat.zero_add, getElem?_cons_succ, getElem?_cons_zero, Option.some.injEq] at hw
        rw [← hv, ← hw]
        exact h.2.1
    | succ i => exact ih h.2 (by simpa using hv) (by simpa using hw)

theorem LinkedFrom.of_append (h : LinkedFrom above (newer ++ older)) : LinkedFrom above newer := by
  induction newer generalizing above with
  | nil => trivial
  | cons v newer ih => exact ⟨h.1, ih h.2⟩

theorem Linked.of_append (h : Linked (newer ++ older)) : Linked newer :=
  ⟨h.parents.of_append, (nodup_append.1 (map_append ▸ h.nodup)).1⟩

/-- Versions are told apart by their addresses. -/
theorem find?_address (hnd : (versions.map (·.address)).Nodup) (hv : v ∈ versions) :
    versions.find? (·.address = v.address) = some v := by
  induction versions with
  | nil => simp at hv
  | cons u older ih =>
    rw [map_cons, nodup_cons] at hnd
    rcases mem_cons.1 hv with rfl | hv
    · simp
    · have hne : u.address ≠ v.address := fun heq => hnd.1 (heq ▸ mem_map_of_mem hv)
      rw [find?_cons_of_neg (by simpa using hne)]
      exact ih hnd.2 hv

theorem Linked.parentOf_mem (h : Linked versions) (hv : v ∈ versions) :
    parentOf versions v.address = v.parent := by
  rw [parentOf, find?_address h.nodup hv]
  rfl

/-- The parents of the versions below the first one are the versions before the last one. -/
theorem Linked.map_parentOf (h : Linked versions) :
    (versions.tail.map (·.address)).map (parentOf versions) =
      versions.dropLast.map fun v => some v.address := by
  refine ext_getElem? fun i => ?_
  rw [map_map, getElem?_map, getElem?_map, getElem?_tail, getElem?_dropLast]
  by_cases hi : i < versions.length - 1
  · have hlt : i + 1 < versions.length := by omega
    have hw : versions[i + 1]? = some versions[i + 1] := getElem?_eq_getElem hlt
    have hv : versions[i]? = some versions[i] := getElem?_eq_getElem (by omega)
    rw [if_pos hi, hw, hv, Option.map_some, Option.map_some, Function.comp_apply,
      h.parentOf_mem (getElem_mem hlt), h.parents.getElem? hv hw]
  · have hnone : versions[i + 1]? = none := getElem?_eq_none (by omega)
    rw [if_neg hi, hnone, Option.map_none, Option.map_none]

/-! ### Commit -/

@[simp] theorem address_setTimestamp {timestamp : ℕ} :
    (v.setTimestamp timestamp).address = v.address :=
  rfl

@[simp] theorem setTimestamp_setTimestamp {timestamp timestamp' : ℕ} :
    (v.setTimestamp timestamp').setTimestamp timestamp = v.setTimestamp timestamp :=
  rfl

theorem parentOf_commit (commitId address address' : ℕ) (versions : List (CatalogVersion E)) :
    parentOf (commit commitId versions address) address' = parentOf versions address' := by
  have hmap : ∀ (p : Option ℕ) (l : List (CatalogVersion E)),
      parentOf (l.map fun v => if some v.address = p then v.setTimestamp commitId else v)
        address' = parentOf l address' := by
    intro p l
    induction l with
    | nil => rfl
    | cons v l ih =>
      simp only [parentOf, map_cons] at ih ⊢
      by_cases hv : v.address = address'
      · rw [find?_cons_of_pos (by split_ifs <;> simp [hv]), find?_cons_of_pos (by simpa using hv)]
        split_ifs <;> rfl
      · rw [find?_cons_of_neg (by split_ifs <;> simp [hv]), find?_cons_of_neg (by simpa using hv)]
        exact ih
  exact hmap _ versions

/-- The commit of several entries: the versions above them get the commit id. -/
theorem foldl_commit_eq_map {commitId : ℕ} :
    addresses.foldl (commit commitId) versions = versions.map fun v =>
        if some v.address ∈ addresses.map (parentOf versions) then v.setTimestamp commitId
        else v := by
  induction addresses generalizing versions with
  | nil => simp
  | cons address addresses ih =>
    rw [foldl_cons, ih]
    have hparents : addresses.map (parentOf (commit commitId versions address)) =
        addresses.map (parentOf versions) :=
      map_congr_left fun a _ => parentOf_commit commitId address a versions
    rw [hparents, commit, map_map]
    refine map_congr_left fun v _ => ?_
    simp only [Function.comp_apply, map_cons, mem_cons]
    by_cases hv : some v.address = parentOf versions address
    · simp [hv]
    · simp [hv]

/-- **Commit**: if the entries are those below the `n` newest versions, these get the commit id. -/
theorem Linked.foldl_commit (h : Linked versions) (commitId : ℕ)
    (htail : versions.tail.map (·.address) = addresses.reverse ++ rest) :
    addresses.foldl (commit commitId) versions =
      (versions.take addresses.length).map (setTimestamp commitId) ++
        versions.drop addresses.length := by
  have hparents : addresses.reverse.map (parentOf versions) =
      (versions.dropLast.take addresses.length).map fun v => some v.address := by
    have hmap := congrArg (List.take addresses.length) h.map_parentOf
    rw [htail, map_append, take_append_of_le_length (by simp), take_of_length_le (by simp)] at hmap
    rw [hmap, map_take]
  have hlen : addresses.length ≤ versions.length - 1 := by
    have := congrArg List.length htail
    simp only [length_map, length_tail, length_append, length_reverse] at this
    omega
  have htake : versions.dropLast.take addresses.length = versions.take addresses.length := by
    rw [dropLast_eq_take, take_take, Nat.min_eq_left hlen]
  have hmem : ∀ v : CatalogVersion E, some v.address ∈ addresses.map (parentOf versions) ↔
      v.address ∈ (versions.take addresses.length).map (·.address) := by
    intro v
    rw [← mem_reverse, ← map_reverse, hparents, htake]
    simp only [mem_map, Option.some.injEq]
  rw [foldl_commit_eq_map]
  conv_lhs => rw [← take_append_drop addresses.length versions, map_append]
  congr 1
  · refine map_congr_left fun v hv => ?_
    rw [take_append_drop, if_pos ((hmem v).2 (mem_map_of_mem hv))]
  · conv_rhs => rw [← map_id (versions.drop addresses.length)]
    refine map_congr_left fun v hv => ?_
    rw [take_append_drop, if_neg, id]
    rw [hmem v]
    intro hv'
    have hnd := h.nodup
    rw [← take_append_drop addresses.length versions, map_append, nodup_append] at hnd
    exact hnd.2.2 _ hv' _ (mem_map_of_mem hv) rfl

/-! ### Rollback -/

/-- The first version of the chain loses its parent. -/
def unparent : List (CatalogVersion E) → List (CatalogVersion E)
  | [] => []
  | v :: older => { v with parent := none } :: older

theorem Linked.unparent_eq (h : Linked versions) : unparent versions = versions := by
  cases versions with
  | nil => rfl
  | cons v older =>
    have hv : v.parent = none := h.parents.1
    rw [unparent, ← hv]

theorem Linked.undo_eq (h : Linked (v :: w :: older)) :
    undo (v :: w :: older) w.address = { w with parent := none } :: older := by
  obtain ⟨hv, hw, -⟩ := h.parents
  have hnd := h.nodup
  simp only [map_cons, nodup_cons, mem_cons, not_or] at hnd
  obtain ⟨⟨hvw, hvo⟩, hwo, -⟩ := hnd
  have hparent : parentOf (v :: w :: older) w.address = some v.address := by
    rw [h.parentOf_mem (by simp), hw]
  have htop : parentOf (v :: w :: older) v.address = none := by
    rw [h.parentOf_mem (by simp), hv]
  have hfilter : (v :: w :: older).filter (·.address ≠ v.address) = w :: older := by
    rw [filter_cons_of_neg (by simp)]
    refine filter_eq_self.2 fun u hu => ?_
    rcases mem_cons.1 hu with rfl | hu
    · simpa using Ne.symm hvw
    · simp only [ne_eq, decide_not, Bool.not_eq_eq_eq_not, Bool.not_true, decide_eq_false_iff_not]
      exact fun heq => hvo (heq ▸ mem_map_of_mem hu)
  simp only [undo, hparent, htop, hfilter, map_cons, if_pos]
  congr 1
  conv_rhs => rw [← map_id older]
  refine map_congr_left fun u hu => ?_
  have hne : u.address ≠ w.address := by
    intro heq
    rw [← heq] at hwo
    exact hwo (mem_map_of_mem hu)
  rw [if_neg hne, id]

theorem Linked.tail_unparent (h : Linked (v :: w :: older)) :
    Linked ({ w with parent := none } :: older) where
  parents := ⟨rfl, h.parents.2.2⟩
  nodup := (nodup_cons.1 h.nodup).2

/-- **Rollback**: if the entries are those below the newest versions, newest first, these are taken
off the chain. -/
theorem Linked.foldl_undo (h : Linked versions)
    (htail : versions.tail.map (·.address) = addresses ++ rest) :
    addresses.foldl undo versions = unparent (versions.drop addresses.length) := by
  induction addresses generalizing versions with
  | nil => exact h.unparent_eq.symm
  | cons address addresses ih =>
    obtain ⟨v, w, older, rfl⟩ : ∃ v w older, versions = v :: w :: older := by
      match versions, htail with
      | v :: w :: older, _ => exact ⟨v, w, older, rfl⟩
    simp only [tail_cons, map_cons, cons_append, List.cons.injEq] at htail
    obtain ⟨rfl, htail⟩ := htail
    rw [foldl_cons, h.undo_eq, ih h.tail_unparent htail, length_cons, drop_succ_cons]
    -- the head that `undo` left without parent is dropped, or it is the result
    cases addresses <;> rfl

theorem Linked.unparent_drop (h : Linked versions) {n : ℕ} :
    Linked (unparent (versions.drop n)) := by
  induction n generalizing versions with
  | zero => rwa [drop_zero, h.unparent_eq]
  | succ n ih =>
    match versions, h with
    | [], _ => exact ⟨trivial, nodup_nil⟩
    | [v], _ =>
      rw [drop_succ_cons, drop_nil]
      exact ⟨trivial, nodup_nil⟩
    | v :: w :: older, h =>
      have hrest := ih h.tail_unparent
      cases n with
      | zero => simpa [unparent] using hrest
      | succ n => simpa using hrest

/-! ### Cleanup -/

theorem Linked.cleanup_eq (h : Linked (newer ++ [v])) (hnewer : newer ≠ []) :
    cleanup (newer ++ [v]) v.address = newer := by
  have hnd := h.nodup
  simp only [map_append, map_cons, map_nil, nodup_append] at hnd
  have hparent : ∃ p, parentOf (newer ++ [v]) v.address = some p := by
    rw [h.parentOf_mem (by simp)]
    have hlt : newer.length - 1 < newer.length := by
      have := length_pos_iff.2 hnewer
      omega
    have habove : (newer ++ [v])[newer.length - 1]? = some newer[newer.length - 1] := by
      rw [getElem?_append_left hlt, getElem?_eq_getElem hlt]
    have hlast : (newer ++ [v])[newer.length - 1 + 1]? = some v := by
      have hsucc : newer.length - 1 + 1 = newer.length := by omega
      rw [hsucc, getElem?_append_right (le_refl _)]
      simp
    exact ⟨_, h.parents.getElem? habove hlast⟩
  obtain ⟨p, hp⟩ := hparent
  simp only [cleanup, hp]
  rw [filter_append, filter_cons_of_neg (by simp), filter_nil, append_nil]
  refine filter_eq_self.2 fun u hu => ?_
  simpa using hnd.2.2 _ (mem_map_of_mem hu) _ (by simp)

/-- **Cleanup**: if the entries are the oldest versions of the chain, oldest first, these are taken
off the chain. -/
theorem Linked.foldl_cleanup (h : Linked versions)
    (htail : versions.tail.map (·.address) = rest ++ addresses.reverse) :
    addresses.foldl cleanup versions = versions.take (versions.length - addresses.length) := by
  induction addresses generalizing versions with
  | nil => simp
  | cons address addresses ih =>
    have hne : versions ≠ [] := by
      rintro rfl
      simp at htail
    obtain ⟨newer, v, rfl⟩ := (eq_nil_or_concat' versions).resolve_left hne
    have hnewer : newer ≠ [] := by
      rintro rfl
      simp at htail
    rw [tail_append_of_ne_nil hnewer, map_append, reverse_cons, ← append_assoc] at htail
    obtain ⟨hrest, hv⟩ := append_inj' htail rfl
    obtain rfl : v.address = address := by simpa using hv
    rw [foldl_cons, h.cleanup_eq hnewer, ih h.of_append hrest]
    rw [length_append, length_cons, length_cons, length_nil]
    have hsub : newer.length + (0 + 1) - (addresses.length + 1) =
        newer.length - addresses.length := by omega
    rw [hsub, take_append_of_le_length (by omega)]

/-! ### Reading -/

/-- What a version says: its timestamp and its value. -/
def key (v : CatalogVersion E) : ℕ × Option E :=
  (v.timestamp, v.value)

/-- **Reading a chain**: let the chain be the newest part of a list of versions, with the dummy node
at the end of the list. If the reader sees the oldest version of the chain and all those below it,
it gets the newest version of the list that it sees. -/
theorem getEntryForTransaction_eq {transaction : Transaction C} {all : List (ℕ × Option E)}
    (hne : versions ≠ []) (hall : versions.map key <+: all ++ [(0, none)])
    (hold : ∀ v ∈ all.drop (versions.length - 1), transaction.sees v.1) :
    (getEntryForTransaction transaction versions).bind (·.value) =
      (all.find? (transaction.sees ·.1)).bind (·.2) := by
  induction versions generalizing all with
  | nil => exact absurd rfl hne
  | cons v older ih =>
    cases all with
    | nil =>
      -- only the dummy node is left
      obtain ⟨rest, hrest⟩ := hall
      simp only [map_cons, nil_append, cons_append, List.cons.injEq,
        append_eq_nil_iff, map_eq_nil_iff] at hrest
      obtain ⟨hv, rfl, -⟩ := hrest
      have hvalue : v.value = none := congrArg Prod.snd hv
      simpa [getEntryForTransaction] using hvalue
    | cons a all =>
      rw [map_cons, cons_append, cons_prefix_cons] at hall
      obtain ⟨rfl, hall⟩ := hall
      cases older with
      | nil =>
        have hsees : transaction.sees v.key.1 := hold _ (by simp)
        rw [find?_cons, hsees]
        rfl
      | cons w older =>
        rw [find?_cons, getEntryForTransaction]
        by_cases hsees : transaction.sees v.timestamp
        · rw [if_pos hsees, key, hsees]
          rfl
        · rw [if_neg hsees, key, Bool.eq_false_iff.2 hsees]
          exact ih (by simp) hall hold

end DuckDB.CatalogVersion
