import DuckDB.Common.Equiv.ChunkCollection
import DuckDB.Execution.PhysicalCrossProduct
import Mathlib.Data.List.GetD

/-!
# Correctness of the cross product

* `getChunk_of_ready`: a call pairs the next row of the left child with the next chunk of the right
  one.
* `execute_perm_iff`: when all pairs are returned, each one once.
-/

namespace DuckDB.PhysicalCrossProduct

open List ChunkCollection

variable {right : Chunks (List Value)} {s : CrossProductState}

/-! ### Collecting -/

variable {chunks rightData : List (List (List Value))}

theorem flatten_fillChunks (chunks : List (List (List Value))) (newChunk : List (List Value)) :
    (fillChunks chunks newChunk).flatten = chunks.flatten ++ newChunk := by
  rw [fillChunks]
  split_ifs with hnew
  · rw [hnew, append_nil]
  cases hlast : chunks.getLast? with
  | none => simp [getLast?_eq_none_iff.1 hlast]
  | some lastChunk =>
    obtain ⟨before, rfl⟩ := getLast?_eq_some_iff.1 hlast
    dsimp only
    split_ifs with hadded
    · simp [take_append_drop]
    · rw [take_of_length_le (not_lt.1 hadded)]
      simp

theorem ne_nil_of_mem_fillChunks {newChunk chunk : List (List Value)}
    (hchunks : ∀ chunk ∈ chunks, chunk ≠ []) (h : chunk ∈ fillChunks chunks newChunk) :
    chunk ≠ [] := by
  rw [fillChunks] at h
  split_ifs at h with hnew
  · exact hchunks chunk h
  cases hlast : chunks.getLast? with
  | none =>
    rw [hlast] at h
    exact mem_singleton.1 h ▸ hnew
  | some lastChunk =>
    obtain ⟨before, rfl⟩ := getLast?_eq_some_iff.1 hlast
    have hne : lastChunk ≠ [] := hchunks lastChunk (by simp)
    simp only [hlast, dropLast_concat] at h
    split_ifs at h with hadded
    · simp only [append_assoc, mem_append, mem_cons, not_mem_nil, or_false] at h
      rcases h with h | rfl | rfl
      · exact hchunks chunk (mem_append_left _ h)
      · exact append_ne_nil_of_left_ne_nil hne _
      · exact drop_eq_nil_iff.not.2 (by omega)
    · rcases mem_append.1 h with h | h
      · exact hchunks chunk (mem_append_left _ h)
      · exact mem_singleton.1 h ▸ append_ne_nil_of_left_ne_nil hne _

/-- The types that can be collected. -/
def Collectable (v : Value) : Prop := v.type ≠ .invalid ∧ v.type ≠ .varbinary

theorem copyEntry_eq_ok_iff (v w : Value) : copyEntry v = .ok w ↔ w = v ∧ Collectable v := by
  unfold copyEntry Collectable
  cases v.type <;> simp [pure, Except.pure, eq_comm]

variable (chunks) in
theorem foldlM_append_eq_ok_iff {input : List (List (List Value))} :
    input.foldlM append chunks = .ok rightData ↔
      rightData = input.foldl fillChunks chunks ∧
        ∀ row ∈ input.flatten, ∀ v ∈ row, Collectable v := by
  have hcopy := mapM_eq_ok_self_iff (mapM_eq_ok_self_iff copyEntry_eq_ok_iff)
  induction input generalizing chunks with
  | nil => simp [pure, Except.pure, eq_comm]
  | cons chunk input ih =>
    simp only [foldlM_cons, append, bind_eq_ok, return_eq_ok, hcopy, foldl_cons, flatten_cons,
      forall_mem_append]
    constructor
    · rintro ⟨_, ⟨_, ⟨rfl, hchunk⟩, rfl⟩, hrest⟩
      exact ⟨((ih _).1 hrest).1, hchunk, ((ih _).1 hrest).2⟩
    · rintro ⟨rfl, hchunk, hrest⟩
      exact ⟨_, ⟨chunk, ⟨rfl, hchunk⟩, rfl⟩, (ih _).2 ⟨rfl, hrest⟩⟩

theorem foldl_fillChunks (input : List (List (List Value))) :
    (input.foldl fillChunks []).flatten = input.flatten ∧
      ∀ chunk ∈ input.foldl fillChunks [], chunk ≠ [] := by
  induction input using reverseRecOn with
  | nil => simp
  | append_singleton input chunk ih =>
    rw [foldl_append, foldl_cons, foldl_nil, flatten_fillChunks, ih.1, flatten_append]
    exact ⟨by simp, fun c hc => ne_nil_of_mem_fillChunks ih.2 hc⟩

/-! ### Calls -/

/-- The pairs that are still to be returned, in the order of the calls. -/
def pending (s : CrossProductState) : List (List Value × List (List Value)) :=
  (s.childChunk.drop s.leftPosition).map (·, s.rightData.getD s.rightPosition []) ++
    (s.rightData.drop (s.rightPosition + 1)).flatMap (fun chunk => s.childChunk.map (·, chunk)) ++
    s.leftRest.flatMap fun left => s.rightData.flatMap fun chunk => left.map (·, chunk)

/-- The state between two calls. -/
structure Ready (s : CrossProductState) : Prop where
  rightPosition_lt : s.rightPosition < s.rightData.length
  leftPosition_lt : s.leftPosition < s.childChunk.length ∨
    s.leftPosition = 0 ∧ s.childChunk = [] ∧ s.leftRest = []
  left_ne : ∀ chunk ∈ s.leftRest, chunk ≠ []
  right_ne : ∀ chunk ∈ s.rightData, chunk ≠ []

theorem ready_nextChunk (hdata : s.rightData ≠ []) (hleft : ∀ chunk ∈ s.leftRest, chunk ≠ [])
    (hright : ∀ chunk ∈ s.rightData, chunk ≠ []) :
    Ready (nextChunk { s with leftPosition := 0, rightPosition := 0 }) ∧
      pending (nextChunk { s with leftPosition := 0, rightPosition := 0 }) =
        s.leftRest.flatMap fun left => s.rightData.flatMap fun chunk => left.map (·, chunk) := by
  obtain ⟨first, rest, hfirst⟩ := exists_cons_of_ne_nil hdata
  cases hrest : s.leftRest with
  | nil =>
    refine ⟨⟨length_pos_iff.2 hdata, .inr ?_, ?_, hright⟩, ?_⟩ <;> simp [nextChunk, pending]
  | cons left leftRest =>
    rw [hrest] at hleft
    refine ⟨⟨length_pos_iff.2 hdata, .inl (length_pos_iff.2 (hleft left (mem_cons_self ..))),
      fun chunk hc => hleft chunk (mem_cons_of_mem _ hc), hright⟩, ?_⟩
    simp [pending, nextChunk, hfirst]

theorem advance_of_ready {l : List Value} (h : Ready s)
    (hl : s.childChunk[s.leftPosition]? = some l) :
    Ready (advance s) ∧
      pending s = (l, s.rightData.getD s.rightPosition []) :: pending (advance s) := by
  obtain ⟨hlt, hget⟩ := List.getElem?_eq_some_iff.1 hl
  have hdrop : s.childChunk.drop s.leftPosition = l :: s.childChunk.drop (s.leftPosition + 1) := by
    rw [drop_eq_getElem_cons hlt, hget]
  rw [advance]
  split_ifs with hnext hright
  · refine ⟨⟨h.rightPosition_lt, .inl hnext, h.left_ne, h.right_ne⟩, ?_⟩
    simp [pending, hdrop]
  · refine ⟨⟨hright, .inl (by dsimp only; omega), h.left_ne, h.right_ne⟩, ?_⟩
    have hend : s.childChunk.drop (s.leftPosition + 1) = [] := drop_eq_nil_iff.2 (by omega)
    simp only [pending, hdrop, hend, drop_eq_getElem_cons hright, getD_eq_getElem _ _ hright,
      map_cons, map_nil, flatMap_cons, drop_zero, cons_append, nil_append, append_assoc]
  · have hdata : s.rightData ≠ [] := length_pos_iff.1 (by have := h.rightPosition_lt; omega)
    obtain ⟨hready, hpending⟩ := ready_nextChunk hdata h.left_ne h.right_ne
    have hend : s.childChunk.drop (s.leftPosition + 1) = [] := drop_eq_nil_iff.2 (by omega)
    have hend' : s.rightData.drop (s.rightPosition + 1) = [] := drop_eq_nil_iff.2 (by omega)
    refine ⟨hready, ?_⟩
    rw [hpending, pending, hdrop, hend, hend']
    simp

/-- The chunk for a pair. -/
def emit (pair : List Value × List (List Value)) : Except Exception (List (List Value)) := do
  let left ← copyRow pair.1
  return pair.2.map (left ++ ·)

/-- **One call** returns the chunk for the next pair. -/
theorem getChunk_of_ready (h : Ready s) :
    (pending s = [] ∧ getChunk right s = .ok ([], s)) ∨
      ∃ pair s', Ready s' ∧ pair.2 ≠ [] ∧ pending s = pair :: pending s' ∧
        getChunk right s = (emit pair).map (·, s') := by
  have hdata : s.rightData ≠ [] := length_pos_iff.1 (by have := h.rightPosition_lt; omega)
  have hget : s.rightData[s.rightPosition]? = some (s.rightData.getD s.rightPosition []) := by
    rw [getElem?_eq_getElem h.rightPosition_lt, getD_eq_getElem _ _ h.rightPosition_lt]
  have hmaterialize : materialize right s = .ok s := if_pos hdata
  cases hl : s.childChunk[s.leftPosition]? with
  | none =>
    have hlength := getElem?_eq_none_iff.1 hl
    obtain ⟨hzero, hchild, hrest⟩ := h.leftPosition_lt.resolve_left (not_lt.2 hlength)
    refine .inl ⟨by simp [pending, hchild, hrest], ?_⟩
    simp only [getChunk, hmaterialize, bind, Except.bind, hl]
    rw [if_neg hdata]
    rfl
  | some l =>
    obtain ⟨hready, hpending⟩ := advance_of_ready h hl
    refine .inr ⟨_, advance s, hready, h.right_ne _ (mem_of_getElem? hget), hpending, ?_⟩
    simp only [getChunk, hmaterialize, bind, Except.bind, hl, hget]
    rw [if_neg hdata, emit]
    cases copyRow l <;> rfl

/-- **All calls** return the chunks of all pairs. -/
theorem execute_of_ready (h : Ready s) (fuel : ℕ) :
    execute right fuel s = ((pending s).take fuel).mapM emit >>= fun chunks =>
      return if (pending s).length < fuel then some chunks else none := by
  induction fuel generalizing s with
  | zero => simp [execute]
  | succ fuel ih =>
    rw [execute]
    rcases getChunk_of_ready h with ⟨hpending, hcall⟩ | ⟨pair, s', hready, hne, hpending, hcall⟩
    · rw [hcall, hpending]
      rfl
    · rw [hcall, hpending, take_succ_cons, mapM_cons]
      cases hpair : emit pair with
      | error e => rfl
      | ok chunk =>
        have hchunk : chunk ≠ [] := by
          rw [emit, bind_eq_ok] at hpair
          obtain ⟨left, -, hchunk⟩ := hpair
          rw [← return_eq_ok.1 hchunk, ne_eq, map_eq_nil_iff]
          exact hne
        have hlength : (pair :: pending s').length < fuel + 1 ↔ (pending s').length < fuel :=
          Nat.succ_lt_succ_iff
        simp only [Except.map, bind, Except.bind, if_neg hchunk, ih hready, hlength]
        cases ((pending s').take fuel).mapM emit with
        | error e => rfl
        | ok chunks =>
          by_cases hfuel : (pending s').length < fuel <;> simp [hfuel, pure, Except.pure]

/-! ### All pairs -/

/-- The values that can be read. -/
def Readable (v : Value) : Prop :=
  v ≠ .invalid ∧ (∀ val, v ≠ .varbinary val) ∧
    ∀ val, v = .varchar val → Value.isUTF8String (some (val ++ [0])) = some true

theorem set_eq_ok_iff (v w : Value) :
    set v = .ok w ↔ w = v ∧ v ≠ .invalid ∧ ∀ val, v ≠ .varbinary val := by
  cases v <;> simp [set, pure, Except.pure, eq_comm]

theorem emit_eq_ok_iff {pair : List Value × List (List Value)} {chunk : List (List Value)} :
    emit pair = .ok chunk ↔ chunk = pair.2.map (pair.1 ++ ·) ∧ ∀ v ∈ pair.1, Readable v := by
  have hset : ∀ v w, (getValue v >>= set) = .ok w ↔ w = v ∧ Readable v := by
    intro v w
    simp only [bind_eq_ok, getValue_eq_ok_iff, set_eq_ok_iff]
    constructor
    · rintro ⟨_, ⟨rfl, hread⟩, rfl, -⟩
      exact ⟨rfl, hread⟩
    · rintro ⟨rfl, hread⟩
      exact ⟨w, ⟨rfl, hread⟩, rfl, hread.1, hread.2.1⟩
  simp only [emit, copyRow, bind_eq_ok, return_eq_ok, mapM_eq_ok_self_iff hset]
  constructor
  · rintro ⟨_, ⟨rfl, hread⟩, rfl⟩
    exact ⟨rfl, hread⟩
  · rintro ⟨rfl, hread⟩
    exact ⟨_, ⟨rfl, hread⟩, rfl⟩

theorem mapM_emit_eq_ok_iff {pairs : List (List Value × List (List Value))} :
    pairs.mapM emit = .ok chunks ↔
      chunks = pairs.map (fun pair => pair.2.map (pair.1 ++ ·)) ∧
        ∀ pair ∈ pairs, ∀ v ∈ pair.1, Readable v := by
  simp only [mapM_eq_ok_iff, emit_eq_ok_iff]
  induction pairs generalizing chunks with
  | nil => simp
  | cons pair pairs ih =>
    simp only [forall₂_cons_left_iff, ih, map_cons, forall_mem_cons]
    constructor
    · rintro ⟨_, _, ⟨rfl, hpair⟩, ⟨rfl, hpairs⟩, rfl⟩
      exact ⟨rfl, hpair, hpairs⟩
    · rintro ⟨rfl, hpair, hpairs⟩
      exact ⟨_, _, ⟨rfl, hpair⟩, ⟨rfl, hpairs⟩, rfl⟩

/-- The chunks of the right child are paired with all rows of a chunk of the left one in turn. -/
theorem flatMap_perm (left : List (List Value)) (rightData : List (List (List Value))) :
    (rightData.flatMap fun chunk => left.flatMap fun l => chunk.map (l ++ ·)).Perm
      (left.flatMap fun l => rightData.flatten.map (l ++ ·)) := by
  induction rightData with
  | nil => simp
  | cons chunk rightData ih =>
    simp only [flatMap_cons, flatten_cons, map_append]
    exact (Perm.append_left _ ih).trans (flatMap_append_perm left _ _)

theorem pairs_perm (left rightData : List (List (List Value))) :
    ((left.flatMap fun rows => rightData.flatMap fun chunk => rows.map (·, chunk)).map
        fun pair => pair.2.map (pair.1 ++ ·)).flatten.Perm
      (left.flatten.flatMap fun l => rightData.flatten.map (l ++ ·)) := by
  induction left with
  | nil => simp
  | cons rows left ih =>
    simp only [flatMap_cons, map_append, flatten_append, flatten_cons, flatMap_append]
    refine Perm.append ?_ ih
    rw [← flatMap_def, flatMap_assoc]
    simp only [flatMap_map]
    exact flatMap_perm rows rightData

/-- The first call collects the right child, and goes on if it has rows. -/
theorem execute_start (left : Chunks (List Value)) (fuel : ℕ)
    (hdata : right.chunks.foldlM append [] = .ok rightData) :
    execute right (fuel + 1) { leftRest := left.chunks } =
      if rightData = [] then .ok (some [])
      else execute right (fuel + 1) (nextChunk { leftRest := left.chunks, rightData }) := by
  have hstart : materialize right { leftRest := left.chunks } =
      .ok (if rightData = [] then { leftRest := left.chunks }
        else nextChunk { leftRest := left.chunks, rightData }) := by
    simp only [materialize, hdata, ne_eq, not_true_eq_false, if_false, bind, Except.bind]
    split_ifs <;> rfl
  rw [execute, execute, getChunk, getChunk, hstart]
  split_ifs with hempty
  · rfl
  · have hready : materialize right (nextChunk { leftRest := left.chunks, rightData }) =
        .ok (nextChunk { leftRest := left.chunks, rightData }) := if_pos hempty
    rw [hready]

/-- **The cross product** of two inputs: all pairs of their rows are returned, each one once,
exactly if all columns of the right input can be collected and, unless it is empty, the values of
the left input can be read. -/
theorem execute_perm_iff (left right : Chunks (List Value)) :
    (∃ fuel chunks, execute right fuel { leftRest := left.chunks } = .ok (some chunks) ∧
      chunks.flatten.Perm (left.rows.flatMap fun l => right.rows.map (l ++ ·))) ↔
    (∀ row ∈ right.rows, ∀ v ∈ row, Collectable v) ∧
      (right.rows = [] ∨ ∀ row ∈ left.rows, ∀ v ∈ row, Readable v) := by
  obtain ⟨hflatten, hne⟩ := foldl_fillChunks right.chunks
  by_cases hcollect : ∀ row ∈ right.rows, ∀ v ∈ row, Collectable v
  · have hdata := (foldlM_append_eq_ok_iff []).2 ⟨rfl, hcollect⟩
    rw [and_iff_right hcollect]
    generalize right.chunks.foldl fillChunks [] = rightData at hflatten hne hdata
    by_cases hempty : rightData = []
    · have hright : right.rows = [] := by rw [Chunks.rows, ← hflatten, hempty, flatten_nil]
      refine iff_of_true ⟨1, [], ?_, by simp [hright]⟩ (.inl hright)
      rw [execute_start left 0 hdata, if_pos hempty]
    obtain ⟨hready, hpending⟩ := ready_nextChunk
      (s := { leftRest := left.chunks, rightData }) hempty left.nonempty hne
    dsimp only at hready hpending
    have hright : right.rows ≠ [] := by
      obtain ⟨chunk, rest, rfl⟩ := exists_cons_of_ne_nil hempty
      rw [Chunks.rows, ← hflatten, flatten_cons]
      exact append_ne_nil_of_left_ne_nil (hne chunk (mem_cons_self ..)) _
    rw [or_iff_right hright]
    constructor
    · rintro ⟨fuel, chunks, hexecute, -⟩ row hrow
      cases fuel with
      | zero => cases hexecute
      | succ fuel =>
        rw [execute_start left fuel hdata, if_neg hempty, execute_of_ready hready, bind_eq_ok]
          at hexecute
        obtain ⟨_, hemit, hresult⟩ := hexecute
        rw [return_eq_ok] at hresult
        split_ifs at hresult with hfuel
        rw [take_of_length_le hfuel.le] at hemit
        obtain ⟨chunk, hchunk, hrow⟩ := mem_flatten.1 hrow
        obtain ⟨first, rest, hfirst⟩ := exists_cons_of_ne_nil hempty
        refine (mapM_emit_eq_ok_iff.1 hemit).2 (row, first) ?_
        rw [hpending, hfirst]
        exact mem_flatMap.2 ⟨chunk, hchunk, mem_append_left _ (mem_map_of_mem hrow)⟩
    · intro hread
      have hperm := pairs_perm left.chunks rightData
      rw [hflatten] at hperm
      refine ⟨(pending (nextChunk { leftRest := left.chunks, rightData })).length + 1, _, ?_, hperm⟩
      rw [execute_start left _ hdata, if_neg hempty, execute_of_ready hready,
        take_of_length_le (Nat.le_succ _)]
      refine bind_eq_ok.2 ⟨_, ?_, congrArg Except.ok (if_pos (Nat.lt_add_one _))⟩
      rw [hpending]
      refine mapM_emit_eq_ok_iff.2 ⟨rfl, fun pair hpair => ?_⟩
      simp only [mem_flatMap, mem_map] at hpair
      obtain ⟨chunk, hchunk, _, -, row, hrow, rfl⟩ := hpair
      exact hread row (mem_flatten.2 ⟨chunk, hchunk, hrow⟩)
  · refine iff_of_false ?_ fun h => hcollect h.1
    rintro ⟨fuel, chunks, hexecute, -⟩
    cases fuel with
    | zero => cases hexecute
    | succ fuel =>
      rw [execute, bind_eq_ok] at hexecute
      obtain ⟨_, hcall, -⟩ := hexecute
      rw [getChunk, bind_eq_ok] at hcall
      obtain ⟨_, hmaterialize, -⟩ := hcall
      rw [materialize, if_neg (not_not_intro rfl), bind_eq_ok] at hmaterialize
      obtain ⟨_, hdata, -⟩ := hmaterialize
      exact hcollect ((foldlM_append_eq_ok_iff _).1 hdata).2

/-- A string that is not UTF-8 in the left input is not returned. -/
theorem not_perm_invalid : ¬∃ fuel chunks,
    execute (.single [.integer 1]) fuel
        { leftRest := (Chunks.single [Value.varchar [0xFF]]).chunks } = .ok (some chunks) ∧
      chunks.flatten.Perm [[.varchar [0xFF], .integer 1]] := by
  rintro ⟨_ | fuel, chunks, hexecute, -⟩ <;> cases hexecute

end DuckDB.PhysicalCrossProduct
