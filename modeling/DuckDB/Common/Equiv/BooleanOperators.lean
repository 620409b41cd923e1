import DuckDB.Common.BooleanOperators
import DuckDB.Common.Equiv.VectorOperations
import DuckDB.Theory.ThreeValued

/-!
# Truth values row by row

Every loop computes its result row by row from the rows of its operands: `Holds` says what a vector
holds in the rows of a chunk, and which bytes stand under its NULLs. The null masks of the
conjunctions are those of three-valued logic, and their results are truth values, if the bytes under
the NULLs are.

## Main results

- `Vector.exists_templatedBooleanOperation`, `Vector.exists_templatedBooleanNullmask`,
  `Vector.exists_not`, `Vector.exists_isNullLoop`, `Vector.exists_caseLoop` — the rows of the
  results
-/

namespace DuckDB

open List Theory Shape

/-- What a conjunction means. -/
def Conjunction.value : Conjunction → Option Bool → Option Bool → Option Bool
  | and => and3
  | or => or3

theorem Conjunction.value_comm (type : Conjunction) {a b : Option Bool} :
    type.value a b = type.value b a := by
  cases type <;> rcases a with - | _ | _ <;> rcases b with - | _ | _ <;> rfl

namespace Shape

variable {shape : Shape} {inputs : List Shape}

theorem isConstant_ofInputs (h : (ofInputs inputs).isConstant = true) :
    ∀ input ∈ inputs, input.isConstant = true := by
  intro input hmem
  by_contra hne
  obtain ⟨first, hfirst⟩ : ∃ first, inputs.find? (!·.isConstant) = some first := by
    rw [← Option.isSome_iff_exists, find?_isSome]
    exact ⟨input, hmem, by simpa using hne⟩
  rw [ofInputs, hfirst, Option.getD_some] at h
  simpa [h] using find?_some hfirst

theorem follows_ofInputs (h : ∀ input ∈ inputs, shape.Follows input) :
    shape.Follows (ofInputs inputs) := by
  rw [ofInputs]
  cases hfirst : inputs.find? (!·.isConstant) with
  | none => exact .inl rfl
  | some first => exact h first (mem_of_find?_eq_some hfirst)

theorem aligned_of_follows (h : ∀ input ∈ inputs, shape.Follows input) : Aligned inputs := by
  intro input hmem
  by_cases hconstant : input.isConstant = true
  · exact .inl hconstant
  · have hne : ¬(ofInputs inputs).isConstant = true := fun h =>
      hconstant (isConstant_ofInputs h input hmem)
    exact .inr (((h input hmem).resolve_left hconstant).trans
      ((follows_ofInputs h).resolve_left hne).symm)

theorem Follows.lt_count {input : Shape} (h : shape.Follows input) (hpos : 0 < shape.count) {k : ℕ}
    (hk : k < input.count) : k < shape.count := by
  rcases h with hconstant | rfl
  · have hcount : input.count = 1 := of_decide_eq_true (Bool.and_eq_true_iff.1 hconstant).1
    omega
  · exact hk

end Shape

/-- The bytes of the truth values. -/
def IsTruth (byte : UInt8) : Prop :=
  byte = 0 ∨ byte = 1

instance : DecidablePred IsTruth := fun byte => inferInstanceAs (Decidable (byte = 0 ∨ byte = 1))

theorem isTruth_toUInt8 (b : Bool) : IsTruth b.toUInt8 := by
  cases b
  · exact .inl rfl
  · exact .inr rfl

theorem Conjunction.isTruth_operation (type : Conjunction) {left right : UInt8}
    (hleft : IsTruth left) (hright : IsTruth right) : IsTruth (type.operation left right) := by
  obtain rfl | rfl := hleft <;> obtain rfl | rfl := hright <;> cases type <;> decide

/-- The truth value of a byte. -/
def truth (byte : Option UInt8) : Option Bool :=
  byte.map (· != 0)

@[simp] theorem truth_map_toUInt8 (value : Option Bool) :
    truth (value.map Bool.toUInt8) = value := by
  rcases value with - | _ | _ <;> rfl

namespace Vector

variable {α β γ : Type} {shape : Shape} {CleanL : α → Prop} {CleanR : β → Prop} {Clean : γ → Prop}

/-- What the vector holds in the rows of a chunk; the entries of the rows are clean, also those
under NULLs. -/
structure Holds (Clean : α → Prop) (shape : Shape) (v : Vector α) (f : ℕ → Option α) : Prop where
  follows : shape.Follows v.shape
  value_eq : ∀ k < shape.count, v.value k = f k
  clean : ∀ k < v.count, Clean (v.entry (position v.selVector k)).1

/-- The vector holds truth values. -/
abbrev HoldsTruth (shape : Shape) (v : Vector UInt8) (f : ℕ → Option Bool) : Prop :=
  Holds IsTruth shape v fun k => (f k).map Bool.toUInt8

theorem Holds.clean_zero {v : Vector α} {f : ℕ → Option α} (h : Holds CleanL shape v f)
    (hconstant : v.shape.isConstant = true) : CleanL (v.entry 0).1 := by
  have hcount : v.count = 1 := of_decide_eq_true (Bool.and_eq_true_iff.1 hconstant).1
  have hclean := h.clean 0 (by omega)
  rwa [selVector_eq_none hconstant] at hclean

theorem Holds.congr {v : Vector α} {f g : ℕ → Option α} (h : Holds CleanL shape v f)
    (hfg : ∀ k < shape.count, f k = g k) : Holds CleanL shape v g :=
  ⟨h.follows, fun k hk => (h.value_eq k hk).trans (hfg k hk), h.clean⟩

theorem holds_of_row {v : Vector α} {f g : ℕ → Option α} (hfollows : shape.Follows v.shape)
    (hrow : ∀ k < v.count, v.row k = f k ∧ CleanL (v.entry (position v.selVector k)).1)
    (hconstant : v.shape.isConstant = true → ∀ k, f k = f 0)
    (hfg : ∀ k < shape.count, f k = g k) : Holds CleanL shape v g := by
  refine ⟨hfollows, fun k hk => ?_, fun k hk => (hrow k hk).2⟩
  rw [value, ← hfg k hk]
  split_ifs with h
  · have hcount : v.count = 1 := of_decide_eq_true (Bool.and_eq_true_iff.1 h).1
    rw [(hrow 0 (by omega)).1, hconstant h k]
  · exact (hrow k (by rwa [← hfollows.resolve_left h] at hk)).1

/-! ### Two operands -/

/-- A loop over the shape reads the clean entries `l` and `r` of the operands. -/
structure Reads (CleanL : α → Prop) (CleanR : β → Prop) (left : Vector α) (right : Vector β)
    (shape : Shape) (l : ℕ → α × Bool) (r : ℕ → β × Bool) : Prop where
  shape_eq : shape = .ofInputs [left.shape, right.shape]
  left_eq : ∀ k < shape.count, left.value k = ofEntry (l (position shape.selVector k))
  right_eq : ∀ k < shape.count, right.value k = ofEntry (r (position shape.selVector k))
  left_clean : ∀ k < shape.count, CleanL (l (position shape.selVector k)).1
  right_clean : ∀ k < shape.count, CleanR (r (position shape.selVector k)).1

section Pair

variable {left : Vector α} {right : Vector β} {f : ℕ → Option α} {g : ℕ → Option β} {v : Vector γ}

variable (hl : Holds CleanL shape left f) (hr : Holds CleanR shape right g)

include hl in
theorem reads_self : Reads CleanL CleanL left left left.shape left.entry left.entry where
  shape_eq := by rw [ofInputs_pair, ite_self]
  left_eq _ hk := value_eq_self hk
  right_eq _ hk := value_eq_self hk
  left_clean := hl.clean
  right_clean := hl.clean

include hl hr

theorem reads_left_constant (h : left.shape.isConstant = true) :
    Reads CleanL CleanR left right right.shape (fun _ => left.entry 0) right.entry where
  shape_eq := by rw [ofInputs_pair, if_pos h]
  left_eq k _ := value_eq_zero h k
  right_eq _ hk := value_eq_self hk
  left_clean _ _ := hl.clean_zero h
  right_clean := hr.clean

theorem reads_right_constant (hleft : ¬left.shape.isConstant = true)
    (h : right.shape.isConstant = true) :
    Reads CleanL CleanR left right left.shape left.entry (fun _ => right.entry 0) where
  shape_eq := by rw [ofInputs_pair, if_neg hleft]
  left_eq _ hk := value_eq_self hk
  right_eq k _ := value_eq_zero h k
  left_clean := hl.clean
  right_clean _ _ := hr.clean_zero h

theorem reads_vectors (hleft : ¬left.shape.isConstant = true)
    (hright : ¬right.shape.isConstant = true) :
    Reads CleanL CleanR left right left.shape left.entry right.entry := by
  have hshape : right.shape = left.shape :=
    (hr.follows.resolve_left hright).trans (hl.follows.resolve_left hleft).symm
  refine ⟨by rw [ofInputs_pair, if_neg hleft], fun _ hk => value_eq_self hk, fun k hk => ?_,
    hl.clean, fun k hk => ?_⟩
  · rw [← hshape] at hk ⊢
    exact value_eq_self hk
  · rw [← hshape] at hk ⊢
    exact hr.clean k hk

theorem holds_pair {h : Option α → Option β → Option γ}
    (hshape : v.shape = .ofInputs [left.shape, right.shape])
    (hrow : ∀ k < v.count, v.row k = h (left.value k) (right.value k) ∧
      Clean (v.entry (position v.selVector k)).1) :
    Holds Clean shape v fun k => h (f k) (g k) := by
  refine holds_of_row (f := fun k => h (left.value k) (right.value k)) ?_ hrow ?_ ?_
  · rw [hshape]
    exact follows_ofInputs (by simp [hl.follows, hr.follows])
  · intro hconstant k
    have hinputs := isConstant_ofInputs (hshape ▸ hconstant)
    rw [value_eq_zero (hinputs left.shape (by simp)), value_eq_zero (hinputs right.shape (by simp)),
      value_eq_zero (hinputs left.shape (by simp)), value_eq_zero (hinputs right.shape (by simp))]
  · intro k hk
    rw [hl.value_eq k hk, hr.value_eq k hk]

variable (Clean) in
theorem holds_forRows {S : Shape} {l : ℕ → α × Bool} {r : ℕ → β × Bool}
    (hreads : Reads CleanL CleanR left right S l r) {body : ℕ → γ × Bool → Option (γ × Bool)}
    (hbody : Settles body) (hshape : v.shape = S) (h : Option α → Option β → Option γ)
    (hrow : ∀ k < S.count, ∃ e, body (position S.selVector k) (v.entry (position S.selVector k)) =
      some e ∧ ofEntry e = h (left.value k) (right.value k) ∧ Clean e.1) :
    ∃ result, forRows S body v = some result ∧ Holds Clean shape result fun k => h (f k) (g k) := by
  obtain ⟨result, hresult, rfl, hrows⟩ := (exists_forRows_entry_iff hbody hshape fun k e =>
    ofEntry e = h (left.value k) (right.value k) ∧ Clean e.1).2 hrow
  exact ⟨result, hresult, holds_pair hl hr hreads.shape_eq hrows⟩

end Pair

/-! ### Comparisons -/

section Comparison

variable {op : α → α → Option Bool} {ignoreNull : Bool} {left right : Vector α}
  {f g : ℕ → Option α} {cmp : α → α → Bool}

theorem settles_comparisonEntry {skip : Bool} {l r : ℕ → α} :
    Settles fun i => comparisonEntry op skip (l i) (r i) := by
  rintro i ⟨d, m⟩ e he
  simp only [comparisonEntry] at he ⊢
  split_ifs at he with hskip
  · obtain rfl := Option.some.inj he
    rw [if_pos hskip]
  · obtain ⟨c, hc, rfl⟩ := Option.map_eq_some_iff.1 he
    rw [if_neg hskip, hc]
    rfl

/-- The value of a comparison as a byte. -/
def compareBytes (cmp : α → α → Bool) (left right : Option α) : Option UInt8 :=
  (left.bind fun x => right.map (cmp x)).map Bool.toUInt8

theorem comparison_entry {skip : Bool} {d : UInt8} {l r : α × Bool}
    (hskip : (l.2 || r.2) = true → skip = false → (op l.1 r.1).isSome) (hd : IsTruth d)
    (hop : ∀ x ∈ ofEntry l, ∀ y ∈ ofEntry r, op x y = some (cmp x y)) :
    ∃ e, comparisonEntry op skip l.1 r.1 (d, l.2 || r.2) = some e ∧
      ofEntry e = compareBytes cmp (ofEntry l) (ofEntry r) ∧ IsTruth e.1 := by
  obtain ⟨x, m⟩ := l
  obtain ⟨y, m'⟩ := r
  cases hnull : m || m'
  · obtain ⟨rfl, rfl⟩ := Bool.or_eq_false_iff.1 hnull
    refine ⟨((cmp x y).toUInt8, false), ?_, rfl, isTruth_toUInt8 _⟩
    simp [comparisonEntry, hop x rfl y rfl]
  · have hnone : compareBytes cmp (ofEntry (x, m)) (ofEntry (y, m')) = none := by
      cases m <;> cases m' <;> simp_all [ofEntry, compareBytes]
    rw [hnone]
    cases skip
    · obtain ⟨c, hc⟩ := Option.isSome_iff_exists.1 (hskip hnull rfl)
      exact ⟨(c.toUInt8, true), by simp [comparisonEntry, hc], rfl, isTruth_toUInt8 c⟩
    · exact ⟨(d, true), rfl, rfl, hd⟩

variable (hl : Holds CleanL shape left f) (hr : Holds CleanL shape right g) (hpos : 0 < shape.count)
  (hrows : ∀ k < shape.count, position shape.selVector k < standardVectorSize)
  (hop : ∀ k < shape.count, ∀ x ∈ f k, ∀ y ∈ g k, op x y = some (cmp x y))
  (hnull : ignoreNull = false → ∀ x y, (op x y).isSome)
  {result : Vector UInt8} (hresult : ∀ i, IsTruth (result.data i))

include hl hr hpos hrows hop hnull hresult

theorem exists_comparisonLoop {S : Shape} {l r : ℕ → α × Bool}
    (hreads : Reads CleanL CleanL left right S l r)
    {nullmask : ℕ → Bool} (hmask : ∀ i, nullmask i = ((l i).2 || (r i).2)) :
    ∃ v, comparisonLoop op ignoreNull S nullmask (fun i => (l i).1) (fun i => (r i).1) result =
        some v ∧ Holds IsTruth shape v fun k => compareBytes cmp (f k) (g k) := by
  have hfollows : shape.Follows S := by
    rw [hreads.shape_eq]
    exact follows_ofInputs (by simp [hl.follows, hr.follows])
  refine holds_forRows _ hl hr hreads settles_comparisonEntry rfl (compareBytes cmp) fun k hk => ?_
  have hk' := hfollows.lt_count hpos hk
  have hlt : position S.selVector k < standardVectorSize := by
    rcases hfollows with hconstant | rfl
    · have hcount : S.count = 1 := of_decide_eq_true (Bool.and_eq_true_iff.1 hconstant).1
      obtain rfl : k = 0 := by omega
      rw [Option.isNone_iff_eq_none.1 (Bool.and_eq_true_iff.1 hconstant).2]
      exact Nat.zero_lt_succ _
    · exact hrows k hk
  have hentry : ({ result.setShape S with nullmask := nullmask } : Vector UInt8).entry
      (position S.selVector k) = (result.data (position S.selVector k), _ || _) :=
    congrArg (Prod.mk _) (hmask _)
  rw [hreads.left_eq k hk, hreads.right_eq k hk, hentry]
  refine comparison_entry (fun hm hskip => ?_) (hresult _) ?_
  · refine hnull ?_ _ _
    by_contra hignore
    rw [Bool.not_eq_false] at hignore
    have hany : (List.range standardVectorSize).any nullmask = true :=
      any_eq_true.2 ⟨_, mem_range.2 hlt, by rw [hmask, hm]⟩
    simp [hignore, hany] at hskip
  · rw [← hreads.left_eq k hk, ← hreads.right_eq k hk, hl.value_eq k hk', hr.value_eq k hk']
    exact hop k hk'

theorem exists_templatedBooleanOperation :
    ∃ v, templatedBooleanOperation op ignoreNull left right result = some v ∧
      Holds IsTruth shape v fun k => compareBytes cmp (f k) (g k) := by
  have hcheck : ¬(!left.shape.isConstant && !right.shape.isConstant && left.count != right.count) =
      true := by
    simp only [Bool.and_eq_true, Bool.not_eq_true', bne_iff_ne, not_and, not_not, and_imp]
    intro hleft hright
    have hshape : left.shape = right.shape :=
      (hl.follows.resolve_left (by simp [hleft])).trans
        (hr.follows.resolve_left (by simp [hright])).symm
    exact congrArg Shape.count hshape
  rw [templatedBooleanOperation, if_neg hcheck]
  unfold templatedBinaryLoop
  split_ifs with hleft hnull' hright hnull'
  · refine ⟨_, rfl, holds_pair hl hr (h := compareBytes cmp)
      (reads_left_constant hl hr hleft).shape_eq fun k _ => ⟨?_, hresult _⟩⟩
    simp [value_eq_zero hleft, row, ofEntry, entry, hnull', compareBytes]
  · exact exists_comparisonLoop hl hr hpos hrows hop hnull hresult (reads_left_constant hl hr hleft)
      (fun i => by simp [entry, hnull'])
  · refine ⟨_, rfl, holds_pair hl hr (h := compareBytes cmp)
      (reads_right_constant hl hr hleft hright).shape_eq fun k _ => ⟨?_, hresult _⟩⟩
    simp [value_eq_zero hright, row, ofEntry, entry, hnull', compareBytes]
  · exact exists_comparisonLoop hl hr hpos hrows hop hnull hresult
      (reads_right_constant hl hr hleft hright) (fun i => by simp [entry, hnull'])
  · exact exists_comparisonLoop hl hr hpos hrows hop hnull hresult
      (reads_vectors hl hr hleft hright) (fun i => rfl)

end Comparison

/-! ### Conjunctions -/

section Conjunction

variable {left right : Vector UInt8} {f g : ℕ → Option Bool}

theorem conjunction_entry {type : Conjunction} {l r : UInt8 × Bool} (hl : IsTruth l.1)
    (hr : IsTruth r.1) :
    ofEntry (type.operation l.1 r.1, type.mask l.1 r.1 l.2 r.2) =
        (type.value (truth (ofEntry l)) (truth (ofEntry r))).map Bool.toUInt8 ∧
      IsTruth (type.operation l.1 r.1) := by
  refine ⟨?_, type.isTruth_operation hl hr⟩
  obtain ⟨d, m⟩ := l
  obtain ⟨d', m'⟩ := r
  obtain rfl | rfl := hl <;> obtain rfl | rfl := hr <;> cases type <;> cases m <;> cases m' <;>
    decide

theorem exists_conjunctionLoop (type : Conjunction) (hl : HoldsTruth shape left f)
    (hr : HoldsTruth shape right g) {S : Shape} {l r : ℕ → UInt8 × Bool}
    (hreads : Reads IsTruth IsTruth left right S l r) (result : Vector UInt8) :
    ∃ v, conjunctionLoop type S l r result = some v ∧
      HoldsTruth shape v fun k => type.value (f k) (g k) := by
  obtain ⟨v, hv, hholds⟩ := holds_forRows IsTruth hl hr hreads
    (show Settles fun i _ => some (type.operation (l i).1 (r i).1,
      type.mask (l i).1 (r i).1 (l i).2 (r i).2) from fun _ _ _ he => he)
    (v := result.setShape S) rfl (fun a b => (type.value (truth a) (truth b)).map Bool.toUInt8)
    fun k hk => by
      refine ⟨_, rfl, ?_⟩
      rw [hreads.left_eq k hk, hreads.right_eq k hk]
      exact conjunction_entry (hreads.left_clean k hk) (hreads.right_clean k hk)
  exact ⟨v, hv, hholds.congr fun k _ => by rw [truth_map_toUInt8, truth_map_toUInt8]⟩

theorem exists_templatedBooleanNullmask (type : Conjunction) (hl : HoldsTruth shape left f)
    (hr : HoldsTruth shape right g) (result : Vector UInt8) :
    ∃ v, templatedBooleanNullmask type left right result = some v ∧
      HoldsTruth shape v fun k => type.value (f k) (g k) := by
  unfold templatedBooleanNullmask
  split_ifs with hleft hright hcount
  · exact exists_conjunctionLoop type hl hr (reads_left_constant hl hr hleft) result
  · obtain ⟨v, hv, hholds⟩ :=
      exists_conjunctionLoop type hr hl (reads_left_constant hr hl hright) result
    exact ⟨v, hv, hholds.congr fun k _ => congrArg (Option.map _) type.value_comm⟩
  · exact exists_conjunctionLoop type hl hr (reads_vectors hl hr hleft hright) result
  · have hshape : left.shape = right.shape :=
      (hl.follows.resolve_left hleft).trans (hr.follows.resolve_left hright).symm
    exact absurd (congrArg Shape.count hshape) hcount

theorem not_entry {d : UInt8} {m : Bool} :
    ofEntry ((d == 0).toUInt8, m) = (not3 (truth (ofEntry (d, m)))).map Bool.toUInt8 := by
  cases m
  · simp [ofEntry, truth, not3, bne]
  · rfl

theorem exists_not (hl : HoldsTruth shape left f) (result : Vector UInt8) :
    ∃ v, left.not result = some v ∧ HoldsTruth shape v fun k => not3 (f k) := by
  obtain ⟨v, hv, hholds⟩ := holds_forRows IsTruth hl hl (reads_self hl)
    (show Settles fun i e => some ((left.data i == 0).toUInt8, e.2) by
      rintro i e e' he; obtain rfl := Option.some.inj he; rfl)
    (v := { result.setShape left.shape with nullmask := left.nullmask }) rfl
    (fun a _ => (not3 (truth a)).map Bool.toUInt8) fun k hk => by
      refine ⟨_, rfl, ?_, isTruth_toUInt8 _⟩
      rw [value_eq_self hk]
      exact not_entry
  exact ⟨v, hv, hholds.congr fun k _ => by rw [truth_map_toUInt8]⟩

end Conjunction

theorem isNull_entry (inverse : Bool) {d : α} {m : Bool} : (if inverse then !m else m) =
    if inverse then (ofEntry (d, m)).isSome else (ofEntry (d, m)).isNone := by
  cases m <;> rfl

theorem exists_isNullLoop (inverse : Bool) {input : Vector α} {f : ℕ → Option α}
    (hl : Holds CleanL shape input f) (result : Vector UInt8) :
    ∃ v, isNullLoop inverse input result = some v ∧
      HoldsTruth shape v fun k => some (if inverse then (f k).isSome else (f k).isNone) := by
  refine holds_forRows _ hl hl (reads_self hl) ?_ ?_ (fun a _ =>
    (some (if inverse then a.isSome else a.isNone)).map Bool.toUInt8) fun k hk => ?_
  · rintro i e e' he
    obtain rfl := Option.some.inj he
    rfl
  · rfl
  · refine ⟨_, rfl, ?_, isTruth_toUInt8 _⟩
    rw [value_eq_self hk]
    exact congrArg (fun b => some (Bool.toUInt8 b)) (isNull_entry inverse)

/-! ### `CASE` -/

section Case

variable {copy : α → Option α} {null : α → α} {f g : ℕ → Option α}

/-- What a `CASE` means. -/
def caseValue (check : Option Bool) (ifTrue ifFalse : Option α) : Option α :=
  if check = some true then ifTrue else ifFalse

theorem caseValue_entry {c : UInt8 × Bool} {t f : α × Bool} :
    caseValue (truth (ofEntry c)) (ofEntry t) (ofEntry f) =
      ofEntry (if c.1 != 0 && !c.2 then t else f) := by
  obtain ⟨d, _ | _⟩ := c
  · cases hd : d != 0 <;> simp [caseValue, truth, ofEntry, hd]
  · simp [caseValue, truth, ofEntry]

theorem copy_entry {entry : α × Bool} (hcopy : ∀ x ∈ ofEntry entry, copy x = some x)
    (hnull : ∀ x, CleanL x → CleanL (null x)) (hclean : CleanL entry.1) :
    ∃ e, (if entry.2 then some (null entry.1, entry.2) else (copy entry.1).map (·, entry.2)) =
      some e ∧ ofEntry e = ofEntry entry ∧ CleanL e.1 := by
  obtain ⟨x, _ | _⟩ := entry
  · exact ⟨(x, false), by simp [hcopy x rfl], rfl, hclean⟩
  · exact ⟨(null x, true), rfl, rfl, hnull x hclean⟩

/-- The entry that a loop over several inputs reads is clean. -/
theorem Holds.clean_mul {v : Vector α} (h : Holds CleanL shape v f) {S : Shape}
    (hfollows : S.Follows v.shape) {k : ℕ} (hk : k < S.count) :
    CleanL (v.entry (v.mul * position S.selVector k)).1 := by
  rw [mul]
  split_ifs with hconstant
  · rw [Nat.zero_mul]
    exact h.clean_zero hconstant
  · rw [Nat.one_mul]
    obtain rfl := hfollows.resolve_left hconstant
    exact h.clean k hk

theorem exists_caseLoop {check : Vector UInt8} {resTrue resFalse : Vector α} {c : ℕ → Option Bool}
    (hc : HoldsTruth shape check c) (hf : Holds CleanL shape resTrue f)
    (hg : Holds CleanL shape resFalse g) (hpos : 0 < shape.count)
    (hcopy : ∀ k < shape.count, ∀ x ∈ caseValue (c k) (f k) (g k), copy x = some x)
    (hnull : ∀ x, CleanL x → CleanL (null x))
    (result : Vector α) : ∃ v, caseLoop copy null check resTrue resFalse result = some v ∧
      Holds CleanL shape v fun k => caseValue (c k) (f k) (g k) := by
  have hinputs : ∀ input ∈ [check.shape, resTrue.shape, resFalse.shape], shape.Follows input := by
    simp [hc.follows, hf.follows, hg.follows]
  have haligned := aligned_of_follows hinputs
  have hfollows := follows_ofInputs hinputs
  have hloop : ∃ v, caseLoop copy null check resTrue resFalse result = some v ∧
      v.shape = .ofInputs [check.shape, resTrue.shape, resFalse.shape] ∧
      ∀ k < (ofInputs [check.shape, resTrue.shape, resFalse.shape]).count,
        ofEntry (v.entry (position (ofInputs [check.shape, resTrue.shape, resFalse.shape]).selVector
            k)) = caseValue (truth (check.value k)) (resTrue.value k) (resFalse.value k) ∧
          CleanL (v.entry (position
            (ofInputs [check.shape, resTrue.shape, resFalse.shape]).selVector k)).1 := by
    refine (exists_forRows_entry_iff ?_ shape_setShape fun k e =>
      ofEntry e = caseValue (truth (check.value k)) (resTrue.value k) (resFalse.value k) ∧
        CleanL e.1).2 fun k hk => ?_
    · exact fun _ _ _ he => he
    · have hk' := hfollows.lt_count hpos hk
      have hcopy' := hcopy k hk'
      have htruth : c k = truth (check.value k) := by
        rw [hc.value_eq k hk', truth_map_toUInt8]
      have hcleanTrue := hf.clean_mul (haligned resTrue.shape (by simp)) hk
      have hcleanFalse := hg.clean_mul (haligned resFalse.shape (by simp)) hk
      rw [htruth, ← hf.value_eq k hk', ← hg.value_eq k hk'] at hcopy'
      rw [value_eq (haligned _ (by simp)), value_eq (haligned _ (by simp)),
        value_eq (haligned _ (by simp)), caseValue_entry] at hcopy' ⊢
      refine copy_entry hcopy' hnull ?_
      cases check.data (check.mul * position
        (ofInputs [check.shape, resTrue.shape, resFalse.shape]).selVector k) != 0 &&
        !check.nullmask (check.mul * position
          (ofInputs [check.shape, resTrue.shape, resFalse.shape]).selVector k)
      · exact hcleanFalse
      · exact hcleanTrue
  obtain ⟨v, hv, hshape, hrow⟩ := hloop
  rw [← hshape] at hfollows hrow
  refine ⟨v, hv, holds_of_row hfollows hrow (fun hconstant k => ?_) ?_⟩
  · have hzero := isConstant_ofInputs (hshape ▸ hconstant)
    have hvalue : ∀ k, caseValue (truth (check.value k)) (resTrue.value k) (resFalse.value k) =
        caseValue (truth (ofEntry (check.entry 0))) (ofEntry (resTrue.entry 0))
          (ofEntry (resFalse.entry 0)) := by
      intro k
      rw [value_eq_zero (hzero _ (by simp)), value_eq_zero (hzero _ (by simp)),
        value_eq_zero (hzero _ (by simp))]
    rw [hvalue, hvalue]
  · intro k hk
    rw [hc.value_eq k hk, truth_map_toUInt8, hf.value_eq k hk, hg.value_eq k hk]

end Case

end Vector

end DuckDB
