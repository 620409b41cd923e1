import DuckDB.Common.DataChunk
import DuckDB.Common.Equiv.Value
import Mathlib.Data.List.TakeWhile

/-!
# What storage gives back

A vector that is copied to storage and appended from there has the same rows, unless one of its
values is the one that storage takes for NULL.

The stored form of a chunk takes the strings from the first entries of a vector and does not look at
the null mask or at the selection vector. So a column of strings is read back if these entries are
the strings of the rows, and hold nothing where a row is NULL.

## Main results

- `Vector.restored_iff_noSentinel` — one vector through storage
- `ColumnChunk.restored_iff` — a chunk through storage and through its stored form
-/

namespace DuckDB

open Theory Serializer Deserializer List Function

namespace Vector

variable {α : Type} (nullValue : α)

/-! ### The loops -/

variable {target v : Vector α} {count elementCount j offset : ℕ}
  {selVector : Option (ℕ → ℕ)} {k n : ℕ} {nullmask : ℕ → Bool} {source : ℕ → α}

theorem foldl_update_apply {f : ℕ → α} {place : ℕ → ℕ} (start : ℕ)
    (hplace : ∀ k, place (offset + k) = start + k) {target : ℕ → α} :
    (List.range' offset n).foldl (fun target k => update target (place k) (f k)) target j =
      if start ≤ j ∧ j < start + n then f (offset + (j - start)) else target j := by
  induction n with
  | zero => rw [range'_zero, foldl_nil, if_neg (by omega)]
  | succ n ih =>
    rw [range'_1_concat, foldl_append, foldl_cons, foldl_nil, hplace]
    by_cases hj : j = start + n
    · subst hj
      rw [if_pos (by omega), Nat.add_sub_cancel_left, update_self]
    · rw [update_of_ne hj, ih]
      split_ifs <;> first | rfl | omega

@[simp] theorem position_none : position none k = k := rfl

/-- The vectors the source works with. -/
structure Valid (v : Vector α) : Prop where
  count_le : v.count ≤ standardVectorSize
  position_lt : ∀ k < v.count, position v.selVector k < standardVectorSize

/-- What storage holds for row `k`. -/
def stored (nullValue : α) (v : Vector α) (k : ℕ) : α :=
  (v.row k).getD nullValue

theorem stored_eq :
    v.stored nullValue k = if v.nullmask (position v.selVector k) then nullValue
      else v.data (position v.selVector k) := by
  rw [stored, row]
  split <;> rfl

/-- The number of rows that are copied. -/
def copied (v : Vector α) (elementCount : ℕ) : ℕ :=
  if elementCount = 0 then v.count else elementCount

theorem copyFunction_apply {target : ℕ → α} (hj : j < count) :
    copyFunction source target offset count selVector j =
      source (position selVector (offset + j)) := by
  rw [copyFunction, exec, Nat.add_sub_cancel,
    foldl_update_apply 0 (fun k => by omega), if_pos (by omega), Nat.sub_zero]

theorem copyFunctionSetNull_apply {target : ℕ → α} (hj : j < count) (selVector : Option (ℕ → ℕ))
    (hposition : position selVector (offset + j) < standardVectorSize) :
    copyFunctionSetNull nullValue source target offset count selVector nullmask j =
      if nullmask (position selVector (offset + j)) then nullValue
      else source (position selVector (offset + j)) := by
  rw [copyFunctionSetNull]
  split
  · rw [exec, Nat.add_sub_cancel, foldl_update_apply 0 (fun k => by omega),
      if_pos (by omega), Nat.sub_zero]
  · rename_i hany
    have hmask : nullmask (position selVector (offset + j)) = false := by
      by_contra hmask
      exact hany (any_eq_true.mpr ⟨_, mem_range.mpr hposition, Bool.not_eq_false _ ▸ hmask⟩)
    rw [copyFunction_apply hj, if_neg (by simp [hmask])]

theorem copyToStorage_apply (hvalid : v.Valid) (target : ℕ → α)
    (hle : offset + v.copied elementCount ≤ v.count) (hj : j < v.copied elementCount) :
    v.copyToStorage nullValue target offset elementCount j = v.stored nullValue (offset + j) := by
  have hcount : v.count ≠ 0 := by omega
  rw [copyToStorage, if_neg hcount, stored_eq]
  exact copyFunctionSetNull_apply _ hj _ (hvalid.position_lt (offset + j) (by omega))

variable [DecidableEq α]

theorem appendFunction_eq {rightOffset : ℕ} {data : ℕ → α} :
    appendFunction nullValue source count selVector rightOffset (data, nullmask) =
      (fun j => if rightOffset ≤ j ∧ j < rightOffset + count
          then source (position selVector (j - rightOffset)) else data j,
        fun j => nullmask j || decide (rightOffset ≤ j ∧ j < rightOffset + count ∧
          source (position selVector (j - rightOffset)) = nullValue)) := by
  rw [appendFunction, exec, Nat.sub_zero]
  induction count with
  | zero =>
    rw [range'_zero, foldl_nil]
    refine Prod.ext (funext fun j => ?_) (funext fun j => ?_)
    · simp only
      rw [if_neg (by omega)]
    · simp only
      rw [decide_eq_false (by omega), Bool.or_false]
  | succ n ih =>
    rw [range'_1_concat, foldl_append, ih, foldl_cons, foldl_nil, Nat.zero_add]
    refine Prod.ext (funext fun j => ?_) (funext fun j => ?_)
    · by_cases hj : j = rightOffset + n
      · subst hj
        simp
      · simp only [update_of_ne hj]
        split_ifs <;> first | rfl | omega
    · by_cases hj : j = rightOffset + n
      · subst hj
        split_ifs <;> simp_all
      · have hiff : (j < rightOffset + n ↔ j < rightOffset + (n + 1)) := by omega
        split_ifs <;> simp [update_of_ne hj, hiff]

/-- What is read for a value in storage. -/
def decode (nullValue : α) (val : α) : Option α :=
  if val = nullValue then none else some val

/-- A vector that rows can be appended to: it has no selection vector, and nothing is marked behind
its rows. -/
structure Open (v : Vector α) : Prop where
  selVector_eq : v.selVector = none
  nullmask_eq : ∀ j, v.count ≤ j → v.nullmask j = false

theorem appendFromStorage_eq (source : Vector α) (hopen : target.Open)
    (hle : source.count + target.count ≤ standardVectorSize) :
    ∃ target', appendFromStorage nullValue source target = .ok target' ∧
      target'.count = target.count + source.count ∧
      target'.rows = target.rows ++ (List.range source.count).map fun k =>
        decode nullValue (source.data (position source.selVector k)) := by
  rw [appendFromStorage]
  by_cases hcount : source.count = 0
  · rw [if_pos hcount]
    exact ⟨target, rfl, by omega, by simp [hcount]⟩
  rw [if_neg hcount, if_neg (by omega), appendFunction_eq]
  refine ⟨_, rfl, rfl, ?_⟩
  rw [rows, range_add, map_append]
  congr 1
  · refine map_congr_left fun k hk => ?_
    have hk := mem_range.mp hk
    simp [row, hopen.selVector_eq, Nat.not_le.mpr hk]
  · rw [map_map]
    refine map_congr_left fun k hk => ?_
    have hk := mem_range.mp hk
    have hmask := hopen.nullmask_eq (target.count + k) (by omega)
    simp only [comp_apply, row, hopen.selVector_eq, position_none, hmask, decode,
      Nat.add_sub_cancel_left, Nat.le_add_right, Nat.add_lt_add_left hk, true_and, if_true,
      Bool.false_or, decide_eq_true_eq]

/-! ### One vector through storage -/

/-- No row holds the value that storage takes for NULL. -/
def NoSentinel (nullValue : α) (v : Vector α) : Prop :=
  ∀ k < v.count, v.row k ≠ some nullValue

/-- A row is given back unless it holds the value that storage takes for NULL. -/
theorem decode_stored_iff (v : Vector α) (k : ℕ) :
    decode nullValue (v.stored nullValue k) = v.row k ↔ v.row k ≠ some nullValue := by
  rw [stored, decode]
  cases h : v.row k with
  | none => simp
  | some val => by_cases hval : val = nullValue <;> simp [hval]

/-- A vector is given back by storage: any part of it, wherever it is stored and whatever it is
appended to. -/
def Restored (nullValue : α) (v : Vector α) : Prop :=
  ∀ (offset elementCount : ℕ) (storage : ℕ → α) (target : Vector α),
    offset + v.copied elementCount ≤ v.count → target.Open →
    v.copied elementCount + target.count ≤ standardVectorSize →
    ∃ target', appendFromStorage nullValue
        { data := v.copyToStorage nullValue storage offset elementCount
          count := v.copied elementCount } target = .ok target' ∧
      target'.rows = target.rows ++ (v.rows.drop offset).take (v.copied elementCount)

omit [DecidableEq α] in
theorem take_drop_rows (v : Vector α) (hle : offset + n ≤ v.count) :
    (v.rows.drop offset).take n = (List.range n).map fun k => v.row (offset + k) := by
  refine ext_getElem ?_ fun i h₁ h₂ => ?_
  · simp [rows]
    omega
  · simp [rows]

theorem appendFromStorage_copyToStorage (hvalid : v.Valid) (storage : ℕ → α)
    (hle : offset + v.copied elementCount ≤ v.count) (hopen : target.Open)
    (hroom : v.copied elementCount + target.count ≤ standardVectorSize) :
    ∃ target', appendFromStorage nullValue
        { data := v.copyToStorage nullValue storage offset elementCount
          count := v.copied elementCount } target = .ok target' ∧
      target'.rows = target.rows ++ (List.range (v.copied elementCount)).map fun k =>
        decode nullValue (v.stored nullValue (offset + k)) := by
  obtain ⟨target', happend, -, hrows⟩ := appendFromStorage_eq nullValue
    { data := v.copyToStorage nullValue storage offset elementCount
      count := v.copied elementCount } hopen hroom
  refine ⟨target', happend, hrows.trans ?_⟩
  congr 1
  refine map_congr_left fun k hk => ?_
  simp only [position_none]
  rw [copyToStorage_apply nullValue hvalid storage hle (mem_range.mp hk)]

/-- Storage gives a vector back exactly if no row holds the value that it takes for NULL. -/
theorem restored_iff_noSentinel (nullValue : α) (hvalid : v.Valid) :
    v.Restored nullValue ↔ v.NoSentinel nullValue := by
  constructor
  · intro h k hk
    -- the whole vector, appended to an empty one
    have hle : 0 + v.copied 0 ≤ v.count := by simp [copied]
    have hopen : Open { data := v.data } := ⟨rfl, fun _ _ => rfl⟩
    have hroom : v.copied 0 + 0 ≤ standardVectorSize := hvalid.count_le
    obtain ⟨target', happend, hrows⟩ := h 0 0 v.data { data := v.data } hle hopen hroom
    obtain ⟨target'', happend', hrows'⟩ :=
      appendFromStorage_copyToStorage nullValue hvalid v.data hle hopen hroom
    obtain rfl := Except.ok.inj (happend.symm.trans happend')
    rw [hrows', take_drop_rows v hle] at hrows
    have hmap := map_inj_left.mp (append_cancel_left hrows) k (mem_range.mpr hk)
    rw [decode_stored_iff, Nat.zero_add] at hmap
    exact hmap
  · intro h offset elementCount storage target hle hopen hroom
    obtain ⟨target', happend, hrows⟩ :=
      appendFromStorage_copyToStorage nullValue hvalid storage hle hopen hroom
    refine ⟨target', happend, ?_⟩
    rw [hrows, take_drop_rows v hle]
    congr 1
    refine map_congr_left fun k hk => (decode_stored_iff nullValue v _).mpr (h _ ?_)
    have hk := mem_range.mp hk
    omega

end Vector

/-! ### Columns -/

namespace ConstantType

theorem rowValue_injective {type : ConstantType} {row row' : Option (BitVec type.width)}
    (h : type.rowValue row = type.rowValue row') : row = row' := by
  cases row <;> cases row' <;> cases type <;> cases h <;> rfl

theorem width_eq (type : ConstantType) : 8 * (type.width / 8) = type.width := by
  cases type <;> rfl

end ConstantType

namespace Column

/-- The columns the source works with: an entry of a row that is not NULL is a string, and no string
has a terminator inside. -/
def Valid : Column → Prop
  | constant _ vector => vector.Valid
  | varchar vector => vector.Valid ∧ (∀ k < vector.count, vector.row k ≠ some none) ∧
      ∀ j str, vector.data j = some str → 0 ∉ str

/-- The strings of a column can be stored with their lengths. -/
def Fits : Column → Prop
  | constant _ _ => True
  | varchar vector => ∀ j < vector.count, ∀ str, vector.data j = some str → str.length < 256 ^ 4

/-- Storage gives the column back. -/
def Restored : Column → Prop
  | constant type vector => vector.Restored type.nullValue
  | varchar vector => vector.Restored (some strNil)

/-- No row holds the value that storage takes for NULL. -/
def NoSentinel : Column → Prop
  | constant type vector => vector.NoSentinel type.nullValue
  | varchar vector => vector.NoSentinel (some strNil)

variable {column : Column} {entry : Option (List UInt8)} {α : Type}
  {type : ConstantType} {vector : Vector (Option (List UInt8))} {f : ℕ → α}

theorem restored_iff_noSentinel (hvalid : column.Valid) : column.Restored ↔ column.NoSentinel := by
  cases column with
  | constant type vector => exact Vector.restored_iff_noSentinel type.nullValue hvalid
  | varchar vector => exact Vector.restored_iff_noSentinel (some strNil) hvalid.1

/-- What the stored form of a chunk asks of a column: of a column of strings, that the first entries
are those of the rows, with nothing where a row is NULL. -/
def Kept : Column → Prop
  | constant type vector => vector.NoSentinel type.nullValue
  | varchar vector => ∀ k < vector.count,
      (vector.row k = none → vector.data k = none ∨ vector.data k = some strNil) ∧
      ∀ val, vector.row k = some val → vector.data k = val ∧ val ≠ some strNil

theorem getD_map_range {n k : ℕ} (hk : k < n) {default : α} :
    ((List.range n).map f).getD k default = f k := by
  simp [getD_eq_getElem?_getD, hk]

theorem ofStorage_eq {vector : Vector (BitVec type.width)} (hvalid : vector.Valid) :
    ∃ column, ofStorage vector.count type ((List.range vector.count).map
        (vector.copyToStorage type.nullValue (fun _ => 0) 0 0)) = .ok column ∧
      (column.values = (constant type vector).values ↔ (constant type vector).Kept) := by
  have hroom : vector.count + 0 ≤ standardVectorSize := hvalid.count_le
  have hopen : Vector.Open { data := fun _ => (0 : BitVec type.width) } := ⟨rfl, fun _ _ => rfl⟩
  obtain ⟨target, happend, hcount, hrows⟩ := Vector.appendFromStorage_eq type.nullValue
    { data := fun j => ((List.range vector.count).map
        (vector.copyToStorage type.nullValue (fun _ => 0) 0 0)).getD j 0
      count := vector.count } hopen hroom
  refine ⟨constant type { target with count := vector.count }, ?_, ?_⟩
  · simp only [ofStorage, happend]
    rfl
  · have htarget : { target with count := vector.count } = target := by
      rw [Nat.zero_add] at hcount
      cases target
      cases hcount
      rfl
    rw [values, values, htarget, hrows, Vector.rows, Vector.rows, range_zero, map_nil,
      nil_append, map_map, map_map, map_inj_left]
    refine forall_congr' fun k => ?_
    rw [mem_range]
    refine imp_congr_right fun hk => ?_
    simp only [comp_apply, Vector.position_none, getD_map_range hk]
    rw [Vector.copyToStorage_apply type.nullValue hvalid _ (by simp [Vector.copied])
      (by simpa [Vector.copied] using hk), Nat.zero_add, ← Vector.decode_stored_iff]
    exact ⟨type.rowValue_injective, congrArg type.rowValue⟩

/-- The string that is stored for an entry. -/
def source (entry : Option (List UInt8)) : List UInt8 :=
  entry.getD strNil

theorem readEntry_source (h : ∀ str, entry = some str → 0 ∉ str) : readEntry (source entry) =
      if source entry = strNil then (none, true) else (some (source entry), false) := by
  have hsource : 0 ∉ source entry := by
    cases entry with
    | none => decide
    | some str => exact h str rfl
  have htake : (source entry).takeWhile (· ≠ 0) = source entry := by
    rw [takeWhile_eq_self_iff]
    intro c hc
    simpa using ne_of_mem_of_not_mem hc hsource
  rw [readEntry, htake]

/-- The row that is read for an entry. -/
def readRow (entry : Option (List UInt8)) : Option (Option (List UInt8)) :=
  if source entry = strNil then none else some (some (source entry))

theorem varcharValue_readRow_iff {row : Option (Option (List UInt8))} (hrow : row ≠ some none) :
    varcharValue (readRow entry) = varcharValue row ↔
      (row = none → entry = none ∨ entry = some strNil) ∧
      ∀ val, row = some val → entry = val ∧ val ≠ some strNil := by
  obtain _ | _ | str := row
  · cases entry with
    | none => simp [readRow, source, varcharValue]
    | some str' => by_cases hstr : str' = strNil <;> simp [readRow, source, varcharValue, hstr]
  · exact absurd rfl hrow
  · cases entry with
    | none => simp [readRow, source, varcharValue]
    | some str' =>
      by_cases hstr : str' = strNil
      · simp [readRow, source, varcharValue, hstr]
        exact fun h => h.symm
      · simp [readRow, source, varcharValue, hstr]
        rintro rfl
        exact hstr

theorem ofStrings_eq (hvalid : (varchar vector).Valid) :
    (ofStrings vector.count ((List.range vector.count).map fun j => source (vector.data j))).values =
      (varchar vector).values ↔ (varchar vector).Kept := by
  obtain ⟨-, hrow, hterminator⟩ := hvalid
  rw [ofStrings, values, values, Vector.rows, Vector.rows, map_map, map_map, map_inj_left]
  refine forall_congr' fun k => ?_
  rw [mem_range]
  refine imp_congr_right fun hk => ?_
  rw [← varcharValue_readRow_iff (hrow k hk), comp_apply, comp_apply, Vector.row]
  simp only [Vector.position_none, getD_map_range hk, readEntry_source (hterminator k)]
  rw [readRow]
  split <;> rfl

/-! ### Stored columns -/

theorem deserialize_typeId {rows : ℕ} :
    deserialize rows type.typeId = deserializeConstant rows type := by
  cases type <;> rfl

theorem serialize_varchar {size : ℕ} : (varchar vector).serialize size =
      ((List.range size).map fun j => source (vector.data j)).flatMap writeBytes := by
  rw [serialize, flatMap_map]
  refine flatMap_congr fun j _ => ?_
  cases vector.data j <;> rfl

theorem readMany_map_range {write : α → List UInt8} {read : Deserializer α} {fits : α → Prop}
    (h : Exact write read fits) {n : ℕ} (hfits : ∀ k < n, fits (f k)) (rest : List UInt8) :
    readMany read n (((List.range n).map f).flatMap write ++ rest) =
      .ok ((List.range n).map f, rest) := by
  have hmem : ∀ a ∈ (List.range n).map f, fits a := by simpa using hfits
  have hread := readMany_flatMap (fun a _ => h.toAt a) hmem rest
  rwa [length_map, length_range] at hread

theorem exists_deserialize_eq (hvalid : column.Valid) (hfits : column.Fits) (rest : List UInt8) :
    ∃ column', deserialize column.count column.type (column.serialize column.count ++ rest) =
        .ok (column', rest) ∧ (column'.values = column.values ↔ column.Kept) := by
  cases column with
  | constant type vector =>
    obtain ⟨column', hcolumn, hkept⟩ := ofStorage_eq hvalid
    refine ⟨column', ?_, hkept⟩
    have hread := readMany_map_range (exact_readBits type.width_eq)
      (f := vector.copyToStorage type.nullValue (fun _ => 0) 0 0) (n := vector.count)
      (fun _ _ => trivial) rest
    rw [flatMap_map] at hread
    change deserialize vector.count type.typeId _ = _
    rw [deserialize_typeId, deserializeConstant]
    refine (Reader.bind_of_eq_ok hread).trans ?_
    rw [hcolumn]
    rfl
  | varchar vector =>
    refine ⟨_, ?_, ofStrings_eq hvalid⟩
    have hread := readMany_map_range exact_readBytes (f := fun j => source (vector.data j))
      (n := vector.count) (fun k hk => ?_) rest
    · rw [serialize_varchar]
      exact (Reader.bind_of_eq_ok hread).trans rfl
    · cases hentry : vector.data k with
      | none => exact (by decide : strNil.length < 256 ^ 4)
      | some str => exact hfits k hk str hentry

end Column

namespace ColumnChunk

/-! ### Chunks -/

/-- The chunks the source works with. -/
def Valid (chunk : ColumnChunk) : Prop :=
  ∀ column ∈ chunk.columns, column.Valid ∧ column.count = chunk.size

/-- The numbers of a chunk fit into the bytes they are stored in. -/
def Fits (chunk : ColumnChunk) : Prop :=
  chunk.columns.length < 256 ^ 8 ∧ ∀ column ∈ chunk.columns, column.Fits

variable {chunk : ColumnChunk}

theorem exact_readType :
    Exact (fun type : TypeId => write 4 type.number) readType fun _ => True where
  read_write type _ rest := by
    have hlt : type.number < 256 ^ 4 := type.number_lt.trans (by decide)
    rw [readType, (exact_read 4).bind_write hlt, TypeId.ofNumber_number]
    rfl
  fits_of_read _ _ _ _ := trivial

theorem exists_deserializeColumns_eq {size : ℕ} {columns : List Column}
    (h : ∀ column ∈ columns, column.Valid ∧ column.Fits ∧ column.count = size) (rest : List UInt8) :
    ∃ columns', deserializeColumns size (columns.map Column.type)
        (columns.flatMap (Column.serialize size) ++ rest) = .ok (columns', rest) ∧
      (columns'.map Column.values = columns.map Column.values ↔
        ∀ column ∈ columns, column.Kept) := by
  induction columns with
  | nil => exact ⟨[], rfl, by simp⟩
  | cons column columns ih =>
    obtain ⟨⟨hvalid, hfits, rfl⟩, hrest⟩ := forall_mem_cons.mp h
    obtain ⟨columns', hcolumns, hkept'⟩ := ih hrest
    obtain ⟨column', hcolumn, hkept⟩ := Column.exists_deserialize_eq hvalid hfits
      (columns.flatMap (Column.serialize column.count) ++ rest)
    refine ⟨column' :: columns', ?_, ?_⟩
    · rw [map_cons, flatMap_cons, append_assoc, deserializeColumns,
        Reader.bind_of_eq_ok hcolumn, Reader.bind_of_eq_ok hcolumns]
      rfl
    · rw [map_cons, map_cons, List.cons.injEq, hkept, hkept', forall_mem_cons]

theorem size_le (h : chunk.Valid) : chunk.size ≤ standardVectorSize := by
  obtain ⟨_ | ⟨column, columns⟩⟩ := chunk
  · exact Nat.zero_le _
  · have hvalid := (h column mem_cons_self).1
    cases column with
    | constant type vector => exact hvalid.count_le
    | varchar vector => exact hvalid.1.count_le

theorem exists_deserialize_eq (hvalid : chunk.Valid) (hfits : chunk.Fits) (rest : List UInt8) :
    ∃ chunk', deserialize (chunk.serialize ++ rest) = .ok (chunk', rest) ∧
      (chunk'.values = chunk.values ↔ ∀ column ∈ chunk.columns, column.Kept) := by
  obtain ⟨columns', hcolumns, hkept⟩ := exists_deserializeColumns_eq
    (fun column hmem => ⟨(hvalid column hmem).1, hfits.2 column hmem, (hvalid column hmem).2⟩) rest
  have hmem : ∀ type ∈ chunk.columns.map Column.type, True := fun _ _ => trivial
  have htypes := readMany_flatMap (fun a _ => exact_readType.toAt a) hmem
    (chunk.columns.flatMap (Column.serialize chunk.size) ++ rest)
  rw [length_map, flatMap_map] at htypes
  have hsize : chunk.size < 256 ^ 2 := (size_le hvalid).trans_lt (by decide)
  refine ⟨{ columns := columns' }, ?_, hkept⟩
  rw [serialize, deserialize, append_assoc, (exact_read 2).bind_write hsize, append_assoc,
    (exact_read 8).bind_write hfits.1, append_assoc, Reader.bind_of_eq_ok htypes,
    Reader.bind_of_eq_ok hcolumns]
  rfl

/-- The stored form of a chunk gives its rows back, whatever follows it. -/
def ReadBack (chunk : ColumnChunk) : Prop :=
  ∀ rest, ∃ chunk', deserialize (chunk.serialize ++ rest) = .ok (chunk', rest) ∧
    chunk'.values = chunk.values

theorem readBack_iff (hvalid : chunk.Valid) (hfits : chunk.Fits) :
    chunk.ReadBack ↔ ∀ column ∈ chunk.columns, column.Kept := by
  constructor
  · intro h
    obtain ⟨chunk', hread, hvalues⟩ := h []
    obtain ⟨chunk'', hread', hkept⟩ := exists_deserialize_eq hvalid hfits []
    obtain ⟨rfl, -⟩ := Prod.mk.inj (Except.ok.inj (hread.symm.trans hread'))
    exact hkept.mp hvalues
  · intro h rest
    obtain ⟨chunk', hread, hkept⟩ := exists_deserialize_eq hvalid hfits rest
    exact ⟨chunk', hread, hkept.mpr h⟩

/-- Storage gives a chunk back exactly if no row holds the value that it takes for NULL, and the
stored form of a chunk that fits exactly if in addition the entries of the columns of strings are
those of the rows. -/
theorem restored_iff {chunk : ColumnChunk} (hvalid : chunk.Valid) :
    ((∀ column ∈ chunk.columns, column.Restored) ↔
      ∀ column ∈ chunk.columns, column.NoSentinel) ∧
    (chunk.Fits → (chunk.ReadBack ↔ ∀ column ∈ chunk.columns, column.Kept)) :=
  ⟨forall₂_congr fun column hmem => Column.restored_iff_noSentinel (hvalid column hmem).1,
    readBack_iff hvalid⟩

/-- A column of numbers and one of strings, with a NULL in each. -/
def twoColumns : ColumnChunk where
  columns := [
    .constant .integer { data := fun j => BitVec.ofNat 32 j, nullmask := (· == 0), count := 2 },
    .varchar { data := fun j => if j = 0 then some [100] else none, nullmask := (· == 1), count := 2 }]

/-- Both columns are given back. -/
theorem restored_twoColumns :
    (∀ column ∈ twoColumns.columns, column.Restored) ∧ twoColumns.ReadBack := by
  have hlt {k : ℕ} (hk : k < 2) : k = 0 ∨ k = 1 := by omega
  have hvalid : twoColumns.Valid := by
    intro column hmem
    simp only [twoColumns, mem_cons, not_mem_nil, or_false] at hmem
    obtain rfl | rfl := hmem
    · exact ⟨⟨by decide, fun k hk => hk.trans (by decide)⟩, rfl⟩
    · refine ⟨⟨⟨by decide, fun k hk => hk.trans (by decide)⟩, fun k hk => ?_, fun j str h => ?_⟩, rfl⟩
      · obtain rfl | rfl := hlt hk <;> decide
      · simp only at h
        split at h <;> cases h
        decide
  have hfits : twoColumns.Fits := by
    refine ⟨by decide, fun column hmem => ?_⟩
    simp only [twoColumns, mem_cons, not_mem_nil, or_false] at hmem
    obtain rfl | rfl := hmem
    · trivial
    · intro j _ str h
      simp only at h
      split at h <;> cases h
      decide
  have hiff := restored_iff hvalid
  rw [hiff.1, hiff.2 hfits]
  constructor <;> intro column hmem <;>
    simp only [twoColumns, mem_cons, not_mem_nil, or_false] at hmem <;>
    obtain rfl | rfl := hmem
  · intro k hk
    obtain rfl | rfl := hlt hk <;> decide
  · intro k hk
    obtain rfl | rfl := hlt hk <;> decide
  · intro k hk
    obtain rfl | rfl := hlt hk <;> decide
  · intro k hk
    obtain rfl | rfl := hlt hk
    · refine ⟨fun h => ?_, fun val h => ?_⟩
      · cases h
      · cases h
        decide
    · refine ⟨fun _ => .inl rfl, fun val h => ?_⟩
      cases h

/-- The smallest number. -/
def smallest : ColumnChunk where
  columns := [.constant .integer { data := fun _ => BitVec.intMin 32, count := 1 }]

/-- Two strings, of which the selection vector picks the second one. -/
def second : ColumnChunk where
  columns := [
    .varchar
      { data := fun j => some [if j = 0 then 97 else 98], selVector := some (· + 1), count := 1 }]

/-- The smallest number is not given back, and of the selected string `b` the string `a` is. -/
theorem not_restored_smallest :
    (smallest.Valid ∧ smallest.Fits ∧ ¬(∀ column ∈ smallest.columns, column.Restored) ∧
      ¬smallest.ReadBack) ∧
    (second.values = [[.varchar [98]]] ∧
      ∃ chunk, deserialize second.serialize = .ok (chunk, []) ∧
        chunk.values = [[.varchar [97]]]) := by
  have hvalid : smallest.Valid := by
    intro column hmem
    obtain rfl := mem_singleton.mp hmem
    exact ⟨⟨by decide, fun k hk => hk.trans (by decide)⟩, rfl⟩
  have hfits : smallest.Fits := by
    refine ⟨by decide, fun column hmem => ?_⟩
    obtain rfl := mem_singleton.mp hmem
    trivial
  refine ⟨⟨hvalid, hfits, fun h => ?_, fun h => ?_⟩, rfl, _, rfl, rfl⟩
  · have hrow := (Column.restored_iff_noSentinel (hvalid _ mem_cons_self).1).mp
      (h _ mem_cons_self) 0 Nat.one_pos
    exact hrow rfl
  · have hrow := (readBack_iff hvalid hfits).mp h _ mem_cons_self 0 Nat.one_pos
    exact hrow rfl

end ColumnChunk

end DuckDB
