import DuckDB.Common.Equiv.Serializer
import DuckDB.Common.Value

/-!
# Stored values and checked strings

A value is read back from what it is stored as, except that a `FLOAT` is written as a `double` and
read as a `float`, so that half of it is left over.

The check of a string accepts exactly the sequences of groups of bytes whose first byte says how
many bytes follow, and the nil marker; it needs no byte behind the terminator.

## Main results

- `Value.deserialize_serialize_iff` — which values are read back
- `Value.isUTF8String_terminated` — what the check accepts, whatever follows the terminator
-/

namespace DuckDB

open Theory Serializer Deserializer List

/-! ### Types -/

theorem TypeId.ofNumber_number (type : TypeId) : ofNumber type.number = some type := by
  cases type <;> rfl

theorem TypeId.number_lt (type : TypeId) : type.number < 256 ^ 1 := by
  cases type <;> decide

theorem TypeId.exact_deserialize :
    Exact (fun type : TypeId => write 1 type.number) TypeId.deserialize fun _ => True where
  read_write type _ rest := by
    rw [TypeId.deserialize, (exact_read 1).bind_write type.number_lt, ofNumber_number]
    rfl
  fits_of_read _ _ _ _ := trivial

namespace Value

variable {value : Value} {bytes group : List UInt8}

/-! ### Values -/

/-- The values that are read back: a `FLOAT` is none of them, and the length of a string has to fit
into four bytes. -/
def Storable : Value → Prop
  | float _ => False
  | varchar val => val.length < 256 ^ 4
  | _ => True

theorem at_readBits {w : ℕ} (hw : 8 * (w / 8) = w) {f : BitVec w → Value}
    (hf : ∀ a b, f a = f b → a = b) (val : BitVec w) :
    Exact.At (writeBits val) (do let val ← readBits w; pure (f val)) (f val) True :=
  (exact_readBits hw).at_map hf val

theorem at_deserializeData {data : List UInt8} (hdata : value.serializeData = .ok data)
    (hnull : value.isNull = false) (hfloat : value.type ≠ .float) :
    Exact.At data (deserializeData value.type) value value.Storable := by
  cases value with
  | null type => cases hnull
  | invalid | varbinary val => cases hdata
  | float val => exact absurd rfl hfloat
  | boolean val | tinyint val | smallint val | integer val | bigint val | pointer val | double val =>
    obtain rfl := Except.ok.inj hdata
    exact at_readBits rfl (fun _ _ h => by injection h) val
  | varchar val =>
    obtain rfl := Except.ok.inj hdata
    exact exact_readBytes.at_map (fun _ _ => Value.varchar.inj) val

theorem serialize_eq_ok_iff : value.serialize = .ok bytes ↔ ∃ data, value.serializeData = .ok data ∧
      write 1 value.type.number ++ (write 1 value.isNull.toNat ++ data) = bytes := by
  simp only [serialize, bind_eq_ok, return_eq_ok]

theorem isNull_lt (value : Value) : value.isNull.toNat < 256 ^ 1 :=
  Nat.lt_of_le_of_lt (Bool.toNat_le _) (by decide)

theorem deserialize_append (value : Value) (data : List UInt8) :
    deserialize (write 1 value.type.number ++ (write 1 value.isNull.toNat ++ data)) =
      (if value.isNull then pure (null value.type) else deserializeData value.type) data := by
  rw [deserialize, TypeId.exact_deserialize.bind_write trivial,
    (exact_read 1).bind_write value.isNull_lt]
  cases value.isNull <;> rfl

theorem deserializeData_float (val : BitVec 32) (rest : List UInt8) :
    deserializeData .float (writeBits (floatToDouble val) ++ rest) ≠ .ok (float val, rest) := by
  intro hread
  obtain ⟨val', middle, hval, hpure⟩ := Reader.bind_eq_ok.mp hread
  obtain ⟨n, last, hn, hpure'⟩ := Reader.bind_eq_ok.mp hval
  obtain ⟨data, left, hdata, hpure''⟩ := Reader.bind_eq_ok.mp hn
  obtain ⟨-, rfl⟩ := Reader.pure_eq_ok.mp hpure
  obtain ⟨-, rfl⟩ := Reader.pure_eq_ok.mp hpure'
  obtain ⟨-, rfl⟩ := Reader.pure_eq_ok.mp hpure''
  rw [readData, takeExactly] at hdata
  split at hdata
  · cases hdata
  · have hlength := congrArg List.length (Prod.mk.inj (Except.ok.inj hdata)).2
    rw [length_drop, length_append, writeBits, Serializer.write, length_digits] at hlength
    omega

theorem eq_null (h : value.isNull = true) : value = null value.type := by
  cases value with
  | null type => rfl
  | _ => cases h

theorem exists_eq_float (hnull : value.isNull = false) (htype : value.type = .float) :
    ∃ val, value = float val := by
  cases value with
  | null type => cases hnull
  | float val => exact ⟨val, rfl⟩
  | _ => cases htype

/-- A value that is no `FLOAT` is read back if it is storable. -/
theorem at_deserialize (h : value.serialize = .ok bytes)
    (hfloat : value.isNull = false → value.type ≠ .float) :
    Exact.At bytes deserialize value value.Storable := by
  obtain ⟨data, hdata, rfl⟩ := serialize_eq_ok_iff.mp h
  cases hnull : value.isNull with
  | true =>
    rw [eq_null hnull] at hdata ⊢
    obtain rfl := Except.ok.inj hdata
    refine ⟨fun _ rest => ?_, fun _ _ _ => trivial⟩
    rw [append_assoc, append_assoc]
    exact deserialize_append (null value.type) rest
  | false =>
    have hat := at_deserializeData hdata hnull (hfloat hnull)
    have hread (rest : List UInt8) :
        deserialize (write 1 value.type.number ++ (write 1 false.toNat ++ data) ++ rest) =
          deserializeData value.type (data ++ rest) := by
      have happend := deserialize_append value (data ++ rest)
      rw [hnull] at happend
      rw [append_assoc, append_assoc]
      exact happend
    refine ⟨fun hstorable rest => ?_, fun rest rest' hrest => ?_⟩
    · rw [hread]
      exact hat.read_write hstorable rest
    · rw [hread] at hrest
      exact hat.fits_of_read rest rest' hrest

/-- A value is read back from its stored bytes, whatever follows them, exactly if it is storable. -/
theorem deserialize_serialize_iff {value : Value} {bytes : List UInt8}
    (h : value.serialize = .ok bytes) :
    (∀ rest, deserialize (bytes ++ rest) = .ok (value, rest)) ↔ value.Storable := by
  by_cases hfloat : value.isNull = false ∧ value.type = .float
  · obtain ⟨val, rfl⟩ := exists_eq_float hfloat.1 hfloat.2
    obtain ⟨data, hdata, rfl⟩ := serialize_eq_ok_iff.mp h
    obtain rfl := Except.ok.inj hdata
    refine ⟨fun hread => deserializeData_float val [] ?_, fun h => h.elim⟩
    have hread := hread []
    rw [append_assoc, append_assoc, deserialize_append] at hread
    exact hread
  · have hat := at_deserialize h (not_and.mp hfloat)
    exact ⟨fun hread => hat.fits_of_read [] [] (hread []), hat.read_write⟩

/-- The string `duck` is read back. -/
theorem deserialize_serialize_duck :
    (varchar [100, 117, 99, 107]).serialize = .ok [9, 0, 4, 0, 0, 0, 100, 117, 99, 107] ∧
      ∀ rest, deserialize ([9, 0, 4, 0, 0, 0, 100, 117, 99, 107] ++ rest) =
        .ok (varchar [100, 117, 99, 107], rest) := by
  have hbytes : (varchar [100, 117, 99, 107]).serialize =
      .ok [9, 0, 4, 0, 0, 0, 100, 117, 99, 107] := rfl
  exact ⟨hbytes, (deserialize_serialize_iff hbytes).mpr (show 4 < 256 ^ 4 by decide)⟩

/-- The `FLOAT` 1.5 is stored in ten bytes; read back, it is 0, and four bytes are left. -/
theorem deserialize_serialize_float :
    (float 0x3FC00000).serialize = .ok [7, 0, 0, 0, 0, 0, 0, 0, 248, 63] ∧
      deserialize [7, 0, 0, 0, 0, 0, 0, 0, 248, 63] = .ok (float 0, [0, 0, 248, 63]) := by
  constructor <;> rfl

/-! ### Strings -/

/-- A group of bytes: the first byte says how many bytes follow that start with the bits `10`. -/
inductive Group : List UInt8 → Prop
  | one {c : UInt8} : c ≠ 0 → c &&& 0x80 = 0 → Group [c]
  | two {c c₁ : UInt8} : c &&& 0xE0 = 0xC0 → c₁ &&& 0xC0 = 0x80 → Group [c, c₁]
  | three {c c₁ c₂ : UInt8} : c &&& 0xF0 = 0xE0 → c₁ &&& 0xC0 = 0x80 → c₂ &&& 0xC0 = 0x80 →
    Group [c, c₁, c₂]
  | four {c c₁ c₂ c₃ : UInt8} : c &&& 0xF8 = 0xF0 → c₁ &&& 0xC0 = 0x80 → c₂ &&& 0xC0 = 0x80 →
    c₃ &&& 0xC0 = 0x80 → Group [c, c₁, c₂, c₃]

/-- A sequence of groups. -/
def WellFormed (bytes : List UInt8) : Prop :=
  ∃ groups : List (List UInt8), (∀ group ∈ groups, Group group) ∧ groups.flatten = bytes

theorem wellFormed_nil : WellFormed [] :=
  ⟨[], by simp, rfl⟩

theorem Group.append (h : Group group) (hbytes : WellFormed bytes) :
    WellFormed (group ++ bytes) := by
  obtain ⟨groups, hgroups, rfl⟩ := hbytes
  exact ⟨group :: groups, forall_mem_cons.mpr ⟨h, hgroups⟩, rfl⟩

theorem and_of_and {c mask part val : UInt8} (h : c &&& mask = val) (hpart : mask &&& part = part) :
    c &&& part = val &&& part := by
  rw [← h, UInt8.and_assoc, hpart]

/-- The first byte of a group of several bytes is not the terminator. -/
theorem ne_zero_of_and {c mask : UInt8} (h : c &&& mask ≠ 0) : c ≠ 0 := by
  rintro rfl
  exact h UInt8.zero_and

theorem isUTF8Loop_group (h : Group group) {s : List UInt8} :
    isUTF8Loop (group ++ s) = isUTF8Loop s := by
  cases h with
  | @one c hc hlead =>
    rw [singleton_append, isUTF8Loop.eq_def]
    simp only [if_neg hc, if_pos hlead]
  | @two c c₁ hlead h₁ =>
    have h80 : c &&& 0x80 = 0x80 := and_of_and hlead rfl
    have hc : c ≠ 0 := ne_zero_of_and (by rw [h80]; decide)
    rw [isUTF8Loop.eq_def]
    simp [hc, h80, h₁, hlead]
  | @three c c₁ c₂ hlead h₁ h₂ =>
    have h80 : c &&& 0x80 = 0x80 := and_of_and hlead rfl
    have hE0 : c &&& 0xE0 = 0xE0 := and_of_and hlead rfl
    have hc : c ≠ 0 := ne_zero_of_and (by rw [h80]; decide)
    rw [isUTF8Loop.eq_def]
    simp [hc, h80, h₁, hE0, h₂, hlead]
  | @four c c₁ c₂ c₃ hlead h₁ h₂ h₃ =>
    have h80 : c &&& 0x80 = 0x80 := and_of_and hlead rfl
    have hE0 : c &&& 0xE0 = 0xE0 := and_of_and hlead rfl
    have hF0 : c &&& 0xF0 = 0xF0 := and_of_and hlead rfl
    have hc : c ≠ 0 := ne_zero_of_and (by rw [h80]; decide)
    rw [isUTF8Loop.eq_def]
    simp [hc, h80, h₁, hE0, h₂, hF0, h₃, hlead]

/-- The loop accepts a sequence of groups. -/
theorem isUTF8Loop_of_wellFormed (h : WellFormed bytes) {after : List UInt8} :
    isUTF8Loop (bytes ++ 0 :: after) = some true := by
  obtain ⟨groups, hgroups, rfl⟩ := h
  induction groups with
  | nil =>
    rw [flatten_nil, nil_append, isUTF8Loop.eq_def]
    simp only [if_true]
  | cons group groups ih =>
    obtain ⟨hgroup, hgroups⟩ := forall_mem_cons.mp hgroups
    rw [flatten_cons, append_assoc, isUTF8Loop_group hgroup, ih hgroups]

/-- The loop ends with `b` at the terminator at the latest, and only a sequence of groups is
accepted. -/
def Decides (result : Option Bool) (bytes : List UInt8) : Prop :=
  ∃ b, result = some b ∧ (b = true → WellFormed bytes)

theorem decides_false : Decides (some false) bytes :=
  ⟨false, rfl, by simp⟩

theorem Group.decides {result : Option Bool} (h : Group group) (hresult : Decides result bytes) :
    Decides result (group ++ bytes) := by
  obtain ⟨b, hb, hwell⟩ := hresult
  exact ⟨b, hb, fun hb' => h.append (hwell hb')⟩

/-- The terminator is no continuation byte, so no byte behind it is read. -/
theorem decides_isUTF8Loop (after bytes : List UInt8) (hbytes : 0 ∉ bytes) :
    Decides (isUTF8Loop (bytes ++ 0 :: after)) bytes := by
  induction hn : bytes.length using Nat.strong_induction_on generalizing bytes with
  | _ n ih =>
  have hnext {rest : List UInt8} (hlength : rest.length < n) (hrest : 0 ∈ rest → 0 ∈ bytes) :
      Decides (isUTF8Loop (rest ++ 0 :: after)) rest :=
    ih rest.length hlength rest (mt hrest hbytes) rfl
  rw [isUTF8Loop.eq_def]
  cases bytes with
  | nil => exact ⟨true, by simp, fun _ => wellFormed_nil⟩
  | cons c bytes =>
  have hc : c ≠ 0 := fun h => hbytes (by simp [h])
  simp only [cons_append, if_neg hc]
  by_cases h80 : c &&& 0x80 = 0
  · simp only [if_pos h80]
    exact (Group.one hc h80).decides (hnext (by simp [← hn]) (by simp +contextual))
  simp only [if_neg h80]
  cases bytes with
  | nil => exact decides_false
  | cons c₁ bytes =>
  simp only [cons_append]
  by_cases h₁ : c₁ &&& 0xC0 = 0x80
  swap
  · simp only [if_pos (show c₁ &&& 0xC0 ≠ 0x80 from h₁)]
    exact decides_false
  simp only [if_neg (not_not.mpr h₁)]
  by_cases hE0 : c &&& 0xE0 = 0xC0
  · simp only [if_pos hE0]
    exact (Group.two hE0 h₁).decides
      (hnext (by simp only [← hn, length_cons]; omega) (by simp +contextual))
  simp only [if_neg hE0]
  cases bytes with
  | nil => exact decides_false
  | cons c₂ bytes =>
  simp only [cons_append]
  by_cases h₂ : c₂ &&& 0xC0 = 0x80
  swap
  · simp only [if_pos (show c₂ &&& 0xC0 ≠ 0x80 from h₂)]
    exact decides_false
  simp only [if_neg (not_not.mpr h₂)]
  by_cases hF0 : c &&& 0xF0 = 0xE0
  · simp only [if_pos hF0]
    exact (Group.three hF0 h₁ h₂).decides
      (hnext (by simp only [← hn, length_cons]; omega) (by simp +contextual))
  simp only [if_neg hF0]
  cases bytes with
  | nil => exact decides_false
  | cons c₃ bytes =>
  simp only [cons_append]
  by_cases h₃ : c₃ &&& 0xC0 = 0x80
  swap
  · simp only [if_pos (show c₃ &&& 0xC0 ≠ 0x80 from h₃)]
    exact decides_false
  simp only [if_neg (not_not.mpr h₃)]
  by_cases hF8 : c &&& 0xF8 = 0xF0
  · simp only [if_pos hF8]
    exact (Group.four hF8 h₁ h₂ h₃).decides
      (hnext (by simp only [← hn, length_cons]; omega) (by simp +contextual))
  · simp only [if_neg hF8]
    exact decides_false

/-- The loop accepts exactly the sequences of groups. -/
theorem exists_isUTF8Loop_eq (bytes after : List UInt8) (hbytes : 0 ∉ bytes) :
    ∃ b, isUTF8Loop (bytes ++ 0 :: after) = some b ∧ (b = true ↔ WellFormed bytes) := by
  obtain ⟨b, hb, hwell⟩ := decides_isUTF8Loop after bytes hbytes
  refine ⟨b, hb, hwell, fun h => ?_⟩
  rw [isUTF8Loop_of_wellFormed h] at hb
  exact (Option.some.inj hb).symm

theorem isStrNil_terminated (bytes after : List UInt8) (hbytes : 0 ∉ bytes) :
    isStrNil (bytes ++ 0 :: after) = some (decide (bytes = [0x80])) := by
  cases bytes with
  | nil => rfl
  | cons c bytes =>
    cases bytes with
    | nil => by_cases hc : c = 0x80 <;> simp [isStrNil, hc]
    | cons c₁ bytes =>
      have hc₁ : c₁ ≠ 0 := fun h => hbytes (by simp [h])
      by_cases hc : c = 0x80 <;> simp [isStrNil, hc, hc₁]

/-- The check of a string that ends with a terminator has a result, whatever is stored behind it,
and accepts exactly the nil marker and the sequences of groups. -/
theorem isUTF8String_terminated (bytes after : List UInt8) (hbytes : 0 ∉ bytes) :
    ∃ b, isUTF8String (some (bytes ++ 0 :: after)) = some b ∧
      (b = true ↔ bytes = [0x80] ∨ WellFormed bytes) := by
  obtain ⟨b, hb, hwell⟩ := exists_isUTF8Loop_eq bytes after hbytes
  simp only [isUTF8String, isStrNil_terminated bytes after hbytes, Option.bind_eq_bind,
    Option.bind_some]
  by_cases hnil : bytes = [0x80]
  · exact ⟨true, by simp [hnil], by simp [hnil]⟩
  · exact ⟨b, by simp [hnil, hb], by simp [hnil, hwell]⟩

/-- The bytes of `é`, with nothing behind the terminator. -/
theorem isUTF8String_terminated_two :
    0 ∉ [(0xC3 : UInt8), 0xA9] ∧ isUTF8String (some [0xC3, 0xA9, 0]) = some true := by
  have hmem : 0 ∉ [(0xC3 : UInt8), 0xA9] := by decide
  obtain ⟨b, hb, hiff⟩ := isUTF8String_terminated [0xC3, 0xA9] [] hmem
  have hwell : WellFormed [0xC3, 0xA9] := (Group.two rfl rfl).append wellFormed_nil
  obtain rfl := hiff.mpr (.inr hwell)
  exact ⟨hmem, hb⟩

end Value

end DuckDB
