import DuckDB.Common.Serializer

/-!
# What a deserializer reads back

Numbers, texts, strings of bytes and lists are read back if they fit into the bytes that their
length or value is stored in, and only then.
-/

namespace DuckDB.Deserializer

open Theory Serializer

theorem exact_read (width : ℕ) : Exact (write width) (read width) fun n => n < 256 ^ width :=
  exact_digits width

theorem length_toUTF8 (val : String) : val.toUTF8.data.toList.length = val.utf8ByteSize := rfl

theorem fromUTF8?_toUTF8 {val : String} :
    String.fromUTF8? ⟨val.toUTF8.data.toList.toArray⟩ = some val := by
  have hvalid : ByteArray.IsValidUTF8 ⟨val.toUTF8.data.toList.toArray⟩ := val.isValidUTF8
  rw [String.fromUTF8?, dif_pos hvalid]
  rfl

theorem utf8ByteSize_of_fromUTF8? {data : List UInt8} {val : String}
    (h : String.fromUTF8? ⟨data.toArray⟩ = some val) : val.utf8ByteSize = data.length := by
  rw [String.fromUTF8?] at h
  split at h
  · obtain rfl := Option.some.inj h
    rfl
  · cases h

theorem exact_readString : Exact writeString readString fun val => val.utf8ByteSize < 256 ^ 4 where
  read_write val hval rest := by
    have hdata : readData val.utf8ByteSize (val.toUTF8.data.toList ++ rest) =
        .ok (val.toUTF8.data.toList, rest) :=
      takeExactly_append _ (length_toUTF8 val) rest
    rw [writeString, List.append_assoc, readString, (exact_read 4).bind_write hval,
      Reader.bind_of_eq_ok hdata, fromUTF8?_toUTF8]
    rfl
  fits_of_read val rest rest' hread := by
    rw [writeString, List.append_assoc] at hread
    obtain ⟨size, middle, hsize, hnext⟩ := Reader.bind_eq_ok.mp hread
    obtain ⟨data, last, hdata, hval⟩ := Reader.bind_eq_ok.mp hnext
    cases hutf : String.fromUTF8? ⟨data.toArray⟩ with
    | none =>
      rw [hutf] at hval
      cases hval
    | some val' =>
      rw [hutf] at hval
      obtain ⟨rfl, -⟩ := Reader.pure_eq_ok.mp hval
      -- the text has as many bytes as the number that was read
      have hlength := (utf8ByteSize_of_fromUTF8? hutf).trans (length_of_takeExactly hdata)
      rw [← hlength] at hsize
      exact (exact_read 4).fits_of_read _ _ _ hsize

theorem exact_readBits {w : ℕ} (hw : 8 * (w / 8) = w) :
    Exact (writeBits (w := w)) (readBits w) fun _ => True where
  read_write val _ rest := by
    have hlt : val.toNat < 256 ^ (w / 8) := by
      have hpow : 256 ^ (w / 8) = 2 ^ w := by
        rw [show (256 : ℕ) = 2 ^ 8 from rfl, ← Nat.pow_mul, hw]
      rw [hpow]
      exact val.isLt
    rw [writeBits, readBits, (exact_read (w / 8)).bind_write hlt, BitVec.ofNat_toNat,
      BitVec.setWidth_eq]
    rfl
  fits_of_read _ _ _ _ := trivial

theorem exact_readBytes : Exact writeBytes readBytes fun val => val.length < 256 ^ 4 where
  read_write val hval rest := by
    rw [writeBytes, List.append_assoc, readBytes, (exact_read 4).bind_write hval]
    exact takeExactly_append _ rfl rest
  fits_of_read val rest rest' hread := by
    rw [writeBytes, List.append_assoc] at hread
    obtain ⟨size, middle, hsize, hdata⟩ := Reader.bind_eq_ok.mp hread
    obtain rfl := length_of_takeExactly hdata
    exact (exact_read 4).fits_of_read _ _ _ hsize

theorem at_readList {α : Type} {serialize : α → List UInt8} {deserialize : Deserializer α}
    {fits : α → Prop} {list : List α}
    (h : ∀ a ∈ list, Exact.At (serialize a) deserialize a (fits a)) :
    Exact.At (writeList serialize list) (readList deserialize) list
      (list.length < 256 ^ 4 ∧ ∀ a ∈ list, fits a) :=
  .list (exact_read 4) h

theorem exact_readList {α : Type} {serialize : α → List UInt8} {deserialize : Deserializer α}
    {fits : α → Prop} (h : Exact serialize deserialize fits) :
    Exact (writeList serialize) (readList deserialize)
      fun list => list.length < 256 ^ 4 ∧ ∀ a ∈ list, fits a :=
  .of_at fun _ => at_readList fun a _ => h.toAt a

end DuckDB.Deserializer
