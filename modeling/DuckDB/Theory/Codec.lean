import Mathlib.Data.List.Basic
import Mathlib.Data.UInt

/-!
# Readers and what they read back

A reader takes something off the front of a list, or fails. `Exact write read fits` says that
`read` gives back what `write` has written exactly for the things that `fits`; what follows in the
list does not matter. The rules put exact readers together.

## Main results

- `Exact.pair` — one thing after another
- `Exact.At.list` — a count and that many things
- `ReadsAs.bind`, `ReadsAs.readMany` — reading one thing back, when nothing is said about others
- `Exact.At.tag` — a tag that says what follows
- `exact_digits` — a number in little-endian digits of a fixed width
-/

namespace Theory

open List

variable {ε β α γ : Type} {input rest : List β} {n : ℕ}

/-! ### Readers -/

/-- A reader of a list of `β`. -/
abbrev Reader (ε β : Type) := StateT (List β) (Except ε)

variable {symbols : List β} {read : Reader ε β α} {next : α → Reader ε β γ}

theorem Reader.bind_eq_ok {c : γ} : (read >>= next) input = .ok (c, rest) ↔
      ∃ a middle, read input = .ok (a, middle) ∧ next a middle = .ok (c, rest) := by
  constructor
  · intro h
    change (read input >>= fun p => next p.1 p.2) = _ at h
    cases hread : read input with
    | error e =>
      rw [hread] at h
      cases h
    | ok p =>
      rw [hread] at h
      exact ⟨p.1, p.2, rfl, h⟩
  · rintro ⟨a, middle, hread, hnext⟩
    change (read input >>= fun p => next p.1 p.2) = _
    rw [hread]
    exact hnext

theorem Reader.bind_of_eq_ok {middle : List β} {a : α} (h : read input = .ok (a, middle)) :
    (read >>= next) input = next a middle := by
  change (read input >>= fun p => next p.1 p.2) = _
  rw [h]
  rfl

theorem Reader.pure_eq_ok {a b : α} :
    (pure a : Reader ε β α) input = .ok (b, rest) ↔ a = b ∧ input = rest := by
  change (Except.ok (a, input) : Except ε _) = _ ↔ _
  rw [Except.ok.injEq, Prod.mk.injEq]

/-! ### Exact readers -/

/-- `read` gives back what `write` has written exactly for the things that `fits`. -/
structure Exact (write : α → List β) (read : Reader ε β α) (fits : α → Prop) : Prop where
  read_write : ∀ a, fits a → ∀ rest, read (write a ++ rest) = .ok (a, rest)
  fits_of_read : ∀ a rest rest', read (write a ++ rest) = .ok (a, rest') → fits a

namespace Exact

variable {write : α → List β} {read : Reader ε β α} {fits : α → Prop}
  {write' : γ → List β} {read' : Reader ε β γ} {fits' : γ → Prop}

theorem bind_write (h : Exact write read fits) {a : α} (hfits : fits a) :
    (read >>= next) (write a ++ rest) = next a rest :=
  Reader.bind_of_eq_ok (h.read_write a hfits rest)

/-- Reading one thing back: `bytes` are read as `a` exactly if `fits`. -/
structure At (bytes : List β) (read : Reader ε β α) (a : α) (fits : Prop) : Prop where
  read_write : fits → ∀ rest, read (bytes ++ rest) = .ok (a, rest)
  fits_of_read : ∀ rest rest', read (bytes ++ rest) = .ok (a, rest') → fits

theorem of_at (h : ∀ a, At (write a) read a (fits a)) : Exact write read fits where
  read_write a := (h a).read_write
  fits_of_read a := (h a).fits_of_read

theorem toAt (h : Exact write read fits) (a : α) : At (write a) read a (fits a) where
  read_write := h.read_write a
  fits_of_read := h.fits_of_read a

section At

variable {bytes bytes' : List β} {a : α} {c : γ} {p p' : Prop}

theorem At.rest_eq (h : At bytes read a p) {rest' : List β}
    (hread : read (bytes ++ rest) = .ok (a, rest')) : rest' = rest := by
  have hok := h.read_write (h.fits_of_read rest rest' hread) rest
  rw [hread, Except.ok.injEq, Prod.mk.injEq] at hok
  exact hok.2

/-- One thing after another. -/
theorem At.pair (h : At bytes read a p) (h' : At bytes' read' c p') :
    At (bytes ++ bytes') (do
        let a ← read
        let c ← read'
        pure (a, c))
      (a, c) (p ∧ p') where
  read_write hfits rest := by
    rw [append_assoc, Reader.bind_of_eq_ok (h.read_write hfits.1 _),
      Reader.bind_of_eq_ok (h'.read_write hfits.2 _)]
    rfl
  fits_of_read rest rest' hread := by
    obtain ⟨a, middle, ha, hnext⟩ := Reader.bind_eq_ok.mp hread
    obtain ⟨c, last, hc, hpure⟩ := Reader.bind_eq_ok.mp hnext
    obtain ⟨heq, rfl⟩ := Reader.pure_eq_ok.mp hpure
    obtain ⟨rfl, rfl⟩ := Prod.mk.inj heq
    rw [append_assoc] at ha
    obtain rfl := h.rest_eq ha
    exact ⟨h.fits_of_read _ _ ha, h'.fits_of_read _ _ hc⟩

theorem At.map (h : At bytes read a p) {f : α → γ} (hf : ∀ a b, f a = f b → a = b) :
    At bytes (do let b ← read; pure (f b)) (f a) p where
  read_write hfits rest := by
    rw [Reader.bind_of_eq_ok (h.read_write hfits _)]
    rfl
  fits_of_read rest rest' hread := by
    obtain ⟨b, middle, hb, hpure⟩ := Reader.bind_eq_ok.mp hread
    obtain ⟨hba, rfl⟩ := Reader.pure_eq_ok.mp hpure
    obtain rfl := hf b a hba
    exact h.fits_of_read _ _ hb

end At

theorem pair (h : Exact write read fits) (h' : Exact write' read' fits') :
    Exact (fun p : α × γ => write p.1 ++ write' p.2) (do
        let a ← read
        let c ← read'
        pure (a, c))
      fun p => fits p.1 ∧ fits' p.2 :=
  .of_at fun p => (h.toAt p.1).pair (h'.toAt p.2)

/-- One thing after another that depends on it. -/
theorem sigma {γ : α → Type} {write' : ∀ a, γ a → List β} {read' : ∀ a, Reader ε β (γ a)}
    {fits' : ∀ a, γ a → Prop} (h : Exact write read fits)
    (h' : ∀ a, Exact (write' a) (read' a) (fits' a)) :
    Exact (fun p : Σ a, γ a => write p.1 ++ write' p.1 p.2)
      (do
        let a ← read
        let c ← read' a
        pure ⟨a, c⟩)
      fun p => fits p.1 ∧ fits' p.1 p.2 where
  read_write p hfits rest := by
    rw [append_assoc, h.bind_write hfits.1, (h' p.1).bind_write hfits.2]
    rfl
  fits_of_read p rest rest' hread := by
    obtain ⟨a, middle, ha, hnext⟩ := Reader.bind_eq_ok.mp hread
    obtain ⟨c, last, hc, hpure⟩ := Reader.bind_eq_ok.mp hnext
    obtain ⟨rfl, rfl⟩ := Reader.pure_eq_ok.mp hpure
    rw [append_assoc] at ha
    obtain rfl := (h.toAt a).rest_eq ha
    exact ⟨h.fits_of_read _ _ _ ha, (h' a).fits_of_read _ _ _ hc⟩

theorem at_map (h : Exact write read fits) {f : α → γ} (hf : ∀ a b, f a = f b → a = b) (a : α) :
    At (write a) (do let b ← read; pure (f b)) (f a) (fits a) :=
  (h.toAt a).map hf

/-- A tag, after which the reader knows how to go on. -/
theorem At.tag (h : Exact write read fits) {t : α} (ht : fits t) {bytes : List β} {c : γ} {p : Prop}
    (hnext : At bytes (next t) c p) : At (write t ++ bytes) (read >>= next) c p where
  read_write hp rest := by
    rw [append_assoc, h.bind_write ht]
    exact hnext.read_write hp rest
  fits_of_read rest rest' hread := by
    rw [append_assoc, h.bind_write ht] at hread
    exact hnext.fits_of_read rest rest' hread

end Exact

/-- The symbols are read as `a`, whatever follows them. -/
def ReadsAs (symbols : List β) (read : Reader ε β α) (a : α) : Prop :=
  ∀ rest, read (symbols ++ rest) = .ok (a, rest)

section ReadsAs

variable {symbols' : List β} {a : α} {c : γ}

theorem ReadsAs.bind (h : ReadsAs symbols read a) (hnext : ReadsAs symbols' (next a) c) :
    ReadsAs (symbols ++ symbols') (read >>= next) c := by
  intro rest
  rw [append_assoc, Reader.bind_of_eq_ok (h _)]
  exact hnext rest

theorem ReadsAs.map (h : ReadsAs symbols read a) (f : α → γ) :
    ReadsAs symbols (do let b ← read; pure (f b)) (f a) := by
  intro rest
  rw [Reader.bind_of_eq_ok (h rest)]
  rfl

end ReadsAs

/-! ### Lists -/

/-- Reads `n` things. -/
def readMany (read : Reader ε β α) : ℕ → Reader ε β (List α)
  | 0 => pure []
  | n + 1 => do
    let a ← read
    let as ← readMany read n
    pure (a :: as)

theorem length_readMany {as : List α} (h : readMany read n input = .ok (as, rest)) :
    as.length = n := by
  induction n generalizing input as with
  | zero =>
    obtain ⟨rfl, -⟩ := Reader.pure_eq_ok.mp h
    rfl
  | succ n ih =>
    obtain ⟨a, middle, -, hnext⟩ := Reader.bind_eq_ok.mp h
    obtain ⟨as', last, has, hpure⟩ := Reader.bind_eq_ok.mp hnext
    obtain ⟨rfl, rfl⟩ := Reader.pure_eq_ok.mp hpure
    rw [length_cons, ih has]

section List

variable {write : α → List β} {read : Reader ε β α} {fits : α → Prop} {as : List α}

theorem readMany_flatMap (h : ∀ a ∈ as, Exact.At (write a) read a (fits a))
    (hfits : ∀ a ∈ as, fits a) (rest : List β) :
    readMany read as.length (as.flatMap write ++ rest) = .ok (as, rest) := by
  induction as with
  | nil => rfl
  | cons a as ih =>
    rw [forall_mem_cons] at h hfits
    rw [length_cons, readMany, flatMap_cons, append_assoc,
      Reader.bind_of_eq_ok (h.1.read_write hfits.1 _), Reader.bind_of_eq_ok (ih h.2 hfits.2)]
    rfl

theorem forall_fits_of_readMany (h : ∀ a ∈ as, Exact.At (write a) read a (fits a)) {rest' : List β}
    (hread : readMany read as.length (as.flatMap write ++ rest) = .ok (as, rest')) :
    ∀ a ∈ as, fits a := by
  induction as with
  | nil => simp
  | cons a as ih =>
    rw [forall_mem_cons] at h
    rw [flatMap_cons, append_assoc] at hread
    obtain ⟨b, middle, hb, hnext⟩ := Reader.bind_eq_ok.mp hread
    obtain ⟨bs, last, hbs, hpure⟩ := Reader.bind_eq_ok.mp hnext
    obtain ⟨hcons, rfl⟩ := Reader.pure_eq_ok.mp hpure
    obtain ⟨rfl, rfl⟩ := List.cons.inj hcons
    obtain rfl := h.1.rest_eq hb
    exact forall_mem_cons.mpr ⟨h.1.fits_of_read _ _ hb, ih h.2 hbs⟩

variable {writeCount : ℕ → List β} {readCount : Reader ε β ℕ} {fitsCount : ℕ → Prop}

theorem ReadsAs.readMany (h : ∀ a ∈ as, ReadsAs (write a) read a) :
    ReadsAs (as.flatMap write) (readMany read as.length) as :=
  readMany_flatMap (fun a ha => ⟨fun _ => h a ha, fun _ _ _ => trivial⟩) (fun _ _ => trivial)

/-- A count and that many things. -/
theorem Exact.At.list (hcount : Exact writeCount readCount fitsCount)
    (h : ∀ a ∈ as, Exact.At (write a) read a (fits a)) :
    Exact.At (writeCount as.length ++ as.flatMap write) (do
        let count ← readCount
        readMany read count)
      as (fitsCount as.length ∧ ∀ a ∈ as, fits a) where
  read_write hfits rest := by
    rw [append_assoc, hcount.bind_write hfits.1]
    exact readMany_flatMap h hfits.2 rest
  fits_of_read rest rest' hread := by
    rw [append_assoc] at hread
    obtain ⟨count, middle, hread, hmany⟩ := Reader.bind_eq_ok.mp hread
    -- as many things were read as the count said
    obtain rfl := length_readMany hmany
    obtain rfl := (hcount.toAt _).rest_eq hread
    exact ⟨hcount.fits_of_read _ _ _ hread, forall_fits_of_readMany h hmany⟩

end List

/-! ### Numbers -/

/-- The last `width` digits of a number to the base 256, the lowest one first. -/
def digits : ℕ → ℕ → List UInt8
  | 0, _ => []
  | width + 1, n => UInt8.ofNat n :: digits width (n / 256)

/-- The number with these digits. -/
def ofDigits : List UInt8 → ℕ
  | [] => 0
  | digit :: rest => digit.toNat + 256 * ofDigits rest

@[simp]
theorem length_digits (width n : ℕ) : (digits width n).length = width := by
  induction width generalizing n with
  | zero => rfl
  | succ width ih => rw [digits, length_cons, ih]

theorem ofDigits_digits {width : ℕ} : ofDigits (digits width n) = n % 256 ^ width := by
  induction width generalizing n with
  | zero => rw [digits, ofDigits, pow_zero, Nat.mod_one]
  | succ width ih =>
    rw [digits, ofDigits, ih, pow_succ, Nat.mul_comm (256 ^ width), Nat.mod_mul, UInt8.toNat_ofNat']

/-- Reads `n` symbols, or fails with `e`. -/
def takeExactly (e : ε) (n : ℕ) : Reader ε β (List β) :=
  fun input => if input.length < n then .error e else .ok (input.take n, input.drop n)

theorem takeExactly_append (e : ε) (h : symbols.length = n) (rest : List β) :
    takeExactly e n (symbols ++ rest) = .ok (symbols, rest) := by
  have hlength : ¬(symbols ++ rest).length < n := by
    rw [length_append]
    omega
  rw [takeExactly, if_neg hlength, take_left' h, drop_left' h]

theorem length_of_takeExactly {e : ε} (h : takeExactly e n input = .ok (symbols, rest)) :
    symbols.length = n := by
  rw [takeExactly] at h
  split at h
  · cases h
  · obtain ⟨rfl, -⟩ := Prod.mk.inj (Except.ok.inj h)
    rw [length_take]
    omega

/-- A number is read back if it has at most `width` digits. -/
theorem exact_digits {e : ε} (width : ℕ) :
    Exact (digits width) (do let bytes ← takeExactly e width; pure (ofDigits bytes))
      fun n => n < 256 ^ width where
  read_write n hn rest := by
    rw [Reader.bind_of_eq_ok (takeExactly_append e (length_digits width n) rest),
      ofDigits_digits, Nat.mod_eq_of_lt hn]
    rfl
  fits_of_read n rest rest' hread := by
    rw [Reader.bind_of_eq_ok (takeExactly_append e (length_digits width n) rest),
      ofDigits_digits] at hread
    obtain ⟨hn, -⟩ := Reader.pure_eq_ok.mp hread
    rw [← hn]
    exact Nat.mod_lt _ (Nat.pow_pos (by decide))

/-! ### The end of the input -/

/-- The reader fails with `e`, or reads the same with more symbols behind the input. -/
def Stable (e : ε) (read : Reader ε β α) : Prop :=
  ∀ input, read input = .error e ∨
    ∃ a rest, ∀ more, read (input ++ more) = .ok (a, rest ++ more)

section Stable

variable {e : ε}

theorem Stable.pure {a : α} : Stable e (pure a : Reader ε β α) :=
  fun input => .inr ⟨a, input, fun _ => rfl⟩

theorem Stable.takeExactly : Stable e (takeExactly e n : Reader ε β (List β)) := by
  intro input
  by_cases h : input.length < n
  · exact .inl (if_pos h)
  · refine .inr ⟨input.take n, input.drop n, fun more => ?_⟩
    have hle : ¬(input ++ more).length < n := by
      rw [length_append]
      omega
    rw [Theory.takeExactly, if_neg hle, take_append_of_le_length (by omega),
      drop_append_of_le_length (by omega)]

theorem Stable.bind (h : Stable e read) (hnext : ∀ a, Stable e (next a)) :
    Stable e (read >>= next) := by
  intro input
  obtain herror | ⟨a, rest, hread⟩ := h input
  · left
    change (read input >>= fun p => next p.1 p.2) = _
    rw [herror]
    rfl
  · have hread' := hread []
    rw [append_nil, append_nil] at hread'
    obtain herror | ⟨c, last, hc⟩ := hnext a rest
    · exact .inl ((Reader.bind_of_eq_ok hread').trans herror)
    · exact .inr ⟨c, last, fun more => (Reader.bind_of_eq_ok (hread more)).trans (hc more)⟩

theorem Stable.readMany (h : Stable e read) : Stable e (readMany read n) := by
  induction n with
  | zero => exact .pure
  | succ n ih => exact h.bind fun _ => ih.bind fun _ => .pure

end Stable

end Theory
