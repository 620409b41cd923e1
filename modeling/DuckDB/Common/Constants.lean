import Mathlib.Data.List.Forall2
import Mathlib.Data.Nat.Notation

/-!
# Constants and exceptions

The compile-time constants of `common/constants.hpp` and of `transaction_manager.cpp`, and the
exceptions the storage and transaction code throws. An exception keeps the text the source passes
to its constructor.
-/

namespace DuckDB

/-- `STANDARD_VECTOR_SIZE`: the number of rows of a `DataChunk`. -/
def standardVectorSize : ℕ := 1024

/-- `STORAGE_CHUNK_SIZE`: the number of rows a `StorageChunk` has room for. -/
def storageChunkSize : ℕ := 10240

/-- `TRANSACTION_ID_START`: transaction ids count up from `2^32`, timestamps from `0`. -/
def transactionIdStart : ℕ := 4294967296

/-- `MAXIMUM_QUERY_ID`: the `active_query` of a transaction that runs no query. -/
def maximumQueryId : ℕ := 18446744073709551615

/-- The exception classes of `common/exception.hpp` that the modelled code throws. `assertion` is a
failed `assert`. -/
inductive Exception where
  | exception (message : String)
  | transactionException (message : String)
  | catalogException (message : String)
  | constraintException (message : String)
  | outOfRangeException (message : String)
  | notImplementedException (message : String)
  | ioException (message : String)
  | parserException (message : String)
  | conversionException (message : String)
  | binderException (message : String)
  | serializationException (message : String)
  | assertion
deriving DecidableEq, Repr

variable {α β ε : Type} {l : List α} {f : α → Except ε β}

theorem bind_eq_ok {x : Except ε α} {b : β} : (x >>= f) = .ok b ↔ ∃ a, x = .ok a ∧ f a = .ok b := by
  cases x <;> simp [bind, Except.bind]

theorem return_eq_ok {a b : α} : (return a : Except ε α) = .ok b ↔ a = b := by
  simp [pure, Except.pure]

theorem mapM_eq_ok_iff {l' : List β} :
    l.mapM f = .ok l' ↔ List.Forall₂ (fun a b => f a = .ok b) l l' := by
  induction l generalizing l' with
  | nil =>
    rw [List.mapM_nil, return_eq_ok, List.forall₂_nil_left_iff]
    exact eq_comm
  | cons a l ih =>
    rw [List.mapM_cons, bind_eq_ok, List.forall₂_cons_left_iff]
    simp only [bind_eq_ok, return_eq_ok, ih]
    constructor
    · rintro ⟨b, hb, bs, hbs, rfl⟩
      exact ⟨b, bs, hb, hbs, rfl⟩
    · rintro ⟨b, bs, hb, hbs, rfl⟩
      exact ⟨b, hb, bs, hbs, rfl⟩

theorem mapM_eq_ok_map_iff {g : α → β} : l.mapM f = .ok (l.map g) ↔ ∀ a ∈ l, f a = .ok (g a) := by
  rw [mapM_eq_ok_iff, List.forall₂_map_right_iff, List.forall₂_same]

end DuckDB
