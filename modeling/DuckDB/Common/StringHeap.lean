import DuckDB.Theory.Run
import Mathlib.Data.Nat.Notation
import Mathlib.Logic.Function.Basic

/-!
# String heaps

A `StringHeap` owns a chain of chunks, from the newest one along `prev`, and has a raw pointer to
the last one for merging (`common/types/string_heap.cpp`). `Content` is what the heaps are for.

* `holds_step_iff`: when one operation keeps the strings and the tails.
* `holds_run_iff`: the same along a run.
-/

namespace DuckDB

open Theory Function

/-- `StringChunk`, with its strings, the newest one first. -/
structure StringChunk where
  newest : List UInt8
  older : List (List UInt8) := []
  currentPosition : ℕ
  maximumSize : ℕ

/-- `StringHeap`. `tail` points to a chunk of the chain: it is the number of chunks behind that
one. -/
structure StringHeap where
  tail : Option ℕ := none
  chunk : List StringChunk := []

namespace StringHeap

def minimumHeapSize : ℕ := 4096

/-- The strings of the chain. -/
def strings (heap : StringHeap) : List (List UInt8) :=
  heap.chunk.flatMap fun c => c.newest :: c.older

/-- The new chunk that `AddString` makes for a string. -/
def addChunk (heap : StringHeap) (data : List UInt8) : StringHeap where
  tail := heap.tail.or (some heap.chunk.length)
  chunk :=
    { newest := data, currentPosition := data.length + 1,
      maximumSize := max (data.length + 1) minimumHeapSize } :: heap.chunk

/-- `AddString`. -/
def addString (heap : StringHeap) (data : List UInt8) : StringHeap :=
  match heap.chunk with
  | [] => heap.addChunk data
  | c :: chain =>
    if c.currentPosition + data.length ≥ c.maximumSize then heap.addChunk data
    else
      { heap with chunk :=
          { c with newest := data, older := c.newest :: c.older,
                   currentPosition := c.currentPosition + (data.length + 1) } :: chain }

/-- `MergeHeap` of another heap whose tail points to a chunk with `tail` chunks behind it. The
assignment to `prev` frees these. -/
def mergeHeap (heap other : StringHeap) (tail : ℕ) : StringHeap :=
  let chunk := other.chunk.take (other.chunk.length - tail) ++ heap.chunk
  { tail := heap.tail.or (some (chunk.length - 1)), chunk }

/-- The tail is the last chunk, and the strings are these. -/
structure Holds (heap : StringHeap) (strings : List (List UInt8)) : Prop where
  tail_eq : heap.tail = if heap.chunk = [] then none else some 0
  strings_eq : heap.strings = strings

end StringHeap

/-- The operations on the heaps, which have numbers. -/
inductive HeapOp where
  | addString (heap : ℕ) (data : List UInt8)
  | mergeHeap (heap other : ℕ)
  | destroy (heap : ℕ)
  | move (heap other : ℕ)

namespace HeapOp

/-- One operation. `Move` into a heap that is not empty is an assertion. -/
def step (heaps : ℕ → StringHeap) : HeapOp → ℕ → StringHeap
  | addString heap data => update heaps heap ((heaps heap).addString data)
  | mergeHeap heap other =>
    match (heaps other).tail with
    | none => heaps
    -- the chunks of a heap that is merged into itself point at each other, and nothing at them
    | some tail => if heap = other then update heaps heap {} else
      update (update heaps heap ((heaps heap).mergeHeap (heaps other) tail)) other {}
  | destroy heap => update heaps heap {}
  | move heap other =>
    if (heaps other).chunk = [] then update (update heaps other (heaps heap)) heap {} else heaps

/-- What an operation should do to the strings of the heaps. -/
def effect (content : ℕ → List (List UInt8)) : HeapOp → ℕ → List (List UInt8)
  | addString heap data => update content heap (data :: content heap)
  | mergeHeap heap other => if heap = other then content else
    update (update content heap (content other ++ content heap)) other []
  | destroy heap => update content heap []
  | move heap other =>
    if content other = [] then update (update content other (content heap)) heap [] else content

/-- A heap with strings is not merged into itself, and not into an empty one if it has several
chunks. -/
def MergesRightly (heaps : ℕ → StringHeap) : HeapOp → Prop
  | mergeHeap heap other => (heaps other).chunk = [] ∨
    heap ≠ other ∧ ((heaps heap).chunk ≠ [] ∨ (heaps other).chunk.length = 1)
  | _ => True

/-- Every string is in the heap that it should be in, and every tail is the last chunk. -/
def Holds (heaps : ℕ → StringHeap) (content : ℕ → List (List UInt8)) : Prop :=
  ∀ h, (heaps h).Holds (content h)

end HeapOp

/-! ### One operation -/

namespace StringHeap

variable {heap other : StringHeap} {content content' : List (List UInt8)}

theorem holds_nil : ({} : StringHeap).Holds [] := ⟨rfl, rfl⟩

theorem strings_eq_nil_iff : heap.strings = [] ↔ heap.chunk = [] := by
  cases h : heap.chunk <;> simp [strings, h]

theorem Holds.chunk_eq_nil_iff (h : heap.Holds content) : heap.chunk = [] ↔ content = [] := by
  rw [← strings_eq_nil_iff, h.strings_eq]

theorem Holds.addChunk (h : heap.Holds content) (data : List UInt8) :
    (heap.addChunk data).Holds (data :: content) := by
  refine ⟨?_, ?_⟩
  · rw [StringHeap.addChunk, h.tail_eq]
    by_cases hchunk : heap.chunk = [] <;> simp [hchunk]
  · rw [← h.strings_eq]
    rfl

theorem Holds.addString (h : heap.Holds content) (data : List UInt8) :
    (heap.addString data).Holds (data :: content) := by
  rw [StringHeap.addString]
  cases hchunk : heap.chunk with
  | nil => exact h.addChunk data
  | cons c chain =>
    dsimp only
    split_ifs
    · exact h.addChunk data
    · refine ⟨?_, ?_⟩
      · rw [h.tail_eq, hchunk]
        simp
      · rw [← h.strings_eq]
        simp [strings, hchunk]

theorem Holds.mergeHeap_iff (h : heap.Holds content) (h' : other.Holds content')
    (hother : other.chunk ≠ []) : (heap.mergeHeap other 0).Holds (content' ++ content) ↔
      heap.chunk ≠ [] ∨ other.chunk.length = 1 := by
  have hpos := List.length_pos_iff.2 hother
  have hstrings : (heap.mergeHeap other 0).strings = content' ++ content := by
    rw [← h.strings_eq, ← h'.strings_eq]
    simp [mergeHeap, strings]
  have htail : (heap.mergeHeap other 0).tail = some 0 ↔
      heap.chunk ≠ [] ∨ other.chunk.length = 1 := by
    by_cases hchunk : heap.chunk = []
    · simp [mergeHeap, h.tail_eq, hchunk]
      omega
    · simp [mergeHeap, h.tail_eq, hchunk]
  have hne : (heap.mergeHeap other 0).chunk ≠ [] := by simp [mergeHeap, hother]
  rw [← htail]
  exact ⟨fun hholds => by rw [hholds.tail_eq, if_neg hne],
    fun heq => ⟨by rw [heq, if_neg hne], hstrings⟩⟩

end StringHeap

namespace HeapOp

variable {heaps : ℕ → StringHeap} {content : ℕ → List (List UInt8)}

theorem Holds.update (h : Holds heaps content) {n : ℕ} {heap : StringHeap}
    {strings : List (List UInt8)} (hheap : heap.Holds strings) :
    Holds (update heaps n heap) (update content n strings) := by
  intro k
  by_cases hk : k = n
  · subst hk
    rwa [update_self, update_self]
  · rw [update_of_ne hk, update_of_ne hk]
    exact h k

theorem holds_step_iff (h : Holds heaps content) (op : HeapOp) :
    Holds (step heaps op) (effect content op) ↔ MergesRightly heaps op := by
  cases op with
  | addString heap data => exact iff_of_true (h.update ((h heap).addString data)) trivial
  | destroy heap => exact iff_of_true (h.update StringHeap.holds_nil) trivial
  | move heap other =>
    refine iff_of_true ?_ trivial
    simp only [step, effect, (h other).chunk_eq_nil_iff]
    split_ifs
    · exact (h.update (h heap)).update StringHeap.holds_nil
    · exact h
  | mergeHeap heap other =>
    simp only [step, effect, MergesRightly]
    by_cases hother : (heaps other).chunk = []
    · -- nothing is merged
      have hnil := (h other).chunk_eq_nil_iff.1 hother
      rw [(h other).tail_eq, if_pos hother]
      refine iff_of_true ?_ (.inl hother)
      split_ifs with heq
      · exact h
      · rwa [hnil, List.nil_append, update_eq_self, ← hnil, update_eq_self]
    · rw [(h other).tail_eq, if_neg hother]
      simp only [hother, false_or]
      by_cases heq : heap = other
      · subst heq
        simp only [if_true, ne_eq, not_true_eq_false, false_and, iff_false]
        intro hholds
        have hempty := (hholds heap).chunk_eq_nil_iff
        rw [update_self] at hempty
        exact hother ((h heap).chunk_eq_nil_iff.2 (hempty.1 rfl))
      · rw [if_neg heq, if_neg heq, and_iff_right heq]
        rw [← (h heap).mergeHeap_iff (h other) hother]
        refine ⟨fun hholds => ?_, fun hmerge => (h.update hmerge).update StringHeap.holds_nil⟩
        have hheap := hholds heap
        rwa [update_of_ne heq, update_self, update_of_ne heq, update_self] at hheap

/-! ### Runs -/

theorem holds_run_iff (h : Holds heaps content) (ops : List HeapOp) :
    (∀ n, Holds ((ops.take n).foldl step heaps) ((ops.take n).foldl effect content)) ↔
      Meets step MergesRightly heaps ops := by
  induction ops generalizing heaps content with
  | nil => simpa [Meets] using h
  | cons op ops ih =>
    constructor
    · intro hall
      have hstep := hall 1
      exact ⟨(holds_step_iff h op).1 hstep, (ih hstep).1 fun n => hall (n + 1)⟩
    · rintro ⟨hop, hops⟩ n
      cases n with
      | zero => exact h
      | succ n => exact (ih ((holds_step_iff h op).2 hop)).2 hops n

theorem holds_empty : Holds (fun _ => {}) fun _ => [] :=
  fun _ => StringHeap.holds_nil

/-- **String heap ownership**: all along a run every tail is the last chunk and every string is in
the heap that should have it, exactly if no heap is merged into itself and none of several chunks
into an empty one. -/
theorem owns_iff_mergesRightly (ops : List HeapOp) :
    (∀ n, Holds ((ops.take n).foldl step fun _ => {}) ((ops.take n).foldl effect fun _ => [])) ↔
      Meets step MergesRightly (fun _ => {}) ops :=
  holds_run_iff holds_empty ops

/-- The run that makes two chunks and merges them into an empty heap. -/
def mergesTwoChunks (data : List UInt8) : List HeapOp :=
  [addString 0 [], addString 0 data, mergeHeap 1 0]

theorem not_meets_mergesTwoChunks {data : List UInt8} (hdata : 4096 ≤ data.length) :
    ¬Meets step MergesRightly (fun _ => {}) (mergesTwoChunks data) := by
  have hfull : 4096 ≤ 1 + data.length := by omega
  simp [mergesTwoChunks, Meets, MergesRightly, step, StringHeap.addString, StringHeap.addChunk,
    StringHeap.minimumHeapSize, hfull]

/-- The tail of a heap that was empty is the first of two chunks. -/
theorem not_owns_mergesTwoChunks :
    ¬∀ n, Holds (((mergesTwoChunks (List.replicate 4096 97)).take n).foldl step fun _ => {})
      (((mergesTwoChunks (List.replicate 4096 97)).take n).foldl effect fun _ => []) := by
  rw [holds_run_iff holds_empty]
  exact not_meets_mergesTwoChunks (Nat.le_of_eq List.length_replicate.symm)

end HeapOp

end DuckDB
