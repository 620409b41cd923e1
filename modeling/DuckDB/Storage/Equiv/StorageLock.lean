import DuckDB.Storage.StorageLock
import DuckDB.Theory.Run
import Mathlib.Algebra.BigOperators.Group.Finset.Piecewise
import Mathlib.Algebra.BigOperators.Fin

/-!
# The lock of a storage chunk excludes

A thread that has the exclusive lock of a chunk is the only one that has a lock of the chunk. The
counter of readers is increased by a thread that owns the mutex, and a thread gets the exclusive
lock when it owns the mutex and has seen the counter at zero; from then on nobody can increase it.

## Main results

- `ChunkLock.Invariant.step` — every step of every thread keeps the invariant
- `ChunkLock.exclusive_excludes` — exclusion, in every run
- `ChunkLock.idle_or_holds_or_advances` — nobody waits in vain
-/

namespace DuckDB

open Theory LockThread

/-! ### Threads -/

namespace LockThread

/-- The point is between taking and giving back the mutex. -/
def inside (thread : LockThread) : Prop :=
  thread.point = .exclusiveSpin ∨ thread.point = .sharedIncrement ∨ thread.point = .sharedUnlock

/-- The shared locks of a thread that `read_count` counts: the last one is counted before
`GetSharedLock` returns. -/
def counted (thread : LockThread) : ℕ :=
  thread.shared + if thread.point = .sharedUnlock then 1 else 0

end LockThread

namespace ChunkLock

variable {T : Type} [DecidableEq T] [Fintype T]

/-! ### The invariant -/

/-- The mutex is owned by the thread that has the exclusive lock or is between taking and giving
back the mutex, these two exclude each other, `read_count` is the number of shared locks, and it is
zero while there is an exclusive lock. -/
structure Invariant (s : ChunkLock T) : Prop where
  mutex : ∀ t, s.mutex = some t ↔ (s.threads t).exclusive = true ∨ (s.threads t).inside
  separate : ∀ t, (s.threads t).exclusive = true → ¬(s.threads t).inside
  readCount : s.readCount = ∑ t, (s.threads t).counted
  zero : ∀ t, (s.threads t).exclusive = true → s.readCount = 0

omit [DecidableEq T] in
theorem invariant_initial : Invariant ({} : ChunkLock T) := by
  refine ⟨?_, ?_, ?_, ?_⟩ <;> simp [inside, counted]

section SetThread

omit [Fintype T]

variable (s : ChunkLock T)

@[simp]
theorem mutex_setThread {t : T} {thread : LockThread} :
    (s.setThread t thread).mutex = s.mutex := rfl

@[simp]
theorem readCount_setThread {t : T} {thread : LockThread} :
    (s.setThread t thread).readCount = s.readCount := rfl

@[simp]
theorem threads_setThread_self {t : T} {thread : LockThread} :
    (s.setThread t thread).threads t = thread := by
  simp [setThread]

theorem threads_setThread_of_ne {t u : T} (thread : LockThread) (h : u ≠ t) :
    (s.setThread t thread).threads u = s.threads u := by
  simp [setThread, h]

end SetThread

theorem sum_counted_setThread (s : ChunkLock T) (t : T) (thread : LockThread) :
    (∑ u, ((s.setThread t thread).threads u).counted) + (s.threads t).counted =
      (∑ u, (s.threads u).counted) + thread.counted := by
  have hrest : ∑ u ∈ Finset.univ.erase t, ((s.setThread t thread).threads u).counted =
      ∑ u ∈ Finset.univ.erase t, (s.threads u).counted := by
    refine Finset.sum_congr rfl fun u hu => ?_
    rw [threads_setThread_of_ne s thread (Finset.ne_of_mem_erase hu)]
  have hleft := Finset.add_sum_erase Finset.univ
    (fun u => ((s.setThread t thread).threads u).counted) (Finset.mem_univ t)
  have hright := Finset.add_sum_erase Finset.univ (fun u => (s.threads u).counted)
    (Finset.mem_univ t)
  simp only [threads_setThread_self] at hleft
  omega

/-- What has to be checked when one thread, the owner of the mutex and `read_count` change. -/
theorem Invariant.of_set {s : ChunkLock T} (h : s.Invariant) (t : T) {thread : LockThread}
    {m : Option T} {r : ℕ} (hself : m = some t ↔ thread.exclusive = true ∨ thread.inside)
    (hothers : ∀ u, u ≠ t → (m = some u ↔ s.mutex = some u))
    (hseparate : thread.exclusive = true → ¬thread.inside)
    (hcount : r + (s.threads t).counted = s.readCount + thread.counted)
    (hzero : thread.exclusive = true → r = 0)
    (hzero' : ∀ u, u ≠ t → (s.threads u).exclusive = true → r = 0) :
    Invariant { s.setThread t thread with mutex := m, readCount := r } where
  mutex u := by
    by_cases hu : u = t
    · subst hu
      rw [threads_setThread_self]
      exact hself
    · rw [threads_setThread_of_ne s thread hu, hothers u hu]
      exact h.mutex u
  separate u := by
    by_cases hu : u = t
    · subst hu
      rw [threads_setThread_self]
      exact hseparate
    · rw [threads_setThread_of_ne s thread hu]
      exact h.separate u
  readCount := by
    have hsum := sum_counted_setThread s t thread
    have hread := h.readCount
    show r = ∑ u, ((s.setThread t thread).threads u).counted
    omega
  zero u := by
    by_cases hu : u = t
    · subst hu
      rw [threads_setThread_self]
      exact hzero
    · rw [threads_setThread_of_ne s thread hu]
      exact hzero' u hu

/-! ### Steps -/

section Step

variable {s : ChunkLock T} {t : T}

omit [DecidableEq T] in
/-- Nobody else has the exclusive lock while a thread owns the mutex. -/
theorem Invariant.not_exclusive_of_mutex (h : s.Invariant) (ht : s.mutex = some t) {u : T}
    (hu : u ≠ t) : (s.threads u).exclusive ≠ true := by
  intro hexclusive
  have hmutex := (h.mutex u).mpr (.inl hexclusive)
  rw [ht] at hmutex
  exact hu (Option.some.inj hmutex).symm

theorem Invariant.call (h : s.Invariant) (hidle : (s.threads t).point = .idle) {point : LockPoint}
    (hpoint : point = .exclusiveLock ∨ point = .sharedLock) :
    (s.setThread t { s.threads t with point }).Invariant := by
  have hinside : ¬(s.threads t).inside := by simp [inside, hidle]
  have hinside' : ¬({ s.threads t with point } : LockThread).inside := by
    rintro (hp | hp | hp) <;> obtain rfl | rfl := hpoint <;> cases hp
  have hmutex := h.mutex t
  refine h.of_set t ?_ (fun u _ => Iff.rfl) (fun _ => hinside') ?_ (h.zero t) (fun u _ => h.zero u)
  · rw [hmutex, or_iff_left hinside, or_iff_left hinside']
  · obtain rfl | rfl := hpoint <;> simp [counted, hidle]

theorem Invariant.lock (h : s.Invariant) (hmutex : s.mutex = none) {point : LockPoint}
    (hold : (s.threads t).point = .exclusiveLock ∨ (s.threads t).point = .sharedLock)
    (hpoint : point = .exclusiveSpin ∨ point = .sharedIncrement) :
    Invariant { s.setThread t { s.threads t with point } with mutex := some t } := by
  have hinside : ({ s.threads t with point } : LockThread).inside := by
    obtain rfl | rfl := hpoint
    · exact .inl rfl
    · exact .inr (.inl rfl)
  have hnone : ∀ u, (s.threads u).exclusive ≠ true := by
    intro u hu
    have := (h.mutex u).mpr (.inl hu)
    rw [hmutex] at this
    cases this
  refine h.of_set t ?_ (fun u hu => ?_) (fun ht => absurd ht (hnone t)) ?_
    (fun ht => absurd ht (hnone t)) (fun u _ hu => absurd hu (hnone u))
  · simp [hinside]
  · rw [hmutex]
    simp [Ne.symm hu]
  · obtain hp | hp := hold <;> obtain rfl | rfl := hpoint <;> simp [counted, hp]

/-- A thread that owns the mutex and sees no readers gets the exclusive lock. -/
theorem Invariant.spin (h : s.Invariant) (hpoint : (s.threads t).point = .exclusiveSpin)
    (hread : s.readCount = 0) :
    (s.setThread t { s.threads t with point := .idle, exclusive := true }).Invariant := by
  have hmutex : s.mutex = some t := (h.mutex t).mpr (.inr (.inl hpoint))
  refine h.of_set t ?_ (fun u _ => Iff.rfl) (fun _ => ?_) ?_ (fun _ => hread) (fun u _ _ => hread)
  · simp [hmutex]
  · simp [inside]
  · simp [counted, hpoint]

/-- The counter is increased by the owner of the mutex. -/
theorem Invariant.increment (h : s.Invariant) (hpoint : (s.threads t).point = .sharedIncrement) :
    Invariant { s.setThread t { s.threads t with point := .sharedUnlock } with
      readCount := s.readCount + 1 } := by
  have hinside : (s.threads t).inside := .inr (.inl hpoint)
  have hmutex : s.mutex = some t := (h.mutex t).mpr (.inr hinside)
  have hexclusive : (s.threads t).exclusive ≠ true := fun ht => h.separate t ht hinside
  refine h.of_set t ?_ (fun u _ => Iff.rfl) (fun ht => absurd ht hexclusive) ?_
    (fun ht => absurd ht hexclusive) (fun u hu ht => absurd ht (h.not_exclusive_of_mutex hmutex hu))
  · simp [hmutex, inside]
  · simp [counted, hpoint]
    omega

theorem Invariant.unlock (h : s.Invariant) (hpoint : (s.threads t).point = .sharedUnlock) :
    Invariant { s.setThread t { s.threads t with point := .idle,
                                                 shared := (s.threads t).shared + 1 } with
      mutex := none } := by
  have hinside : (s.threads t).inside := .inr (.inr hpoint)
  have hmutex : s.mutex = some t := (h.mutex t).mpr (.inr hinside)
  have hexclusive : (s.threads t).exclusive ≠ true := fun ht => h.separate t ht hinside
  refine h.of_set t ?_ (fun u hu => ?_) (fun ht => absurd ht hexclusive) ?_
    (fun ht => absurd ht hexclusive) (fun u hu ht => absurd ht (h.not_exclusive_of_mutex hmutex hu))
  · simp [hexclusive, inside]
  · rw [hmutex]
    simp [Ne.symm hu]
  · simp [counted, hpoint]

theorem Invariant.releaseExclusiveLock (h : s.Invariant)
    (hexclusive : (s.threads t).exclusive = true) : (s.releaseExclusiveLock t).Invariant := by
  have hinside : ¬(s.threads t).inside := h.separate t hexclusive
  have hmutex : s.mutex = some t := (h.mutex t).mpr (.inl hexclusive)
  refine h.of_set t ?_ (fun u hu => ?_) (fun ht => absurd ht (by simp)) rfl
    (fun ht => absurd ht (by simp)) (fun u hu ht => absurd ht (h.not_exclusive_of_mutex hmutex hu))
  · have hinside' : ¬({ s.threads t with exclusive := false } : LockThread).inside := hinside
    simp [hinside']
  · rw [hmutex]
    simp [Ne.symm hu]

theorem Invariant.releaseSharedLock (h : s.Invariant) (hshared : 0 < (s.threads t).shared) :
    (s.releaseSharedLock t).Invariant := by
  -- the lock that is given back is one of those that are counted
  have hpos : 0 < s.readCount := by
    have hsum := Finset.add_sum_erase Finset.univ (fun u => (s.threads u).counted)
      (Finset.mem_univ t)
    have hle : (s.threads t).shared ≤ (s.threads t).counted := Nat.le_add_right _ _
    have hread := h.readCount
    omega
  refine h.of_set t ?_ (fun u _ => Iff.rfl) (h.separate t) ?_ (fun ht => ?_) (fun u _ hu => ?_)
  · exact h.mutex t
  · simp only [counted]
    omega
  · have := h.zero t ht
    omega
  · have := h.zero u hu
    omega

omit [DecidableEq T] in
theorem Invariant.ite (h : s.Invariant) {p : Prop} [Decidable p] {s' : ChunkLock T}
    (hs' : p → s'.Invariant) : (if p then s' else s).Invariant := by
  split_ifs with hp
  · exact hs' hp
  · exact h

theorem Invariant.advance (h : s.Invariant) : (s.advance t).Invariant := by
  rw [ChunkLock.advance]
  cases hpoint : (s.threads t).point with
  | idle => exact h
  | exclusiveLock => exact h.ite fun hmutex => h.lock hmutex (.inl hpoint) (.inl rfl)
  | exclusiveSpin => exact h.ite fun hread => h.spin hpoint hread
  | sharedLock => exact h.ite fun hmutex => h.lock hmutex (.inr hpoint) (.inr rfl)
  | sharedIncrement => exact h.increment hpoint
  | sharedUnlock => exact h.unlock hpoint

theorem Invariant.step (h : s.Invariant) (call : T × LockAction) : (s.step call).Invariant := by
  obtain ⟨t, action⟩ := call
  cases action with
  | getExclusiveLock => exact h.ite fun hidle => h.call hidle (.inl rfl)
  | getSharedLock => exact h.ite fun hidle => h.call hidle (.inr rfl)
  | releaseExclusiveLock => exact h.ite fun hlock => h.releaseExclusiveLock hlock.2
  | releaseSharedLock => exact h.ite fun hlock => h.releaseSharedLock hlock.2
  | advance => exact h.advance

end Step

theorem invariant_run (calls : List (T × LockAction)) :
    Invariant (calls.foldl step ({} : ChunkLock T)) := by
  have hmeets : Meets step (fun _ _ => True) ({} : ChunkLock T) calls :=
    meets_of_forall fun _ _ _ => trivial
  exact hmeets.invariant (fun s call _ h => h.step call) invariant_initial

/-! ### Exclusion -/

/-- **Exclusion**: in every run of any number of threads, while one thread has the exclusive lock of
the chunk no other thread has a lock of it. -/
theorem exclusive_excludes (calls : List (T × LockAction)) (t u : T) (hu : u ≠ t)
    (ht : ((calls.foldl step ({} : ChunkLock T)).threads t).exclusive = true) :
    ((calls.foldl step ({} : ChunkLock T)).threads u).exclusive = false ∧
      ((calls.foldl step ({} : ChunkLock T)).threads u).shared = 0 := by
  have h := invariant_run calls
  have hmutex := (h.mutex t).mpr (.inl ht)
  refine ⟨Bool.eq_false_iff.mpr (h.not_exclusive_of_mutex hmutex hu), ?_⟩
  -- nobody is counted
  have hsum := h.readCount
  rw [h.zero t ht] at hsum
  have hcounted := Finset.sum_eq_zero_iff.mp hsum.symm u (Finset.mem_univ u)
  exact (Nat.add_eq_zero_iff.mp hcounted).1

/-- One thread takes the mutex for a shared lock, the other one waits for it, takes it, and spins
until the shared lock is given back. -/
def handOver : List (Fin 2 × LockAction) :=
  [(1, .getSharedLock), (1, .advance), (0, .getExclusiveLock), (0, .advance), (1, .advance),
    (1, .advance), (0, .advance), (0, .advance), (1, .releaseSharedLock), (0, .advance)]

theorem exclusive_excludes_handOver :
    ((handOver.foldl step {}).threads 0).exclusive = true ∧
      ((handOver.foldl step {}).threads 1).exclusive = false ∧
        ((handOver.foldl step {}).threads 1).shared = 0 :=
  ⟨by decide, exclusive_excludes handOver 0 1 (by decide) (by decide)⟩

/-! ### Progress -/

/-- **Nobody waits in vain**: in every run all threads are outside of the functions, or one of them
has a lock, or one of them can take its next step. -/
theorem idle_or_holds_or_advances (calls : List (T × LockAction)) :
    let s := calls.foldl step ({} : ChunkLock T)
    (∀ t, (s.threads t).point = .idle) ∨
      (∃ t, (s.threads t).exclusive = true ∨ 0 < (s.threads t).shared) ∨ ∃ t, s.advance t ≠ s := by
  intro s
  by_contra! hstuck
  obtain ⟨⟨t, ht⟩, hfree, hstays⟩ := hstuck
  have h : s.Invariant := invariant_run calls
  have hpoint : ∀ t, ((s.advance t).threads t).point = (s.threads t).point := fun t => by
    rw [hstays]
  -- a shared lock is counted and the mutex given back without waiting
  have hcounted : ∀ t, (s.threads t).counted = 0 := fun t => by
    have hunlock : (s.threads t).point ≠ .sharedUnlock := fun hp => by
      simpa [advance, hp] using hpoint t
    simpa [counted, hunlock] using (hfree t).2
  have hread : s.readCount = 0 := h.readCount.trans (Finset.sum_eq_zero fun t _ => hcounted t)
  -- so nobody keeps the mutex, and whoever waits for it gets it
  have hmutex : s.mutex = none := Option.eq_none_iff_forall_ne_some.2 fun u hu => by
    rcases ((h.mutex u).1 hu).resolve_left (hfree u).1 with hp | hp | hp <;>
      simpa [advance, hp, hread] using hpoint u
  cases hp : (s.threads t).point with
  | idle => exact ht hp
  | _ => simpa [advance, hp, hread, hmutex] using hpoint t

end ChunkLock

end DuckDB
