import Mathlib.Logic.Function.Basic
import Mathlib.Data.Nat.Notation

/-!
# The lock of a storage chunk

`GetExclusiveLock`, `GetSharedLock` and the destructor of `StorageLock` (`storage_chunk.cpp`), one
atomic step at a time. A mutex is taken by a thread only when nobody owns it, and the counter of
readers is read and changed atomically. `T` is the type of the threads; each of them may hold any
number of locks of the chunk.
-/

namespace DuckDB

/-- The next step of a thread in one of the functions. -/
inductive LockPoint where
  /-- Outside of the functions. -/
  | idle
  /-- `GetExclusiveLock`: `exclusive_lock.lock()`. -/
  | exclusiveLock
  /-- `GetExclusiveLock`: `while (read_count != 0)`. -/
  | exclusiveSpin
  /-- `GetSharedLock`: `exclusive_lock.lock()`. -/
  | sharedLock
  /-- `GetSharedLock`: `read_count++`. -/
  | sharedIncrement
  /-- `GetSharedLock`: `exclusive_lock.unlock()`. -/
  | sharedUnlock
deriving DecidableEq, Repr

/-- A thread: where it is, and the `StorageLock`s of the chunk that it has. -/
structure LockThread where
  point : LockPoint := .idle
  exclusive : Bool := false
  shared : ℕ := 0
deriving DecidableEq, Repr

/-- The owner of `exclusive_lock`, `read_count`, and the threads. -/
structure ChunkLock (T : Type) where
  mutex : Option T := none
  readCount : ℕ := 0
  threads : T → LockThread := fun _ => {}

/-- What a thread does next: it calls one of the functions, or takes the next step of the one that
it is in. -/
inductive LockAction where
  | getExclusiveLock
  | getSharedLock
  | releaseExclusiveLock
  | releaseSharedLock
  | advance
deriving DecidableEq, Repr

namespace ChunkLock

variable {T : Type} [DecidableEq T]

/-- The state in which a thread has become `thread`. -/
def setThread (s : ChunkLock T) (t : T) (thread : LockThread) : ChunkLock T :=
  { s with threads := Function.update s.threads t thread }

/-- The next step of a thread in a function. A thread waits for the mutex while it is owned. -/
def advance (s : ChunkLock T) (t : T) : ChunkLock T :=
  let thread := s.threads t
  match thread.point with
  | .idle => s
  | .exclusiveLock =>
    if s.mutex = none then
      { s.setThread t { thread with point := .exclusiveSpin } with mutex := some t }
    else s
  | .exclusiveSpin =>
    if s.readCount = 0 then s.setThread t { thread with point := .idle, exclusive := true } else s
  | .sharedLock =>
    if s.mutex = none then
      { s.setThread t { thread with point := .sharedIncrement } with mutex := some t }
    else s
  | .sharedIncrement =>
    { s.setThread t { thread with point := .sharedUnlock } with readCount := s.readCount + 1 }
  | .sharedUnlock =>
    { s.setThread t { thread with point := .idle, shared := thread.shared + 1 } with
      mutex := none }

/-- `ReleaseExclusiveLock`, by a thread that has an exclusive lock. -/
def releaseExclusiveLock (s : ChunkLock T) (t : T) : ChunkLock T :=
  { s.setThread t { s.threads t with exclusive := false } with mutex := none }

/-- `ReleaseSharedLock`, by a thread that has a shared lock. -/
def releaseSharedLock (s : ChunkLock T) (t : T) : ChunkLock T :=
  { s.setThread t { s.threads t with shared := (s.threads t).shared - 1 } with
    readCount := s.readCount - 1 }

/-- A step of the thread `t`. A thread calls a function only when it is in none of them, and a lock
is released by the thread that has it. -/
def step (s : ChunkLock T) (call : T × LockAction) : ChunkLock T :=
  let t := call.1
  let thread := s.threads t
  match call.2 with
  | .getExclusiveLock =>
    if thread.point = .idle then s.setThread t { thread with point := .exclusiveLock } else s
  | .getSharedLock =>
    if thread.point = .idle then s.setThread t { thread with point := .sharedLock } else s
  | .releaseExclusiveLock =>
    if thread.point = .idle ∧ thread.exclusive = true then s.releaseExclusiveLock t else s
  | .releaseSharedLock =>
    if thread.point = .idle ∧ 0 < thread.shared then s.releaseSharedLock t else s
  | .advance => s.advance t

end ChunkLock

end DuckDB
