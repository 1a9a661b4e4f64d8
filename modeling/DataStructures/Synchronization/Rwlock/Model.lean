import DataStructures.Lib.Runs
import Mathlib.Data.BitVec

/-!
# `synchronization/rwlock.c`

The read-write lock under any interleaving of its threads.  A thread is at one of the
points of the function it is in; an action either begins a call or makes one atomic
access, the compare-exchanges included.  Whether a weak compare-exchange fails
spuriously is part of the action.

`cnt` and `writers` are `atomic_int`s: additions wrap around.  `c + 1` is computed on
`int`s, so a reader that has read `INT_MAX` has no next step.  A thread begins an unlock
only while it holds the lock in that mode.

`reads` and `writes` of a thread say what it holds: the read acquisitions it has not
released, and whether it has the write lock.
-/

namespace DataStructures.Rwlock

open Lib.Runs

/-- The functions of the lock. -/
inductive Call
  | readLock | readTrylock | readUnlock | writeLock | writeTrylock | writeUnlock
  deriving DecidableEq, Repr

/-- The accesses of `rwlock_read_lock` and of `rwlock_read_trylock`. -/
inductive ReadPc
  | loadWriters | loadCnt
  | cas (c : BitVec 32)
  deriving DecidableEq, Repr

/-- The accesses of `rwlock_write_lock`. -/
inductive WritePc
  | addWriters | cas | subWriters
  deriving DecidableEq, Repr

/-- The accesses of `rwlock_write_trylock`; the last one comes with the value that is
then returned. -/
inductive WriteTryPc
  | addWriters | loadWriters | cas
  | subWriters (ret : Int)
  deriving DecidableEq, Repr

/-- The access a thread makes next. -/
inductive Pc
  | idle
  | readLock (p : ReadPc)
  | readTrylock (p : ReadPc)
  | readUnlock
  | writeLock (p : WritePc)
  | writeTrylock (p : WriteTryPc)
  | writeUnlock
  deriving DecidableEq, Repr

/-- A thread: where it is, the read acquisitions it has not released, whether it has the
write lock, and what its last trylock returned. -/
structure Thread where
  pc : Pc
  reads : ℕ
  writes : Bool
  ret : Option Int
  deriving DecidableEq, Repr

/-- `rwlock_t` with the threads that use it. -/
structure State (ι : Type) where
  cnt : BitVec 32
  writers : BitVec 32
  thread : ι → Thread

/-- A thread begins a call, or makes its next access; `spurious`: a weak
compare-exchange fails though the values are equal. -/
inductive Act (ι : Type)
  | call (i : ι) (f : Call)
  | step (i : ι) (spurious : Bool)

variable {ι : Type} [DecidableEq ι]

namespace State

/-- Thread `i` becomes `t`. -/
def put (s : State ι) (i : ι) (t : Thread) : State ι :=
  { s with thread := Function.update s.thread i t }

/-- Thread `i` goes on at `pc`. -/
def goto (s : State ι) (i : ι) (pc : Pc) : State ι := s.put i { s.thread i with pc := pc }

/-- Thread `i` returns from a function without a result. -/
def done (s : State ι) (i : ι) : State ι := s.goto i .idle

/-- Thread `i` returns `ret`. -/
def returning (s : State ι) (i : ι) (ret : Int) : State ι :=
  s.put i { s.thread i with pc := .idle, ret := some ret }

/-- Thread `i` has a read acquisition more. -/
def acquireRead (s : State ι) (i : ι) : State ι :=
  s.put i { s.thread i with reads := (s.thread i).reads + 1 }

/-- Thread `i` has a read acquisition less. -/
def releaseRead (s : State ι) (i : ι) : State ι :=
  s.put i { s.thread i with reads := (s.thread i).reads - 1 }

/-- Thread `i` gets the write lock, or gives it up. -/
def setWrites (s : State ι) (i : ι) (b : Bool) : State ι :=
  s.put i { s.thread i with writes := b }

end State

/-- `rwlock_create`, with threads that have not called anything. -/
def rwlockCreate : State ι where
  cnt := 0
  writers := 0
  thread := fun _ => { pc := .idle, reads := 0, writes := false, ret := none }

/-- The compare-exchange of a reader that has read `c`. -/
def readCas (s : State ι) (i : ι) (spurious : Bool) (c : BitVec 32) (retry : Pc)
    (success : State ι → State ι) : Option (State ι) :=
  if c = BitVec.intMax 32 then none  -- `c + 1` overflows
  else if s.cnt = c ∧ spurious = false then
    some (success ({ s with cnt := c + 1 }.acquireRead i))
  else some (s.goto i retry)

/-- `rwlock_read_lock`. -/
def rwlockReadLock (s : State ι) (i : ι) (spurious : Bool) : ReadPc → Option (State ι)
  | .loadWriters =>
      if s.writers ≠ 0 then some s else some (s.goto i (.readLock .loadCnt))
  | .loadCnt =>
      if s.cnt.toInt < 0 then some s else some (s.goto i (.readLock (.cas s.cnt)))
  | .cas c => readCas s i spurious c (.readLock .loadCnt) (·.done i)

/-- `rwlock_read_trylock`. -/
def rwlockReadTrylock (s : State ι) (i : ι) (spurious : Bool) : ReadPc → Option (State ι)
  | .loadWriters =>
      if s.writers ≠ 0 then some (s.returning i (-1)) else some (s.goto i (.readTrylock .loadCnt))
  | .loadCnt =>
      if s.cnt.toInt < 0 then some (s.returning i (-1))
      else some (s.goto i (.readTrylock (.cas s.cnt)))
  | .cas c => readCas s i spurious c (.readTrylock .loadCnt) (·.returning i 0)

/-- `rwlock_read_unlock`. -/
def rwlockReadUnlock (s : State ι) (i : ι) : Option (State ι) :=
  some (({ s with cnt := s.cnt - 1 }.releaseRead i).done i)

/-- `rwlock_write_lock`. -/
def rwlockWriteLock (s : State ι) (i : ι) (spurious : Bool) : WritePc → Option (State ι)
  | .addWriters => some ({ s with writers := s.writers + 1 }.goto i (.writeLock .cas))
  | .cas =>
      if s.cnt = 0 ∧ spurious = false then
        some (({ s with cnt := -1 }.setWrites i true).goto i (.writeLock .subWriters))
      else some s
  | .subWriters => some ({ s with writers := s.writers - 1 }.done i)

/-- `rwlock_write_trylock`. -/
def rwlockWriteTrylock (s : State ι) (i : ι) : WriteTryPc → Option (State ι)
  | .addWriters => some ({ s with writers := s.writers + 1 }.goto i (.writeTrylock .loadWriters))
  | .loadWriters =>
      if s.writers ≠ 0 then some (s.goto i (.writeTrylock (.subWriters (-1))))
      else some (s.goto i (.writeTrylock .cas))
  | .cas =>
      if s.cnt = 0 then
        some (({ s with cnt := -1 }.setWrites i true).goto i (.writeTrylock (.subWriters 0)))
      else some (s.goto i (.writeTrylock (.subWriters (-1))))
  | .subWriters ret => some ({ s with writers := s.writers - 1 }.returning i ret)

/-- `rwlock_write_unlock`. -/
def rwlockWriteUnlock (s : State ι) (i : ι) : Option (State ι) :=
  some (({ s with cnt := 0 }.setWrites i false).done i)

/-- What a thread holds allows it to begin the call. -/
def Call.allowed (t : Thread) : Call → Bool
  | .readUnlock => 0 < t.reads
  | .writeUnlock => t.writes
  | _ => true

/-- The first access of a function. -/
def Call.entry : Call → Pc
  | .readLock => .readLock .loadWriters
  | .readTrylock => .readTrylock .loadWriters
  | .readUnlock => .readUnlock
  | .writeLock => .writeLock .addWriters
  | .writeTrylock => .writeTrylock .addWriters
  | .writeUnlock => .writeUnlock

/-- One action. -/
def step (s : State ι) : Act ι → Option (State ι)
  | .call i f =>
      if (s.thread i).pc = .idle ∧ f.allowed (s.thread i) then some (s.goto i f.entry) else none
  | .step i spurious =>
      match (s.thread i).pc with
      | .idle => none
      | .readLock p => rwlockReadLock s i spurious p
      | .readTrylock p => rwlockReadTrylock s i spurious p
      | .readUnlock => rwlockReadUnlock s i
      | .writeLock p => rwlockWriteLock s i spurious p
      | .writeTrylock p => rwlockWriteTrylock s i p
      | .writeUnlock => rwlockWriteUnlock s i

/-- The states the threads can reach. -/
def Reachable (s : State ι) : Prop := Lib.Runs.Reachable step rwlockCreate s

end DataStructures.Rwlock
