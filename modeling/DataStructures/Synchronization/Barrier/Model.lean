import DataStructures.Lib.Runs
import Mathlib.Data.BitVec

/-!
# `synchronization/barrier.c`

The barrier under any interleaving of the threads that wait at it.  An action begins a
call of `barrier_wait` or makes one atomic access; `count` and `state` are `atomic_int`s
and wrap around.  `size - 1` does so too, where the `int` of the source overflows, which is
for `INT_MIN` only.

`arrivals` and `returns` of a thread count the fetch-adds on `count` it has executed and
the calls it has returned from.
-/

namespace DataStructures.Barrier

open Lib.Runs

/-- The access of `barrier_wait` a thread makes next, with the `crt_state` it has read. -/
inductive Pc
  | idle
  | loadState
  | addCount (crtState : BitVec 32)
  | storeCount
  | addState
  | spin (crtState : BitVec 32)
  deriving DecidableEq, Repr

/-- A thread: where it is, its arrivals, and the calls it has returned from. -/
structure Thread where
  pc : Pc
  arrivals : ℕ
  returns : ℕ
  deriving DecidableEq, Repr

/-- `barrier_t` with the threads that use it. -/
structure State (ι : Type) where
  size : BitVec 32
  count : BitVec 32
  state : BitVec 32
  thread : ι → Thread

/-- A thread begins a call, or makes its next access. -/
inductive Act (ι : Type)
  | call (i : ι)
  | step (i : ι)

/-- `barrier_create`, with threads that have not called anything. -/
def barrierCreate {ι : Type} (size : BitVec 32) : State ι where
  size := size
  count := 0
  state := 0
  thread := fun _ => { pc := .idle, arrivals := 0, returns := 0 }

variable {ι : Type} [DecidableEq ι]

/-- Thread `i` becomes `t`. -/
def State.put (s : State ι) (i : ι) (t : Thread) : State ι :=
  { s with thread := Function.update s.thread i t }

/-- Thread `i` goes on at `pc`. -/
def State.goto (s : State ι) (i : ι) (pc : Pc) : State ι := s.put i { s.thread i with pc := pc }

/-- Thread `i` executes its fetch-add and goes on at `pc`. -/
def State.arrive (s : State ι) (i : ι) (pc : Pc) : State ι :=
  s.put i { s.thread i with pc := pc, arrivals := (s.thread i).arrivals + 1 }

/-- Thread `i` returns. -/
def State.leave (s : State ι) (i : ι) : State ι :=
  s.put i { s.thread i with pc := .idle, returns := (s.thread i).returns + 1 }

/-- `barrier_wait`. -/
def barrierWait (s : State ι) (i : ι) : Pc → Option (State ι)
  | .idle => none
  | .loadState => some (s.goto i (.addCount s.state))
  | .addCount crtState =>
      -- the last thread goes on to reset `count`, the others wait for it
      if s.count = s.size - 1 then some ({ s with count := s.count + 1 }.arrive i .storeCount)
      else some ({ s with count := s.count + 1 }.arrive i (.spin crtState))
  | .storeCount => some ({ s with count := 0 }.goto i .addState)
  | .addState => some ({ s with state := s.state + 1 }.leave i)
  | .spin crtState => if s.state = crtState then some s else some (s.leave i)

/-- One action. -/
def step (s : State ι) : Act ι → Option (State ι)
  | .call i => if (s.thread i).pc = .idle then some (s.goto i .loadState) else none
  | .step i => barrierWait s i (s.thread i).pc

/-- The states the threads can reach on a barrier for all of them. -/
def Reachable [Fintype ι] (s : State ι) : Prop :=
  Lib.Runs.Reachable step (barrierCreate (BitVec.ofNat 32 (Fintype.card ι))) s

end DataStructures.Barrier
