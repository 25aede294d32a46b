import Mathlib.Logic.Function.Basic
import Pot.Transition

/-! coroutines/async_barrier.h: any number of coroutines that await the barrier and of threads
that call set(), one access of current_count or awaiters_mutex a step. size_t is 64 bits wide
and current_count may wrap. A resumed coroutine goes on at its own pace: h.resume() returns
after any delay. -/
namespace Pot.AsyncBarrier
open Transition

/-- A coroutine, by the access of await_suspend that comes next. -/
inductive Pc where
  | running
  | lock
  /-- the load of current_count under the mutex -/
  | recheck
  | pushBack
  /-- the end of the scope of the unique_lock -/
  | unlock
  /-- lock.unlock() before h.resume() -/
  | unlockEarly
  | resume
  | suspended
  deriving DecidableEq

inductive Call (Cid : Type) where
  | idle
  | lock
  | swap
  | unlock (to_resume : List Cid)
  | resume (to_resume : List Cid)

inductive Owner (Cid Tid : Type) where
  | coroutine (c : Cid)
  | thread (t : Tid)

structure State (Cid Tid : Type) where
  current_count : BitVec 64
  awaiters_mutex : Option (Owner Cid Tid)
  awaiters : List Cid
  pc : Cid → Pc
  call : Tid → Call Cid
  /-- How many set() calls have been counted; how often a coroutine has suspended, been resumed
  and got past the barrier: for the statements only. -/
  sets : Nat
  suspensions : Cid → Nat
  resumptions : Cid → Nat
  passed : Cid → Nat

inductive Act (Cid Tid : Type) where
  /-- co_await: the load of await_ready -/
  | coAwait (c : Cid)
  | go (c : Cid)
  /-- set: current_count.fetch_add -/
  | set (t : Tid)
  | call (t : Tid)

variable {Cid Tid : Type}

def initial : State Cid Tid where
  current_count := 0
  awaiters_mutex := none
  awaiters := []
  pc _ := .running
  call _ := .idle
  sets := 0
  suspensions _ := 0
  resumptions _ := 0
  passed _ := 0

variable [DecidableEq Cid] [DecidableEq Tid]

def State.goto (s : State Cid Tid) (c : Cid) (p : Pc) : State Cid Tid :=
  { s with pc := Function.update s.pc c p }

def State.setCall (s : State Cid Tid) (t : Tid) (p : Call Cid) : State Cid Tid :=
  { s with call := Function.update s.call t p }

def State.pass (s : State Cid Tid) (c : Cid) : State Cid Tid :=
  { s with passed := Function.update s.passed c (s.passed c + 1) }

/-- h.resume(). Resuming a coroutine that is not suspended is undefined; here it only shows in
the count. -/
def State.wake (s : State Cid Tid) (c : Cid) : State Cid Tid :=
  ({ s with resumptions := Function.update s.resumptions c (s.resumptions c + 1) }.pass c).goto c
    .running

def awaitReady (expected_count : BitVec 64) (s : State Cid Tid) (c : Cid) : State Cid Tid :=
  if s.current_count ≥ expected_count then s.pass c
  else { s with suspensions := Function.update s.suspensions c (s.suspensions c + 1) }.goto c .lock

def awaitSuspend (expected_count : BitVec 64) (s : State Cid Tid) (c : Cid) :
    Pc → Option (State Cid Tid)
  | .lock =>
    match s.awaiters_mutex with
    | none => some ({ s with awaiters_mutex := some (.coroutine c) }.goto c .recheck)
    | some _ => none
  | .recheck =>
    some (s.goto c (if s.current_count ≥ expected_count then .unlockEarly else .pushBack))
  | .pushBack => some ({ s with awaiters := s.awaiters ++ [c] }.goto c .unlock)
  | .unlock => some ({ s with awaiters_mutex := none }.goto c .suspended)
  | .unlockEarly => some ({ s with awaiters_mutex := none }.goto c .resume)
  | .resume => some (s.wake c)
  | .running | .suspended => none

def set (expected_count : BitVec 64) (s : State Cid Tid) (t : Tid) : State Cid Tid :=
  let count := s.current_count + 1
  { s with current_count := count, sets := s.sets + 1 }.setCall t
    (if count = expected_count then .lock else .idle)

def callStep (s : State Cid Tid) (t : Tid) : Call Cid → Option (State Cid Tid)
  | .idle => none
  | .lock =>
    match s.awaiters_mutex with
    | none => some ({ s with awaiters_mutex := some (.thread t) }.setCall t .swap)
    | some _ => none
  | .swap => some ({ s with awaiters := [] }.setCall t (.unlock s.awaiters))
  | .unlock to_resume => some ({ s with awaiters_mutex := none }.setCall t (.resume to_resume))
  | .resume [] => some (s.setCall t .idle)
  | .resume (h :: rest) => some ((s.setCall t (.resume rest)).wake h)

def step (expected_count : BitVec 64) (s : State Cid Tid) : Act Cid Tid → Option (State Cid Tid)
  | .coAwait c =>
    match s.pc c with
    | .running => some (awaitReady expected_count s c)
    | _ => none
  | .go c => awaitSuspend expected_count s c (s.pc c)
  | .set t =>
    match s.call t with
    | .idle => some (set expected_count s t)
    | _ => none
  | .call t => callStep s t (s.call t)

def system (expected_count : BitVec 64) (Cid Tid : Type) [DecidableEq Cid] [DecidableEq Tid] :
    System (State Cid Tid) (Act Cid Tid) where
  start s := s = initial
  step := step expected_count

end Pot.AsyncBarrier
