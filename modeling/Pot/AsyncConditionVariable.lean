import Mathlib.Logic.Function.Basic
import Pot.Transition

/-! coroutines/async_condition_variable.h: any number of coroutines that await the variable and
of threads that call set(), stop() and reset(), one access of m_set_state or m_awaiter_head a
step. The awaiter object is in the frame of its coroutine, so a coroutine stands for its
address. A resumed coroutine goes on at its own pace: handle.resume() returns to set() after
any delay. -/
namespace Pot.AsyncConditionVariable
open Transition

/-- A coroutine, by the access of its co_await that comes next. -/
inductive Pc (Cid : Type) where
  | running
  /-- await_suspend: the load of m_awaiter_head -/
  | loadHead
  /-- await_suspend: next = old_head and the compare-exchange -/
  | compareExchange (old_head : Option Cid)
  | suspended
  /-- await_resume: reset() -/
  | awaitResume
  deriving DecidableEq

inductive Call (Cid : Type) where
  | idle
  /-- set: m_awaiter_head.exchange -/
  | exchange
  /-- set: the loop over the awaiters from `head` on -/
  | loop (head : Option Cid)
  /-- stop: m_awaiter_head.exchange -/
  | drop
  deriving DecidableEq

structure State (Cid Tid : Type) where
  m_awaiter_head : Option Cid
  m_set_state : Bool
  next : Cid → Option Cid
  pc : Cid → Pc Cid
  call : Tid → Call Cid

inductive Act (Cid Tid : Type) where
  /-- co_await: the load of await_ready -/
  | coAwait (c : Cid)
  /-- the next access of a co_await; a weak compare-exchange may fail although the heads agree -/
  | go (c : Cid) (spurious : Bool)
  /-- set: m_set_state.store(true) -/
  | set (t : Tid)
  /-- stop: m_set_state.store(false) -/
  | stop (t : Tid)
  | call (t : Tid)
  | reset

variable {Cid Tid : Type}

def initial (set : Bool) : State Cid Tid where
  m_awaiter_head := none
  m_set_state := set
  next _ := none
  pc _ := .running
  call _ := .idle

variable [DecidableEq Cid] [DecidableEq Tid]

def State.goto (s : State Cid Tid) (c : Cid) (p : Pc Cid) : State Cid Tid :=
  { s with pc := Function.update s.pc c p }

def State.setCall (s : State Cid Tid) (t : Tid) (p : Call Cid) : State Cid Tid :=
  { s with call := Function.update s.call t p }

def awaitReady (s : State Cid Tid) (c : Cid) : State Cid Tid :=
  s.goto c (if s.m_set_state then .awaitResume else .loadHead)

def reset (s : State Cid Tid) : State Cid Tid := { s with m_set_state := false }

/-- await_suspend and await_resume -/
def access (s : State Cid Tid) (c : Cid) (spurious : Bool) : Pc Cid → Option (State Cid Tid)
  | .loadHead => some (s.goto c (.compareExchange s.m_awaiter_head))
  | .compareExchange old_head =>
    let linked := { s with next := Function.update s.next c old_head }
    if s.m_awaiter_head = old_head ∧ spurious = false then
      some ({ linked with m_awaiter_head := some c }.goto c .suspended)
    else some (linked.goto c (.compareExchange s.m_awaiter_head))
  | .awaitResume => some ((reset s).goto c .running)
  | .running | .suspended => none

/-- set and stop. Resuming a coroutine that is not suspended is undefined and no step here. -/
def callStep (s : State Cid Tid) (t : Tid) : Call Cid → Option (State Cid Tid)
  | .idle => none
  | .exchange => some ({ s with m_awaiter_head := none }.setCall t (.loop s.m_awaiter_head))
  | .loop none => some (s.setCall t .idle)
  | .loop (some c) =>
    match s.pc c with
    | .suspended => some ((s.setCall t (.loop (s.next c))).goto c .awaitResume)
    | _ => none
  | .drop => some ({ s with m_awaiter_head := none }.setCall t .idle)

def step (s : State Cid Tid) : Act Cid Tid → Option (State Cid Tid)
  | .coAwait c =>
    match s.pc c with
    | .running => some (awaitReady s c)
    | _ => none
  | .go c spurious => access s c spurious (s.pc c)
  | .set t =>
    match s.call t with
    | .idle => some ({ s with m_set_state := true }.setCall t .exchange)
    | _ => none
  | .stop t =>
    match s.call t with
    | .idle => some ((reset s).setCall t .drop)
    | _ => none
  | .call t => callStep s t (s.call t)
  | .reset => some (reset s)

def system (Cid Tid : Type) [DecidableEq Cid] [DecidableEq Tid] :
    System (State Cid Tid) (Act Cid Tid) where
  start s := ∃ set, s = initial set
  step := step

end Pot.AsyncConditionVariable
