import Pot.Transition
import Mathlib.Logic.Function.Basic

/-! sync/async_lock.h: any number of coroutines that take the lock, move their guards and let
them go, one access of the lock a step. lfqueue is a FIFO of its capacity here; executors run
what they have accepted once each, in any order. What a coroutine does inside its critical
section, suspending and going to another thread included, takes no step of the lock, so
handle.resume() returns to the unlocking coroutine after any delay. -/
namespace Pot.AsyncLock
open Transition

/-- Where a coroutine stands. `guards` are its scoped_lock_guard objects, true for a non-null
m_lock; the other names say the access that comes next. -/
inductive Pc (Cid : Type) where
  | inside (guards : List Bool)
  /-- await_suspend: m_state.fetch_add -/
  | fetchAdd (guards : List Bool) (executor : Bool)
  /-- await_suspend: m_queue.push, announced but not queued -/
  | push (guards : List Bool) (executor : Bool)
  | suspended (guards : List Bool)
  /-- unlock: m_state.fetch_sub -/
  | fetchSub (guards : List Bool)
  | pop (guards : List Bool)
  /-- unlock: the popped handle, not resumed yet -/
  | resume (guards : List Bool) (handle : Cid) (executor : Bool)

def capacity : Nat := 1024

structure State (Cid : Type) where
  m_state : Int
  /-- handles and whether they come with an executor -/
  m_queue : List (Cid × Bool)
  /-- functions that executors have accepted and not run -/
  pending : List Cid
  pc : Cid → Pc Cid
  /-- Handles in the order of their pushes and of their resumptions, for the statements only. -/
  pushed : List Cid
  resumed : List Cid

inductive GuardOp where
  | moveConstruct (src : Nat)
  | moveAssign (dst src : Nat)
  | destroy (i : Nat)

inductive Act (Cid : Type) where
  /-- co_await lock.lock(executor), by a coroutine that holds no guard on the lock -/
  | lock (c : Cid) (executor : Bool)
  | guard (c : Cid) (op : GuardOp)
  | go (c : Cid)
  /-- an executor runs the k-th of the accepted functions -/
  | run (k : Nat)

variable {Cid : Type}

/-- The guard under destruction or assignment calls unlock when its m_lock is not null. -/
def release (held : Bool) (guards : List Bool) : Pc Cid :=
  if held then .fetchSub guards else .inside guards

/-- What a guard operation leaves: the guards, and unlock to call on the way. -/
def guardOp (guards : List Bool) : GuardOp → Option (Pc Cid)
  | .moveConstruct src =>
    guards[src]?.map fun other => .inside (guards.set src false ++ [other])
  | .moveAssign dst src =>
    guards[dst]?.bind fun held => guards[src]?.map fun other =>
      if dst = src then .inside guards
      else release held ((guards.set dst other).set src false)
  | .destroy i => guards[i]?.map fun held => release held (guards.eraseIdx i)

def initial : State Cid := ⟨0, [], [], fun _ => .inside [], [], []⟩

variable [DecidableEq Cid]

def State.goto (s : State Cid) (c : Cid) (p : Pc Cid) : State Cid :=
  { s with pc := Function.update s.pc c p }

/-- handle.resume(): await_resume gives the coroutine its guard. Resuming a coroutine that is
not suspended is undefined and no step here. -/
def State.wake (s : State Cid) (w : Cid) : Option (State Cid) :=
  match s.pc w with
  | .suspended guards =>
    some ({ s with resumed := s.resumed ++ [w] }.goto w (.inside (guards ++ [true])))
  | _ => none

def access (s : State Cid) (c : Cid) : Pc Cid → Option (State Cid)
  | .fetchAdd guards executor =>
    let prev_state := s.m_state
    some ({ s with m_state := prev_state + 1 }.goto c
      (if prev_state = 0 then .inside (guards ++ [true]) else .push guards executor))
  | .push guards executor =>
    if s.m_queue.length < capacity then
      some ({ s with m_queue := s.m_queue ++ [(c, executor)], pushed := s.pushed ++ [c] }.goto c
        (.suspended guards))
    else some s
  | .fetchSub guards =>
    let prev_state := s.m_state
    some ({ s with m_state := prev_state - 1 }.goto c
      (if prev_state = 1 then .inside guards else .pop guards))
  | .pop guards =>
    match s.m_queue with
    | [] => some s
    | (handle, executor) :: rest =>
      some ({ s with m_queue := rest }.goto c (.resume guards handle executor))
  | .resume guards handle executor =>
    if executor then some ({ s with pending := s.pending ++ [handle] }.goto c (.inside guards))
    else (s.wake handle).map fun t => t.goto c (.inside guards)
  | _ => none

def step (s : State Cid) : Act Cid → Option (State Cid)
  | .lock c executor =>
    match s.pc c with
    | .inside guards => if true ∈ guards then none else some (s.goto c (.fetchAdd guards executor))
    | _ => none
  | .guard c op =>
    match s.pc c with
    | .inside guards => (guardOp guards op).map (s.goto c)
    | _ => none
  | .go c => access s c (s.pc c)
  | .run k => s.pending[k]?.bind fun w => { s with pending := s.pending.eraseIdx k }.wake w

def system (Cid : Type) [DecidableEq Cid] : System (State Cid) (Act Cid) where
  start s := s = initial
  step := step

end Pot.AsyncLock
