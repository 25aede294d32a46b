import Mathlib.Algebra.GroupWithZero.Nat
import Pot.ThreadDrain

/-! executors/thread_pool_executor.h, thread_pool_executor_lq with its threads: each is a pot::thread
with what it does with its queue. Any number of derived_execute and shutdown calls; those of a
running function interleave with it. A step is one access of shared state. -/
namespace Pot.ExecutorsLq
open Transition

/-- derived_execute, by the access that comes next. -/
inductive Call (n : Nat) where
  | idle
  | loadStop
  | index
  | run (idx : Fin n)
  | returned (idx : Fin n)
  | threw (what : String)
  | divisionByZero
  | dangling (idx : Fin n)

/-- shutdown, by the access that comes next. -/
inductive Shutdown where
  | idle
  | exchange
  | requestStop (thread : Nat)
  /-- request_stop() once more, in the thread's join() -/
  | notifyAll (thread : Nat)
  | join (thread : Nat)
  | destroy (thread : Nat)
  | returned
  deriving DecidableEq

structure State (Sid Kid : Type) (n : Nat) where
  m_stop : Bool
  size : Nat
  m_next_thread_idx : Nat
  thread : Fin n → Thread.State Sid
  alive : Fin n → Bool
  call : Sid → Call n
  shutdown : Kid → Shutdown
  /-- Who has set m_stop, and the calls that had returned by then: for the statements only. -/
  stopper : Option Kid
  before : Sid → Bool

inductive Act (Sid Kid : Type) (n : Nat) where
  | execute (sid : Sid)
  | call (sid : Sid)
  | worker (i : Fin n)
  | wake (i : Fin n)
  | shutdown (k : Kid)
  | stop (k : Kid)

variable {Sid Kid : Type} {n : Nat}

def Call.isReturned : Call n → Bool
  | .returned _ => true
  | _ => false

def initial (Sid Kid : Type) (n : Nat) : State Sid Kid n where
  m_stop := false
  size := n
  m_next_thread_idx := 0
  thread _ := Thread.initial
  alive _ := true
  call _ := .idle
  shutdown _ := .idle
  stopper := none
  before _ := false

def State.setThread (s : State Sid Kid n) (i : Fin n) (t : Thread.State Sid) : State Sid Kid n :=
  { s with thread := Function.update s.thread i t }

def State.notifyAll (s : State Sid Kid n) (i : Fin n) : State Sid Kid n :=
  s.setThread i ((s.thread i).goto (s.thread i).worker.unblock)

variable [DecidableEq Sid] [DecidableEq Kid] [NeZero n]

def State.setCall (s : State Sid Kid n) (sid : Sid) (p : Call n) : State Sid Kid n :=
  { s with call := Function.update s.call sid p }

def State.setShutdown (s : State Sid Kid n) (k : Kid) (p : Shutdown) : State Sid Kid n :=
  { s with shutdown := Function.update s.shutdown k p }

def State.access (s : State Sid Kid n) (i : Fin n) (a : Thread.Act Sid) : Option (State Sid Kid n) :=
  (Thread.step (s.thread i) a).map (s.setThread i)

def callStep (m_name : String) (s : State Sid Kid n) (sid : Sid) : Call n → Option (State Sid Kid n)
  | .loadStop =>
    some (s.setCall sid
      (if s.m_stop then .threw ("Executor " ++ m_name ++ " is stopped.") else .index))
  | .index =>
    some ({ s with m_next_thread_idx := s.m_next_thread_idx + 1 }.setCall sid
      (if s.size = 0 then .divisionByZero
       else .run (Fin.ofNat n (s.m_next_thread_idx % s.size))))
  | .run idx =>
    if s.alive idx then
      match (s.thread idx).call sid with
      | .idle => s.access idx (.run sid)
      | .returned => some (s.setCall sid (.returned idx))
      | _ => s.access idx (.call sid)
    else some (s.setCall sid (.dangling idx))
  | _ => none

def stopStep (s : State Sid Kid n) (k : Kid) : Shutdown → Option (State Sid Kid n)
  | .exchange =>
    if s.m_stop then some (s.setShutdown k .returned)
    else some ({ s with
      m_stop := true, stopper := some k, before := fun sid => (s.call sid).isReturned }.setShutdown k
        (.requestStop 0))
  | .requestStop thread =>
    if h : thread < n then
      match (s.thread ⟨thread, h⟩).join with
      | .idle => s.access ⟨thread, h⟩ .join
      | .requestStop | .notifyAll => s.access ⟨thread, h⟩ .stop
      | .join | .returned => some (s.setShutdown k (.requestStop (thread + 1)))
    else some (s.setShutdown k (.notifyAll 0))
  | .notifyAll thread =>
    if h : thread < n then
      some ((s.notifyAll ⟨thread, h⟩).setShutdown k (.join thread))
    else some (s.setShutdown k (.destroy 0))
  | .join thread =>
    if h : thread < n then
      match (s.thread ⟨thread, h⟩).join with
      | .returned => some (s.setShutdown k (.notifyAll (thread + 1)))
      | _ => s.access ⟨thread, h⟩ .stop
    else none
  | .destroy thread =>
    if h : thread < n then
      some ({ s with alive := Function.update s.alive ⟨thread, h⟩ false }.setShutdown k
        (.destroy (thread + 1)))
    else some ({ s with size := 0 }.setShutdown k .returned)
  | .idle | .returned => none

def step (m_name : String) (s : State Sid Kid n) : Act Sid Kid n → Option (State Sid Kid n)
  | .execute sid =>
    match s.call sid with
    | .idle => some (s.setCall sid .loadStop)
    | _ => none
  | .call sid => callStep m_name s sid (s.call sid)
  | .worker i => s.access i .worker
  | .wake i => s.access i .wake
  | .shutdown k =>
    match s.shutdown k with
    | .idle => some (s.setShutdown k .exchange)
    | _ => none
  | .stop k => stopStep s k (s.shutdown k)

def system (m_name : String) (Sid Kid : Type) (n : Nat) [NeZero n] [DecidableEq Sid]
    [DecidableEq Kid] : System (State Sid Kid n) (Act Sid Kid n) where
  start s := s = initial Sid Kid n
  step := step m_name

end Pot.ExecutorsLq
