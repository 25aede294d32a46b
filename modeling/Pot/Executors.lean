import Mathlib.Algebra.GroupWithZero.Nat
import Pot.Thread

/-! executors/thread_pool_executor.h, the pools over one queue: thread_pool_executor_gq on
pot::thread and thread_pool_executor_lfgq on pot::thread_lf. The constructor starts n threads and
gives each its worker_loop with run(); shutdown() destroys them in their order. Any number of
derived_execute and shutdown calls; a step is one access of shared state. -/
namespace Pot.Executors
open Transition

/-- A kind of thread with the one run() call that the constructor makes. -/
structure ThreadClass where
  State : Type
  initial : State
  step : State → Thread.Act Unit → Option State
  running : State → Bool
  ran : State → Bool
  /-- join() is about to set the stop flag. -/
  stopping : State → Bool
  joined : State → Bool
  /-- The worker is about to look at the stop flag, with the function still queued. -/
  late : State → Bool

def pot_thread : ThreadClass where
  State := Thread.State Unit
  initial := Thread.initial
  step := Thread.step
  running s := s.worker.running
  ran s := s.call () = .returned
  stopping s := s.join = .requestStop
  joined s := s.join = .returned
  late s := s.worker.checking && !s.m_queue.isEmpty

def pot_thread_lf : ThreadClass where
  State := ThreadLf.State Unit
  initial := ThreadLf.initial
  step := ThreadLf.step
  running s := s.worker.running
  ran s := s.call () = .returned
  stopping s := s.join = .requestStop
  joined s := s.join = .returned
  late s := s.worker.checking && !s.m_queue.isEmpty

namespace ThreadClass

def system (cls : ThreadClass) : System cls.State (Thread.Act Unit) where
  start s := s = cls.initial
  step := cls.step

/-- The next access of `t->run(..)`. -/
def runStep (cls : ThreadClass) (s : cls.State) : Option cls.State :=
  (cls.step s (.run ())).or (cls.step s (.call ()))

def joinStep (cls : ThreadClass) (s : cls.State) : Option cls.State :=
  (cls.step s .join).or (cls.step s .stop)

end ThreadClass

/-- A queued std::function: the derived_execute call it comes from and its operator bool. -/
structure Item (Sid : Type) where
  call : Sid
  callable : Bool

/-- worker_loop, by the access that comes next. -/
inductive Loop (Sid : Type) where
  | idle
  | lock
  /-- the predicate of m_cv.wait -/
  | predicate
  /-- the release and block of m_cv.wait after a predicate that was false -/
  | block
  | blocked
  | relock
  | take
  | unlock (task : Option (Item Sid))
  | run (task : Item Sid)
  | leave
  | returned
  /-- front() of an empty queue -/
  | undefined

/-- derived_execute, by the access that comes next, with the operator bool of its function. -/
inductive Call where
  | idle
  | lock (callable : Bool)
  | check (callable : Bool)
  | emplace (callable : Bool)
  | unlock (callable : Bool)
  | notifyOne (callable : Bool)
  | returned (callable : Bool)
  | unlockThrow
  | threw (what : String)

/-- shutdown, by the access that comes next. -/
inductive Shutdown where
  | idle
  | lock
  | check
  | set
  | unlock
  | notifyAll
  | join (thread : Nat)
  | returned
  /-- the way out of a call that has found m_stop set -/
  | unlockReturn
  | skipped
  deriving DecidableEq

inductive Constructor where
  | create (thread : Nat)
  | run (thread : Nat)
  | done

inductive Owner (Sid Kid : Type) (n : Nat) where
  | worker (i : Fin n)
  | call (sid : Sid)
  | shutdown (k : Kid)

structure Config where
  cls : ThreadClass
  /-- worker_loop asks `!m_tasks.empty()` before it takes the front. -/
  asks : Bool
  m_name : String

def thread_pool_executor_gq (name : String) : Config := ⟨pot_thread, false, name⟩
def thread_pool_executor_lfgq (name : String) : Config := ⟨pot_thread_lf, true, name⟩

structure State (cls : ThreadClass) (Sid Kid : Type) (n : Nat) where
  constructor : Constructor
  thread : Fin n → cls.State
  loop : Fin n → Loop Sid
  m_tasks : List (Item Sid)
  m_mutex : Option (Owner Sid Kid n)
  m_stop : Bool
  call : Sid → Call
  shutdown : Kid → Shutdown
  /-- The calls whose function has been executed, and those whose empty function has been taken
  and skipped: for the statements only. -/
  executed : List Sid
  skipped : List Sid

inductive Act (Sid Kid : Type) (n : Nat) where
  | construct
  | execute (sid : Sid) (callable : Bool)
  | call (sid : Sid)
  /-- notify_one, with the blocked worker it wakes -/
  | notifyOne (sid : Sid) (woken : Option (Fin n))
  /-- the next access of a thread: of its own loop or of the worker_loop it executes -/
  | worker (i : Fin n)
  | wake (i : Fin n)
  | shutdown (k : Kid)
  | stop (k : Kid)

variable {cls : ThreadClass} {Sid Kid : Type} {n : Nat}

def initial (cls : ThreadClass) (Sid Kid : Type) (n : Nat) : State cls Sid Kid n where
  constructor := .create 0
  thread _ := cls.initial
  loop _ := .idle
  m_tasks := []
  m_mutex := none
  m_stop := false
  call _ := .idle
  shutdown _ := .idle
  executed := []
  skipped := []

/-- The constructor has made this thread. -/
def Constructor.made : Constructor → Nat → Bool
  | .create k, i => i < k
  | .run k, i => i ≤ k
  | .done, _ => true

def State.setThread (s : State cls Sid Kid n) (i : Fin n) (t : cls.State) : State cls Sid Kid n :=
  { s with thread := Function.update s.thread i t }

def State.goto (s : State cls Sid Kid n) (i : Fin n) (p : Loop Sid) : State cls Sid Kid n :=
  { s with loop := Function.update s.loop i p }

def constructStep (s : State cls Sid Kid n) : Constructor → Option (State cls Sid Kid n)
  | .create k => some { s with constructor := if k < n then .run k else .done }
  | .run k =>
    if h : k < n then
      if cls.ran (s.thread ⟨k, h⟩) then some { s with constructor := .create (k + 1) }
      else (cls.runStep (s.thread ⟨k, h⟩)).map (s.setThread ⟨k, h⟩)
    else none
  | .done => none

def loopStep (cfg : Config) (s : State cls Sid Kid n) (i : Fin n) :
    Loop Sid → Option (State cls Sid Kid n)
  | .lock | .relock =>
    match s.m_mutex with
    | none => some ({ s with m_mutex := some (.worker i) }.goto i .predicate)
    | some _ => none
  | .predicate => some (s.goto i (if s.m_stop || !s.m_tasks.isEmpty then .take else .block))
  | .block => some ({ s with m_mutex := none }.goto i .blocked)
  | .take =>
    match s.m_tasks with
    | task :: rest => some ({ s with m_tasks := rest }.goto i (.unlock (some task)))
    | [] =>
      some (s.goto i (if s.m_stop then .leave else if cfg.asks then .unlock none else .undefined))
  | .unlock (some task) =>
    if task.callable then some ({ s with m_mutex := none }.goto i (.run task))
    else some ({ s with m_mutex := none, skipped := s.skipped ++ [task.call] }.goto i .lock)
  | .unlock none => some ({ s with m_mutex := none }.goto i .lock)
  | .run task => some ({ s with executed := s.executed ++ [task.call] }.goto i .lock)
  | .leave => some ({ s with m_mutex := none }.goto i .returned)
  | .idle | .blocked | .returned | .undefined => none

def threadStep (s : State cls Sid Kid n) (i : Fin n) : Option (State cls Sid Kid n) :=
  (cls.step (s.thread i) .worker).map fun t =>
    if cls.running t then (s.setThread i t).goto i .lock else s.setThread i t

def workerStep (cfg : Config) (s : State cls Sid Kid n) (i : Fin n) :
    Option (State cls Sid Kid n) :=
  if cls.running (s.thread i) then
    match s.loop i with
    | .returned => threadStep s i
    | p => loopStep cfg s i p
  else threadStep s i

def Loop.unblock : Loop Sid → Loop Sid
  | .blocked => .relock
  | p => p

def Loop.isBlocked : Loop Sid → Bool
  | .blocked => true
  | _ => false

variable [DecidableEq Sid] [DecidableEq Kid]

def State.setCall (s : State cls Sid Kid n) (sid : Sid) (p : Call) : State cls Sid Kid n :=
  { s with call := Function.update s.call sid p }

def State.setShutdown (s : State cls Sid Kid n) (k : Kid) (p : Shutdown) : State cls Sid Kid n :=
  { s with shutdown := Function.update s.shutdown k p }

def callStep (cfg : Config) (s : State cls Sid Kid n) (sid : Sid) :
    Call → Option (State cls Sid Kid n)
  | .lock callable =>
    match s.m_mutex with
    | none => some ({ s with m_mutex := some (.call sid) }.setCall sid (.check callable))
    | some _ => none
  | .check callable => some (s.setCall sid (if s.m_stop then .unlockThrow else .emplace callable))
  | .emplace callable =>
    some ({ s with m_tasks := s.m_tasks ++ [Item.mk sid callable] }.setCall sid (.unlock callable))
  | .unlock callable => some ({ s with m_mutex := none }.setCall sid (.notifyOne callable))
  | .unlockThrow =>
    some ({ s with m_mutex := none }.setCall sid
      (.threw ("Executor " ++ cfg.m_name ++ " is stopped.")))
  | .idle | .notifyOne _ | .returned _ | .threw _ => none

def stopStep (s : State cls Sid Kid n) (k : Kid) : Shutdown → Option (State cls Sid Kid n)
  | .lock =>
    match s.m_mutex with
    | none => some ({ s with m_mutex := some (.shutdown k) }.setShutdown k .check)
    | some _ => none
  | .check => some (s.setShutdown k (if s.m_stop then .unlockReturn else .set))
  | .set => some ({ s with m_stop := true }.setShutdown k .unlock)
  | .unlock => some ({ s with m_mutex := none }.setShutdown k .notifyAll)
  | .notifyAll =>
    some ({ s with loop := fun i => (s.loop i).unblock }.setShutdown k (.join 0))
  | .join i =>
    if h : i < n then
      if cls.joined (s.thread ⟨i, h⟩) then some (s.setShutdown k (.join (i + 1)))
      else (cls.joinStep (s.thread ⟨i, h⟩)).map (s.setThread ⟨i, h⟩)
    else some (s.setShutdown k .returned)
  | .unlockReturn => some ({ s with m_mutex := none }.setShutdown k .skipped)
  | .idle | .returned | .skipped => none

def Constructor.isDone : Constructor → Bool
  | .done => true
  | _ => false

def step (cfg : Config) (s : State cfg.cls Sid Kid n) :
    Act Sid Kid n → Option (State cfg.cls Sid Kid n)
  | .construct => constructStep s s.constructor
  | .execute sid callable =>
    match s.call sid with
    | .idle => if s.constructor.isDone then some (s.setCall sid (.lock callable)) else none
    | _ => none
  | .call sid => callStep cfg s sid (s.call sid)
  | .notifyOne sid woken =>
    match s.call sid with
    | .notifyOne callable =>
      match woken with
      | some i =>
        if (s.loop i).isBlocked then some ((s.goto i .relock).setCall sid (.returned callable))
        else none
      | none =>
        if ∀ i, (s.loop i).isBlocked = false then some (s.setCall sid (.returned callable)) else none
    | _ => none
  | .worker i => if s.constructor.made i then workerStep cfg s i else none
  | .wake i =>
    if (s.loop i).isBlocked then some (s.goto i .relock)
    else (cfg.cls.step (s.thread i) .wake).map (s.setThread i)
  | .shutdown k =>
    match s.shutdown k with
    | .idle => if s.constructor.isDone then some (s.setShutdown k .lock) else none
    | _ => none
  | .stop k => stopStep s k (s.shutdown k)

def system (cfg : Config) (Sid Kid : Type) (n : Nat) [DecidableEq Sid] [DecidableEq Kid] :
    System (State cfg.cls Sid Kid n) (Act Sid Kid n) where
  start s := s = initial cfg.cls Sid Kid n
  step := step cfg

end Pot.Executors
