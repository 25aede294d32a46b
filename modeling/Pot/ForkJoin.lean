import Mathlib.Algebra.GroupWithZero.Nat
import Mathlib.Data.Fin.Basic
import Pot.Sandbox

/-! Fork-join on sandbox/thread_pool_executor.h, thread_pool_executor_lqlf_steal_seq: tasks that
spawn with run() and wait with get(&pool), coroutines/task.h. Workers and external threads each
have a stack of tasks, the topmost first: wait() runs what try_steal() pops on top of the task
that waits. The pool is not shut down and no queue is full; a step is one access of shared
state. -/
namespace Pot.ForkJoin
open Transition
open Sandbox (Item pop publish Config)

inductive Thread (Kid : Type) (n : Nat) where
  | worker (i : Fin n)
  | external (k : Kid)
  deriving DecidableEq

/-- A task, by the access that comes next. `running` is its own code. -/
inductive Pc (Tid : Type) (n : Nat) where
  | running
  /-- derived_execute in run() -/
  | index (child : Tid)
  | insert (child : Tid) (idx : Fin n)
  | publish (child : Tid) (idx : Fin n)
  | fetchAdd (idx : Fin n)
  | notify (idx : Fin n)
  /-- wait() in get(), and in its steal() the contexts that try_steal has left -/
  | load (child : Tid)
  | steal (child : Tid) (contexts : List (Fin n))
  | final_suspend

structure Frame (Tid : Type) (n : Nat) where
  task : Tid
  pc : Pc Tid n

/-- worker_loop with no task of its own, by the access that comes next. -/
inductive Loop (n : Nat) where
  | load
  | popOwn (wait_val : Nat)
  | scan (wait_val : Nat) (target : Fin n) (rest : List (Fin n))
  | wait (wait_val : Nat)
  | blocked (wait_val : Nat)

structure State (Tid Kid : Type) (n : Nat) where
  m_next_thread_idx : Nat
  queue : Fin n → List (Item Tid)
  notifier : Fin n → Nat
  loop : Fin n → Loop n
  stack : Thread Kid n → List (Frame Tid n)
  m_ready : Tid → Bool
  created : Tid → Bool
  /-- What a task has spawned and not joined. -/
  children : Tid → List Tid

inductive Act (Tid Kid : Type) (n : Nat) where
  /-- an external thread enters code of its own -/
  | enter (k : Kid) (task : Tid)
  | run (th : Thread Kid n) (child : Tid)
  | get (th : Thread Kid n) (child : Tid)
  | finish (th : Thread Kid n)
  | step (th : Thread Kid n)
  | wake (i : Fin n)

variable {Tid Kid : Type} {n : Nat}

def Loop.scanning (wait_val : Nat) : List (Fin n) → Loop n
  | [] => .wait wait_val
  | target :: rest => .scan wait_val target rest

def Loop.unblock : Loop n → Loop n
  | .blocked wait_val => .wait wait_val
  | p => p

def State.setLoop (s : State Tid Kid n) (i : Fin n) (p : Loop n) : State Tid Kid n :=
  { s with loop := Function.update s.loop i p }

def State.setQueue (s : State Tid Kid n) (c : Fin n) (tasks : List (Item Tid)) :
    State Tid Kid n :=
  { s with queue := Function.update s.queue c tasks }

section
variable [DecidableEq Kid]

def State.setStack (s : State Tid Kid n) (th : Thread Kid n) (frames : List (Frame Tid n)) :
    State Tid Kid n :=
  { s with stack := Function.update s.stack th frames }

variable [NeZero n]

def targets (local_id : Fin n) : List (Fin n) :=
  Config.targets ⟨.lqlfStealSeq, ""⟩ local_id

def loopStep (s : State Tid Kid n) (i : Fin n) : Loop n → Option (State Tid Kid n)
  | .load => some (s.setLoop i (.popOwn (s.notifier i)))
  | .popOwn wait_val =>
    match pop (s.queue i) with
    | some (item, rest) =>
      some (((s.setQueue i rest).setLoop i .load).setStack (.worker i) [⟨item.call, .running⟩])
    | none => some (s.setLoop i (.scanning wait_val (targets i)))
  | .scan wait_val target more =>
    match pop (s.queue target) with
    | some (item, rest) =>
      some (((s.setQueue target rest).setLoop i .load).setStack (.worker i)
        [⟨item.call, .running⟩])
    | none => some (s.setLoop i (.scanning wait_val more))
  | .wait wait_val =>
    some (s.setLoop i (if s.notifier i = wait_val then .blocked wait_val else .load))
  | .blocked _ => none

variable [DecidableEq Tid]

def frameStep (s : State Tid Kid n) (th : Thread Kid n) (task : Tid)
    (below : List (Frame Tid n)) : Pc Tid n → Option (State Tid Kid n)
  | .running => none
  | .index child =>
    some ({ s with m_next_thread_idx := s.m_next_thread_idx + 1 }.setStack th
      (⟨task, .insert child (Fin.ofNat n s.m_next_thread_idx)⟩ :: below))
  | .insert child idx =>
    some ((s.setQueue idx (s.queue idx ++ [⟨child, true, 0, 0, false⟩])).setStack th
      (⟨task, .publish child idx⟩ :: below))
  | .publish child idx =>
    some ((s.setQueue idx (publish (s.queue idx) child)).setStack th
      (⟨task, .fetchAdd idx⟩ :: below))
  | .fetchAdd idx =>
    some ({ s with notifier := Function.update s.notifier idx (s.notifier idx + 1) }.setStack th
      (⟨task, .notify idx⟩ :: below))
  | .notify idx =>
    some ((s.setLoop idx (s.loop idx).unblock).setStack th (⟨task, .running⟩ :: below))
  | .load child =>
    if s.m_ready child then
      -- the handle_guard of get() destroys the child
      some ({ s with children := Function.update s.children task
                       ((s.children task).erase child) }.setStack th (⟨task, .running⟩ :: below))
    else some (s.setStack th (⟨task, .steal child (List.finRange n)⟩ :: below))
  | .steal child [] => some (s.setStack th (⟨task, .load child⟩ :: below))
  | .steal child (c :: more) =>
    match pop (s.queue c) with
    | some (item, rest) =>
      some ((s.setQueue c rest).setStack th
        (⟨item.call, .running⟩ :: ⟨task, .load child⟩ :: below))
    | none => some (s.setStack th (⟨task, .steal child more⟩ :: below))
  | .final_suspend => some (s.setStack th below)

def step (s : State Tid Kid n) : Act Tid Kid n → Option (State Tid Kid n)
  | .enter k task =>
    match s.stack (.external k) with
    | [] =>
      if s.created task then none
      else some ({ s with created := Function.update s.created task true }.setStack (.external k)
        [⟨task, .running⟩])
    | _ :: _ => none
  | .run th child =>
    match s.stack th with
    | ⟨task, .running⟩ :: below =>
      if s.created child then none
      else some ({ s with created := Function.update s.created child true,
                          children := Function.update s.children task
                            (child :: s.children task) }.setStack th
        (⟨task, .index child⟩ :: below))
    | _ => none
  | .get th child =>
    match s.stack th with
    | ⟨task, .running⟩ :: below =>
      if child ∈ s.children task then some (s.setStack th (⟨task, .load child⟩ :: below)) else none
    | _ => none
  | .finish th =>
    match s.stack th with
    | ⟨task, .running⟩ :: below =>
      match s.children task with
      | [] =>
        some ({ s with m_ready := Function.update s.m_ready task true }.setStack th
          (⟨task, .final_suspend⟩ :: below))
      | _ :: _ => none
    | _ => none
  | .step th =>
    match s.stack th, th with
    | ⟨task, pc⟩ :: below, _ => frameStep s th task below pc
    | [], .worker i => loopStep s i (s.loop i)
    | [], .external _ => none
  | .wake i =>
    match s.loop i with
    | .blocked wait_val => some (s.setLoop i (.wait wait_val))
    | _ => none

def initial (Tid Kid : Type) (n : Nat) : State Tid Kid n where
  m_next_thread_idx := 0
  queue _ := []
  notifier _ := 0
  loop _ := .load
  stack _ := []
  m_ready _ := false
  created _ := false
  children _ := []

end

def system (Tid Kid : Type) (n : Nat) [NeZero n] [DecidableEq Tid] [DecidableEq Kid] :
    System (State Tid Kid n) (Act Tid Kid n) where
  start s := s = initial Tid Kid n
  step := step

/-- The child whose end the task waits for. -/
def Pc.awaits : Pc Tid n → Option Tid
  | .load child | .steal child _ => some child
  | _ => none

def State.waiting (s : State Tid Kid n) (f : Frame Tid n) : Prop :=
  ∃ child, f.pc.awaits = some child ∧ s.m_ready child = false

def State.unfinished (s : State Tid Kid n) (t : Tid) : Prop :=
  s.created t = true ∧ s.m_ready t = false

end Pot.ForkJoin
