import Pot.LfqueueModuleInvariant

/-! thread_pool_executor_lfgq of the C++ modules (modules/pot/executors/thread_pool_executor.cppm):
any number of worker loops around one queue of Pot.LfqueueModule, each access of shared state a
step. A task is known by its submission, which is called by a thread outside or by the task that a
worker runs. -/
namespace Pot.ThreadPoolLfgq
open Transition
open LfqueueModule (Pc Answer)

/-- worker_loop, outside the queue. -/
inductive Worker (Sid : Type) where
  | loop
  | empty
  | pop
  /-- in task(), and in the submission it has called and that has not returned -/
  | run (task : Sid) (calling : Option Sid)
  | left
  deriving DecidableEq

/-- derived_execute, by the worker whose task has called it or from outside. -/
inductive Call (Wid : Type) where
  | none
  | busy (caller : Option Wid)
  | returned
  deriving DecidableEq

structure State (Wid Sid : Type) where
  queue : LfqueueModule.State (Wid ⊕ Sid) Sid
  shutdown_flag : Bool
  worker : Wid → Worker Sid
  call : Sid → Call Wid
  /-- The tasks that have been run to their ends: for the statements only. -/
  executed : List Sid

inductive Act (Wid Sid : Type) where
  | execute (i : Sid) (caller : Option Wid)
  /-- what push_back_blocking does on the answer of push_back -/
  | blocking (i : Sid)
  | queue (x : Wid ⊕ Sid) (spurious : Bool)
  /-- the next step of a worker loop; is_empty loads its operands in this order -/
  | worker (w : Wid) (epos_first : Bool)
  | shutdown

variable {Wid Sid : Type}

/-- thread_pool_executor_lfgq::thread_pool_executor_lfgq -/
def thread_pool_executor_lfgq (queue_size : Nat) : Except String (State Wid Sid) :=
  match LfqueueModule.lfqueue queue_size with
  | .error what => .error what
  | .ok queue =>
    if queue_size &&& (queue_size - 1) ≠ 0 then .error "queue_size must be a power of 2"
    else .ok ⟨queue, false, fun _ => .loop, fun _ => .none, []⟩

variable [DecidableEq Wid] [DecidableEq Sid]

def State.setWorker (s : State Wid Sid) (w : Wid) (p : Worker Sid) : State Wid Sid :=
  { s with worker := Function.update s.worker w p }

def State.setCall (s : State Wid Sid) (i : Sid) (c : Call Wid) : State Wid Sid :=
  { s with call := Function.update s.call i c }

def State.enter (size : Nat) (s : State Wid Sid) (x : Wid ⊕ Sid) (c : LfqueueModule.Call Sid) :
    Option (State Wid Sid) :=
  (LfqueueModule.step size s.queue (x, .call c)).map fun queue => { s with queue := queue }

def workerStep (size : Nat) (s : State Wid Sid) (w : Wid) (epos_first : Bool) :
    Worker Sid → Option (State Wid Sid)
  | .loop =>
    if s.shutdown_flag then (s.setWorker w .empty).enter size (.inl w) (.is_empty epos_first)
    else (s.setWorker w .pop).enter size (.inl w) .pop
  | .empty =>
    match s.queue.pc (.inl w) with
    | .returned (.empty true) => some (s.setWorker w .left)
    | .returned (.empty false) => (s.setWorker w .pop).enter size (.inl w) .pop
    | _ => none
  | .pop =>
    match s.queue.pc (.inl w) with
    | .returned (.popped _ (some task)) => some (s.setWorker w (.run task none))
    | .returned .nothing => some (s.setWorker w .loop)
    | _ => none
  | .run task none => some ({ s with executed := s.executed ++ [task] }.setWorker w .loop)
  | .run _ (some _) | .left => none

def step (size : Nat) (s : State Wid Sid) : Act Wid Sid → Option (State Wid Sid)
  | .execute i caller =>
    match s.call i, caller with
    | .none, none => (s.setCall i (.busy none)).enter size (.inr i) (.push_back i)
    | .none, some w =>
      match s.worker w with
      | .run task none =>
        ((s.setCall i (.busy (some w))).setWorker w (.run task (some i))).enter size (.inr i)
          (.push_back i)
      | _ => none
    | _, _ => none
  | .blocking i =>
    match s.call i, s.queue.pc (.inr i) with
    | .busy _, .returned (.pushed false) => s.enter size (.inr i) (.push_back i)
    | .busy none, .returned (.pushed true) => some (s.setCall i .returned)
    | .busy (some w), .returned (.pushed true) =>
      match s.worker w with
      | .run task (some _) => some ((s.setCall i .returned).setWorker w (.run task none))
      | _ => none
    | _, _ => none
  | .queue x spurious =>
    (LfqueueModule.step size s.queue (x, .go spurious)).map fun queue => { s with queue := queue }
  | .worker w epos_first => workerStep size s w epos_first (s.worker w)
  | .shutdown => some { s with shutdown_flag := true }

def system (Wid Sid : Type) [DecidableEq Wid] [DecidableEq Sid] (queue_size : Nat) :
    System (State Wid Sid) (Act Wid Sid) where
  start s := thread_pool_executor_lfgq queue_size = .ok s
  step := step queue_size

/-- The submissions from outside return before shutdown() is called. -/
def InTime (s : State Wid Sid) : Act Wid Sid → Prop
  | .execute _ none => s.shutdown_flag = false
  | .shutdown => ∀ i, s.call i ≠ .busy none
  | _ => True

end Pot.ThreadPoolLfgq
