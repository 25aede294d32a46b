import Mathlib.Algebra.GroupWithZero.Nat
import Mathlib.Data.Fin.Basic
import Mathlib.Data.List.Sort
import Mathlib.Data.Fintype.Basic
import Pot.Lfqueue

/-! The thread pools of sandbox/thread_pool_executor.h: one model of what they share, with the
container, the number of contexts and the order of stealing as each pool has them. n workers,
any number of derived_execute calls and of external try_steal callers, one shutdown; a step is
one access of shared state. -/
namespace Pot.Sandbox
open Transition

inductive Pool where
  | gq | lq | lqStealSeq | lqStealNeighbor | gs | ls | gsHot | lsHot | gpq | lqlfStealSeq
  | lfgq | lflq
  deriving DecidableEq

inductive Container where
  | queue | stack | deque | pqueue | lfqueue
  deriving DecidableEq

def Pool.container : Pool → Container
  | .gq | .lq | .lqStealSeq | .lqStealNeighbor => .queue
  | .gs | .ls => .stack
  | .gsHot | .lsHot => .deque
  | .gpq => .pqueue
  | .lqlfStealSeq | .lfgq | .lflq => .lfqueue

/-- A thread_context for each worker; the other pools have one container and one notifier. -/
def Pool.isLocal : Pool → Bool
  | .lq | .lqStealSeq | .lqStealNeighbor | .ls | .lsHot | .lqlfStealSeq | .lflq => true
  | _ => false

/-- A queued std::function, with the derived_execute call it comes from. `callable` is its
operator bool, `runs` is meta->run_count, 0 without a meta. -/
structure Item (Sid : Type) where
  call : Sid
  callable : Bool
  runs : Nat
  sequence : Nat
  /-- false for an lfqueue ticket whose sequence store is still to come -/
  published : Bool

variable {Sid Kid : Type} {n : Nat}

/-- thread_pool_executor_gpq::task_item::operator<, with runs for priority -/
def Item.less (a other : Item Sid) : Bool :=
  if a.runs = other.runs then a.sequence > other.sequence else a.runs > other.runs

/-- The containers as lists in the order of their pops; the ones of std::priority_queue are
those of its operator<. -/
def Container.emplace (tasks : List (Item Sid)) (x : Item Sid) : Container → List (Item Sid)
  | .queue | .lfqueue => tasks ++ [x]
  | .stack => x :: tasks
  | .deque => if x.runs ≤ 10 then x :: tasks else tasks ++ [x]
  | .pqueue => tasks.orderedInsert (fun a b => b.less a = true) x

/-- front and pop; an lfqueue answers nullopt while its next ticket is not published. -/
def pop : List (Item Sid) → Option (Item Sid × List (Item Sid))
  | [] => none
  | x :: rest => if x.published then some (x, rest) else none

structure Context (Sid : Type) where
  tasks : List (Item Sid)
  seq_counter : Nat
  notifier : Nat

/-- worker_loop, by the access that comes next. -/
inductive Worker (Sid : Type) (n : Nat) where
  | loop
  | load
  | popOwn (wait_val : Nat)
  /-- the contexts to steal from that are left -/
  | scan (wait_val : Nat) (target : Fin n) (rest : List (Fin n))
  | run (task : Item Sid)
  | recheck (wait_val : Nat)
  | wait (wait_val : Nat)
  | blocked (wait_val : Nat)
  | returned

/-- derived_execute, by the access that comes next. -/
inductive Call (n : Nat) where
  | idle
  | loadStop (callable : Bool) (runs : Nat)
  | index (callable : Bool) (runs : Nat)
  | insert (idx : Fin n) (callable : Bool) (runs : Nat)
  | publish (idx : Fin n)
  | fetchAdd (idx : Fin n)
  | notify (idx : Fin n)
  | returned
  | threw (what : String)
  | divisionByZero

inductive Thief (Sid : Type) (n : Nat) where
  | idle
  | scan (targets : List (Fin n))
  | run (task : Item Sid)

/-- shutdown, by the access that comes next. -/
inductive Shutdown where
  | idle
  | exchange
  | requestStop (thread : Nat)
  | fetchAdd (context : Nat)
  | notifyAll (context : Nat)
  | join (thread : Nat)
  | returned

structure State (Sid Kid : Type) (n : Nat) where
  m_stop : Bool
  size : Nat
  m_next_thread_idx : Nat
  ctx : Fin n → Context Sid
  stop_requested : Fin n → Bool
  worker : Fin n → Worker Sid n
  call : Sid → Call n
  thief : Kid → Thief Sid n
  shutdown : Shutdown
  /-- Calls whose function has run, calls whose function was popped and not run, and the calls
  that had returned when shutdown was called: for the statements only. -/
  executed : List Sid
  dropped : List Sid
  before : Sid → Bool

inductive Act (Sid Kid : Type) (n : Nat) where
  | submit (sid : Sid) (callable : Bool) (runs : Nat)
  | call (sid : Sid)
  /-- notify_one, with the workers it wakes -/
  | notifyOne (sid : Sid) (woken : Fin n → Bool)
  /-- `busy`: a try_lock on the way fails -/
  | worker (i : Fin n) (busy : Bool)
  | wake (i : Fin n)
  | trySteal (k : Kid)
  | thief (k : Kid)
  | shutdown
  | stop

structure Config where
  pool : Pool
  m_name : String

variable [NeZero n]

def Config.home (cfg : Config) (local_id : Fin n) : Fin n := if cfg.pool.isLocal then local_id else 0

def Config.contexts (cfg : Config) (n : Nat) : Nat := if cfg.pool.isLocal then n else 1

/-- Where a worker steals from, in this order. -/
def Config.targets (cfg : Config) (local_id : Fin n) : List (Fin n) :=
  match cfg.pool with
  | .lqStealSeq | .lqlfStealSeq =>
    (List.range (n - 1)).map fun k => Fin.ofNat n (local_id + (k + 1))
  | .lqStealNeighbor =>
    if 1 < n then [Fin.ofNat n (local_id + 1), Fin.ofNat n (local_id + n - 1)] else []
  | _ => []

def Worker.scanning (wait_val : Nat) : List (Fin n) → Worker Sid n
  | [] => .recheck wait_val
  | target :: rest => .scan wait_val target rest

def State.setWorker (s : State Sid Kid n) (i : Fin n) (w : Worker Sid n) : State Sid Kid n :=
  { s with worker := Function.update s.worker i w }

def State.setTasks (s : State Sid Kid n) (c : Fin n) (tasks : List (Item Sid)) :
    State Sid Kid n :=
  { s with ctx := Function.update s.ctx c { s.ctx c with tasks := tasks } }

def State.advance (s : State Sid Kid n) (c : Fin n) (k : Nat) : State Sid Kid n :=
  { s with ctx := Function.update s.ctx c { s.ctx c with notifier := (s.ctx c).notifier + k } }

/-- A worker that has taken `task` out of context `c`: it runs the function, or drops an empty
one and goes on as if it had found nothing. -/
def State.take (s : State Sid Kid n) (i c : Fin n) (task : Item Sid) (rest : List (Item Sid))
    (empty : Worker Sid n) : State Sid Kid n :=
  if task.callable then (s.setTasks c rest).setWorker i (.run task)
  else { s.setTasks c rest with dropped := s.dropped ++ [task.call] }.setWorker i empty

def workerStep (cfg : Config) (s : State Sid Kid n) (i : Fin n) (busy : Bool) :
    Worker Sid n → Option (State Sid Kid n)
  | .loop => some (s.setWorker i (if s.stop_requested i then .returned else .load))
  | .load => some (s.setWorker i (.popOwn (s.ctx (cfg.home i)).notifier))
  | .popOwn wait_val =>
    match pop (s.ctx (cfg.home i)).tasks with
    | some (task, rest) =>
      some (s.take i (cfg.home i) task rest (.scanning wait_val (cfg.targets i)))
    | none => some (s.setWorker i (.scanning wait_val (cfg.targets i)))
  | .scan wait_val target more =>
    if busy && cfg.pool.container ≠ .lfqueue then some (s.setWorker i (.scanning wait_val more))
    else match pop (s.ctx target).tasks with
      | some (task, rest) => some (s.take i target task rest (.recheck wait_val))
      | none => some (s.setWorker i (.scanning wait_val more))
  | .run task => some ({ s with executed := s.executed ++ [task.call] }.setWorker i .loop)
  | .recheck wait_val =>
    some (s.setWorker i (if s.stop_requested i then .returned else .wait wait_val))
  | .wait wait_val =>
    some (s.setWorker i
      (if (s.ctx (cfg.home i)).notifier = wait_val then .blocked wait_val else .loop))
  | .blocked _ => none
  | .returned => none

/-- A blocked worker of the context whose value is no longer the notifier's. -/
def State.eligible (cfg : Config) (s : State Sid Kid n) (c i : Fin n) : Prop :=
  cfg.home i = c ∧ ∃ v, s.worker i = .blocked v ∧ v ≠ (s.ctx c).notifier

def Worker.unblock : Worker Sid n → Worker Sid n
  | .blocked wait_val => .wait wait_val
  | w => w

/-- Blocked workers of a context that a notification wakes go back to compare the value. -/
def State.notify (cfg : Config) (s : State Sid Kid n) (c : Fin n) (woken : Fin n → Bool) :
    State Sid Kid n :=
  { s with worker := fun i => if cfg.home i = c ∧ woken i = true then (s.worker i).unblock
                              else s.worker i }

variable [DecidableEq Sid] [DecidableEq Kid]

def State.setCall (s : State Sid Kid n) (sid : Sid) (c : Call n) : State Sid Kid n :=
  { s with call := Function.update s.call sid c }

def State.setThief (s : State Sid Kid n) (k : Kid) (t : Thief Sid n) : State Sid Kid n :=
  { s with thief := Function.update s.thief k t }

def publish (tasks : List (Item Sid)) (sid : Sid) : List (Item Sid) :=
  tasks.map fun x => if x.call = sid then { x with published := true } else x

def insert (cfg : Config) (s : State Sid Kid n) (sid : Sid) (idx : Fin n) (callable : Bool)
    (runs : Nat) : State Sid Kid n :=
  let ctx := s.ctx idx
  let item : Item Sid := ⟨sid, callable, runs, ctx.seq_counter, cfg.pool.container ≠ .lfqueue⟩
  { s with ctx := Function.update s.ctx idx
             { ctx with tasks := cfg.pool.container.emplace ctx.tasks item,
                        seq_counter := ctx.seq_counter + if cfg.pool = .gpq then 1 else 0 } }

def callStep (cfg : Config) (s : State Sid Kid n) (sid : Sid) : Call n → Option (State Sid Kid n)
  | .loadStop callable runs =>
    some (s.setCall sid (
      if s.m_stop then .threw ("Executor " ++ cfg.m_name ++ " is stopped.")
      else if cfg.pool.isLocal then .index callable runs else .insert 0 callable runs))
  | .index callable runs =>
    some ({ s with m_next_thread_idx := s.m_next_thread_idx + 1 }.setCall sid (
      if s.size = 0 then .divisionByZero
      else .insert (Fin.ofNat n (s.m_next_thread_idx % s.size)) callable runs))
  | .insert idx callable runs =>
    if cfg.pool.container = .lfqueue then
      if (s.ctx idx).tasks.length < Lfqueue.capacity then
        some ((insert cfg s sid idx callable runs).setCall sid (.publish idx))
      else some s
    else some ((insert cfg s sid idx callable runs).setCall sid (.fetchAdd idx))
  | .publish idx =>
    some ((s.setTasks idx (publish (s.ctx idx).tasks sid)).setCall sid (.fetchAdd idx))
  | .fetchAdd idx => some ((s.advance idx 1).setCall sid (.notify idx))
  | _ => none

def thiefStep (s : State Sid Kid n) (k : Kid) : Thief Sid n → Option (State Sid Kid n)
  | .idle => none
  | .scan [] => some (s.setThief k .idle)
  | .scan (target :: more) =>
    match pop (s.ctx target).tasks with
    | some (task, rest) => some ((s.setTasks target rest).setThief k (.run task))
    | none => some (s.setThief k (.scan more))
  | .run task =>
    -- calling an empty function throws std::bad_function_call out of try_steal
    if task.callable then some ({ s with executed := s.executed ++ [task.call] }.setThief k .idle)
    else some ({ s with dropped := s.dropped ++ [task.call] }.setThief k .idle)

def shutdownStep (cfg : Config) (s : State Sid Kid n) : Shutdown → Option (State Sid Kid n)
  | .idle => none
  | .exchange =>
    some { s with m_stop := true, shutdown := if s.m_stop then .returned else .requestStop 0 }
  | .requestStop thread =>
    if h : thread < n then
      some { s with stop_requested := Function.update s.stop_requested ⟨thread, h⟩ true,
                    shutdown := .requestStop (thread + 1) }
    else some { s with shutdown := .fetchAdd 0 }
  | .fetchAdd context =>
    if context < cfg.contexts n then
      some { s.advance (Fin.ofNat n context) (if cfg.pool.isLocal then 1 else s.size) with
        shutdown := .notifyAll context }
    else some { s with shutdown := .join 0 }
  | .notifyAll context =>
    some { s.notify cfg (Fin.ofNat n context) (fun _ => true) with
      shutdown := .fetchAdd (context + 1) }
  | .join thread =>
    if h : thread < n then
      match s.worker ⟨thread, h⟩ with
      | .returned => some { s with shutdown := .join (thread + 1) }
      | _ => none
    else some { s with size := 0, shutdown := .returned }
  | .returned => none

instance (cfg : Config) (s : State Sid Kid n) (c i : Fin n) : Decidable (s.eligible cfg c i) :=
  match h : s.worker i with
  | .blocked v =>
    decidable_of_iff (cfg.home i = c ∧ v ≠ (s.ctx c).notifier) (by simp [State.eligible, h])
  | .loop | .load | .popOwn _ | .scan _ _ _ | .run _ | .recheck _ | .wait _ | .returned =>
    isFalse (by simp [State.eligible, h])

def Call.hasReturned : Call n → Bool
  | .returned => true
  | _ => false

def step (cfg : Config) (s : State Sid Kid n) : Act Sid Kid n → Option (State Sid Kid n)
  | .submit sid callable runs =>
    match s.call sid with
    | .idle => some (s.setCall sid (.loadStop callable runs))
    | _ => none
  | .call sid => callStep cfg s sid (s.call sid)
  | .notifyOne sid woken =>
    match s.call sid with
    | .notify idx =>
      if (∃ i, s.eligible cfg idx i ∧ woken i = true) ∨ ∀ i, ¬ s.eligible cfg idx i then
        some ((s.notify cfg idx woken).setCall sid .returned)
      else none
    | _ => none
  | .worker i busy => workerStep cfg s i busy (s.worker i)
  | .wake i =>
    match s.worker i with
    | .blocked wait_val => some (s.setWorker i (.wait wait_val))
    | _ => none
  | .trySteal k =>
    match s.thief k with
    | .idle =>
      if cfg.pool = .lqlfStealSeq then some (s.setThief k (.scan (List.finRange n))) else none
    | _ => none
  | .thief k => thiefStep s k (s.thief k)
  | .shutdown =>
    match s.shutdown with
    | .idle =>
      some { s with shutdown := .exchange, before := fun sid => (s.call sid).hasReturned }
    | _ => none
  | .stop => shutdownStep cfg s s.shutdown

def initial (Sid Kid : Type) (n : Nat) : State Sid Kid n where
  m_stop := false
  size := n
  m_next_thread_idx := 0
  ctx _ := ⟨[], 0, 0⟩
  stop_requested _ := false
  worker _ := .loop
  call _ := .idle
  thief _ := .idle
  shutdown := .idle
  executed := []
  dropped := []
  before _ := false

def system (cfg : Config) (Sid Kid : Type) (n : Nat) [NeZero n] [DecidableEq Sid]
    [DecidableEq Kid] : System (State Sid Kid n) (Act Sid Kid n) where
  start s := s = initial Sid Kid n
  step := step cfg

end Pot.Sandbox
