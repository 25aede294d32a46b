import Pot.Lfqueue
import Pot.TicketQueue

/-! threads/thread.h: pot::thread and pot::thread_lf, each as the worker it starts, any number
of run() calls by other threads and by the running task, and one join(), whose first part is
request_stop(). A step is one access of shared state. -/
namespace Pot.Thread
open Transition

/-- What both classes are driven by. -/
inductive Act (Sid : Type) where
  | run (i : Sid)
  /-- the task that the worker is executing calls run() -/
  | runInTask (i : Sid)
  | call (i : Sid)
  | worker
  | wake
  | join
  | stop

/-- The function a worker executes, with the last run() call it has made itself. -/
structure Task (Sid : Type) where
  function : Sid
  calls : Option Sid

/-- It is not inside a run() call. -/
def Task.idle {Sid : Type} (returned : Sid → Bool) (task : Task Sid) : Bool := task.calls.all returned

inductive Owner (Sid : Type) where
  | worker
  | caller (i : Sid)

inductive Worker (Sid : Type) where
  | check
  | lock
  /-- the predicate of m_cv.wait, under m_mutex -/
  | predicate
  /-- the release and block of m_cv.wait after a predicate that was false -/
  | block
  | blocked
  | relock
  | take
  | unlock (task : Option Sid)
  | run (task : Task Sid)
  | leave
  | returned

inductive Call where
  | idle
  | lock
  | emplace
  | unlock
  | notifyOne
  | returned
  deriving DecidableEq

inductive Join where
  | idle
  | requestStop
  | notifyAll
  | join
  | returned
  deriving DecidableEq

structure State (Sid : Type) where
  stop_requested : Bool
  m_queue : List Sid
  m_mutex : Option (Owner Sid)
  worker : Worker Sid
  call : Sid → Call
  join : Join
  /-- The functions in the order they were enqueued and executed in, the calls that had returned
  when join() was called, and what the worker and the queue were when the flag was set: for the
  statements only. -/
  enqueued : List Sid
  executed : List Sid
  before : Sid → Bool
  atStop : Option (Worker Sid × List Sid)

variable {Sid : Type}

def initial : State Sid where
  stop_requested := false
  m_queue := []
  m_mutex := none
  worker := .check
  call _ := .idle
  join := .idle
  enqueued := []
  executed := []
  before _ := false
  atStop := none

def State.goto (s : State Sid) (w : Worker Sid) : State Sid := { s with worker := w }

def Worker.unblock : Worker Sid → Worker Sid
  | .blocked => .relock
  | w => w

def Worker.running : Worker Sid → Bool
  | .run _ => true
  | _ => false

/-- It leaves here if it finds the flag set. -/
def Worker.checking : Worker Sid → Bool
  | .check => true
  | _ => false

def workerStep (s : State Sid) : Worker Sid → Option (State Sid)
  | .check => some (s.goto (if s.stop_requested then .returned else .lock))
  | .lock | .relock =>
    match s.m_mutex with
    | none => some ({ s with m_mutex := some .worker }.goto .predicate)
    | some _ => none
  | .predicate =>
    some (s.goto (if s.stop_requested || !s.m_queue.isEmpty then .take else .block))
  | .block => some ({ s with m_mutex := none }.goto .blocked)
  | .take =>
    match s.m_queue with
    | task :: rest => some ({ s with m_queue := rest }.goto (.unlock (some task)))
    | [] => some (s.goto (if s.stop_requested then .leave else .unlock none))
  | .unlock (some task) => some ({ s with m_mutex := none }.goto (.run ⟨task, none⟩))
  | .unlock none => some ({ s with m_mutex := none }.goto .check)
  | .run task =>
    if task.idle (fun i => s.call i = .returned) then
      some ({ s with executed := s.executed ++ [task.function] }.goto .check)
    else none
  | .leave => some ({ s with m_mutex := none }.goto .returned)
  | .blocked | .returned => none

def stopStep (s : State Sid) : Join → Option (State Sid)
  | .requestStop =>
    some { s with stop_requested := true, join := .notifyAll, atStop := some (s.worker, s.m_queue) }
  | .notifyAll => some ({ s with join := .join }.goto s.worker.unblock)
  | .join =>
    match s.worker with
    | .returned => some { s with join := .returned }
    | _ => none
  | .idle | .returned => none

variable [DecidableEq Sid]

def State.setCall (s : State Sid) (i : Sid) (p : Call) : State Sid :=
  { s with call := Function.update s.call i p }

def callStep (s : State Sid) (i : Sid) : Call → Option (State Sid)
  | .lock =>
    match s.m_mutex with
    | none => some ({ s with m_mutex := some (.caller i) }.setCall i .emplace)
    | some _ => none
  | .emplace =>
    some ({ s with m_queue := s.m_queue ++ [i], enqueued := s.enqueued ++ [i] }.setCall i .unlock)
  | .unlock => some ({ s with m_mutex := none }.setCall i .notifyOne)
  | .notifyOne => some ((s.goto s.worker.unblock).setCall i .returned)
  | .idle | .returned => none

def step (s : State Sid) : Act Sid → Option (State Sid)
  | .run i =>
    match s.call i with
    | .idle => some (s.setCall i .lock)
    | _ => none
  | .runInTask i =>
    match s.worker, s.call i with
    | .run task, .idle =>
      if task.idle (fun i => s.call i = .returned) then
        some ((s.goto (.run ⟨task.function, some i⟩)).setCall i .lock)
      else none
    | _, _ => none
  | .call i => callStep s i (s.call i)
  | .worker => workerStep s s.worker
  | .wake =>
    match s.worker with
    | .blocked => some (s.goto .relock)
    | _ => none
  | .join =>
    match s.join with
    | .idle => some { s with join := .requestStop, before := fun i => s.call i = .returned }
    | _ => none
  | .stop => stopStep s s.join

def system (Sid : Type) [DecidableEq Sid] : System (State Sid) (Act Sid) where
  start s := s = initial
  step := step

end Pot.Thread

namespace Pot.ThreadLf
open Transition
open TicketQueue (Ticket take)
open Thread (Act)

/-- worker_loop, by the access that comes next. -/
inductive Worker (Sid : Type) where
  | pop
  | checkStop
  | storeFalse
  | popAgain
  /-- the store(true) before a function that the second pop has found -/
  | storeTrue (task : Sid)
  | run (task : Thread.Task Sid)
  | wait
  | blocked
  | returned

/-- run(), by the access that comes next: push claims a ticket and publishes it. -/
inductive Call where
  | idle
  | claim
  | publish
  | storeTrue
  | notifyOne
  | returned
  deriving DecidableEq

inductive Join where
  | idle
  | requestStop
  | storeTrue
  | notifyAll
  | join
  | returned
  deriving DecidableEq

structure State (Sid : Type) where
  stop_requested : Bool
  m_queue : List (Ticket Sid)
  m_has_work : Bool
  worker : Worker Sid
  call : Sid → Call
  join : Join
  /-- The functions in the order of their tickets and in the order they were executed in, and
  the calls that had returned when join() was called: for the statements only. -/
  enqueued : List Sid
  executed : List Sid
  before : Sid → Bool

variable {Sid : Type}

def initial : State Sid where
  stop_requested := false
  m_queue := []
  m_has_work := false
  worker := .pop
  call _ := .idle
  join := .idle
  enqueued := []
  executed := []
  before _ := false

def State.goto (s : State Sid) (w : Worker Sid) : State Sid := { s with worker := w }

/-- What a notification does to the worker: wait() compares the value again. -/
def Worker.unblock : Worker Sid → Worker Sid
  | .blocked => .wait
  | w => w

def Worker.running : Worker Sid → Bool
  | .run _ => true
  | _ => false

/-- It leaves here if it finds the flag set. -/
def Worker.checking : Worker Sid → Bool
  | .checkStop => true
  | _ => false

def workerStep (s : State Sid) : Worker Sid → Option (State Sid)
  | .pop =>
    match take s.m_queue with
    | some (task, rest) => some ({ s with m_queue := rest }.goto (.run ⟨task.value, none⟩))
    | none => some (s.goto .checkStop)
  | .checkStop => some (s.goto (if s.stop_requested then .returned else .storeFalse))
  | .storeFalse => some ({ s with m_has_work := false }.goto .popAgain)
  | .popAgain =>
    match take s.m_queue with
    | some (task, rest) => some ({ s with m_queue := rest }.goto (.storeTrue task.value))
    | none => some (s.goto .wait)
  | .storeTrue task => some ({ s with m_has_work := true }.goto (.run ⟨task, none⟩))
  | .run task =>
    if task.idle (fun i => s.call i = .returned) then
      some ({ s with executed := s.executed ++ [task.function] }.goto .pop)
    else none
  | .wait => some (s.goto (if s.m_has_work then .pop else .blocked))
  | .blocked | .returned => none

def stopStep (s : State Sid) : Join → Option (State Sid)
  | .requestStop => some { s with stop_requested := true, join := .storeTrue }
  | .storeTrue => some { s with m_has_work := true, join := .notifyAll }
  | .notifyAll => some ({ s with join := .join }.goto s.worker.unblock)
  | .join =>
    match s.worker with
    | .returned => some { s with join := .returned }
    | _ => none
  | .idle | .returned => none

variable [DecidableEq Sid]

def State.setCall (s : State Sid) (i : Sid) (p : Call) : State Sid :=
  { s with call := Function.update s.call i p }

def publish (queue : List (Ticket Sid)) (i : Sid) : List (Ticket Sid) :=
  queue.map fun x => if x.value = i then { x with published := true } else x

def callStep (s : State Sid) (i : Sid) : Call → Option (State Sid)
  | .claim =>
    if s.m_queue.length < Lfqueue.capacity then
      some ({ s with m_queue := s.m_queue ++ [Ticket.mk i false],
                     enqueued := s.enqueued ++ [i] }.setCall i .publish)
    -- push answers false, and run() tries again
    else some s
  | .publish => some ({ s with m_queue := publish s.m_queue i }.setCall i .storeTrue)
  | .storeTrue => some ({ s with m_has_work := true }.setCall i .notifyOne)
  | .notifyOne => some ((s.goto s.worker.unblock).setCall i .returned)
  | .idle | .returned => none

def step (s : State Sid) : Act Sid → Option (State Sid)
  | .run i =>
    match s.call i with
    | .idle => some (s.setCall i .claim)
    | _ => none
  | .runInTask i =>
    match s.worker, s.call i with
    | .run task, .idle =>
      if task.idle (fun i => s.call i = .returned) then
        some ((s.goto (.run ⟨task.function, some i⟩)).setCall i .claim)
      else none
    | _, _ => none
  | .call i => callStep s i (s.call i)
  | .worker => workerStep s s.worker
  | .wake =>
    match s.worker with
    | .blocked => some (s.goto .wait)
    | _ => none
  | .join =>
    match s.join with
    | .idle => some { s with join := .requestStop, before := fun i => s.call i = .returned }
    | _ => none
  | .stop => stopStep s s.join

def system (Sid : Type) [DecidableEq Sid] : System (State Sid) (Act Sid) where
  start s := s = initial
  step := step

end Pot.ThreadLf
