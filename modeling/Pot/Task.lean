import Mathlib.Logic.Function.Basic
import Pot.Transition

/-! The coroutine frame of task and lazy_task (coroutines/task.h): the promise, the thread that
completes the coroutine and the one consumer of its result, one access of the frame a step.
The body is what it ends with and how often it suspends before that. -/
namespace Pot.Task
open Transition

/-- What a body ends with; `returnVoid` is the co_return of a task<void>. -/
inductive Result (V E : Type) where
  | returnVoid
  | value (v : V)
  | exception (e : E)

/-- variant_type: a void promise has no value alternative and leaves `monostate`. -/
inductive Data (V E : Type) where
  | monostate
  | value (v : V)
  | exception (e : E)

inductive Thrown (E : Type) where
  | user (e : E)
  | badFunctionCall
  | badVariantAccess
  | runtimeError (what : String)

/-- How a call ends for the consumer; a void call returns nothing. -/
inductive Outcome (V E : Type) where
  | returned (v : Option V)
  | threw (x : Thrown E)

def Result.data {V E : Type} : Result V E → Data V E
  | .returnVoid => .monostate
  | .value v => .value v
  | .exception e => .exception e

def Result.outcome {V E : Type} : Result V E → Outcome V E
  | .returnVoid => .returned none
  | .value v => .returned (some v)
  | .exception e => .threw (.user e)

/-- A coroutine body: T is void or not, and the compiler allows no other co_return. -/
structure Body (V E : Type) where
  isVoid : Bool
  suspensions : Nat
  result : Result V E
  typed : (result = .returnVoid → isVoid = true) ∧ (∀ v, result = .value v → isVoid = false)

def Body.value {V E : Type} (suspensions : Nat) (v : V) : Body V E :=
  ⟨false, suspensions, .value v, nofun, fun _ _ => rfl⟩

/-- m_awaiter: null, the address 1 that completion leaves, or the consumer's handle. -/
inductive Awaiter where
  | null
  | sentinel
  | consumer
  deriving DecidableEq

/-- Where the coroutine stands; the names from `exchange` on are the accesses of
final_awaiter::await_suspend, which keeps `prev` in a local. -/
inductive Coro where
  | initialSuspend
  | running (suspensions : Nat)
  | suspended (suspensions : Nat)
  | stored
  | exchange
  | storeReady (prev : Awaiter)
  | notifyAll (prev : Awaiter)
  | transfer (prev : Awaiter)
  | finalSuspended
  deriving DecidableEq

structure Frame (V E : Type) where
  m_ready : Bool
  m_awaiter : Awaiter
  m_data : Data V E
  steal : Bool
  done : Bool
  alive : Bool
  coro : Coro
  /-- some access of final_awaiter::await_suspend came after the frame was destroyed -/
  stale : Bool

variable {V E : Type}

/-- What the completing thread tells the consumer's side in a step. -/
inductive Signal where
  | none
  /-- control comes back to whoever resumed the coroutine -/
  | returns
  | notified
  | resumes
  deriving DecidableEq

def Frame.goto (f : Frame V E) (c : Coro) : Frame V E := { f with coro := c }

def Frame.touch (f : Frame V E) : Frame V E := { f with stale := f.stale || !f.alive }

/-- The next step of the coroutine, on whatever thread runs it. -/
def Frame.complete (body : Body V E) (f : Frame V E) : Option (Frame V E × Signal) :=
  match f.coro with
  | .initialSuspend => none
  | .running (k + 1) => some (f.goto (.suspended k), .returns)
  | .suspended k => some (f.goto (.running k), .none)
  | .running 0 => some ({ f with m_data := body.result.data }.goto .stored, .none)
  | .stored => some ({ f with done := true }.goto .exchange, .none)
  | .exchange =>
    some ({ f.touch with m_awaiter := .sentinel }.goto (.storeReady f.m_awaiter), .none)
  | .storeReady prev => some ({ f.touch with m_ready := true }.goto (.notifyAll prev), .none)
  | .notifyAll prev => some (f.touch.goto (.transfer prev), .notified)
  | .transfer .null => some (f.goto .finalSuspended, .returns)
  | .transfer .consumer => some (f.goto .finalSuspended, .resumes)
  | .transfer .sentinel => none
  | .finalSuspended => none

inductive Entry where
  | awaitReady
  | awaitSuspendFalse
  | resumed
  deriving DecidableEq

/-- The consumer, by the access that comes next. -/
inductive Consumer (V E : Type) where
  | start
  | awaitReadyDone
  | awaitReadyFlag
  | awaitSuspend
  | awaitStore
  | awaitTransfer
  | awaiting
  | awaitResume (via : Entry)
  | resume
  | resuming
  | wait
  | steal
  | blockingWait
  | blocked
  | readData
  | guardExit (o : Outcome V E)
  | finished (o : Outcome V E)

inductive Kind where
  | task
  | lazyTask
  deriving DecidableEq

inductive Way where
  /-- get(executor); `false` is the default null executor -/
  | get (executor : Bool)
  | blockingGet
  | coAwait
  deriving DecidableEq

structure Config (V E : Type) where
  kind : Kind
  way : Way
  body : Body V E

/-- What one call of meta.steal ends with: try_steal's answer, or what a stolen function threw. -/
inductive StealResult (E : Type) where
  | answer (ran : Bool)
  | threw (e : E)

def readData (isVoid : Bool) : Data V E → Outcome V E
  | .exception e => .threw (.user e)
  | .value v => if isVoid then .returned none else .returned (some v)
  | .monostate => if isVoid then .returned none else .threw .badVariantAccess

/-- The wait that follows once the handle is known to be good. -/
def Way.waits : Way → Consumer V E
  | .blockingGet => .blockingWait
  | _ => .wait

/-- task::get, task::blocking_get and co_await on a task, up to their first wait. -/
def startTask (way : Way) (f : Frame V E) : Frame V E × Consumer V E :=
  match way with
  | .get executor =>
    if f.alive then ({ f with steal := f.steal || executor }, .wait)
    else (f, .finished (.threw (.runtimeError "Coroutine is invalid")))
  | .blockingGet =>
    if f.alive then (f, .blockingWait)
    else (f, .finished (.threw (.runtimeError "Coroutine is invalid")))
  | .coAwait => (f, .awaitReadyDone)

/-- lazy_task::get, lazy_task::blocking_get and co_await on a lazy_task, up to the resume. -/
def startLazy (way : Way) (f : Frame V E) : Frame V E × Consumer V E :=
  match way with
  | .get executor =>
    if f.alive && !f.done then ({ f with steal := f.steal || executor }, .resume)
    else (f, .finished (.threw (.runtimeError "Coroutine is invalid or already done")))
  | .blockingGet =>
    if f.alive && !f.done then (f, .resume)
    else (f, .finished (.threw (.runtimeError "Coroutine is invalid or already done")))
  | .coAwait => (f, .awaitStore)

/-- The next step of the consumer. m_handle is null exactly when the frame has been destroyed:
the guard that destroys it clears the handle. -/
def consume (cfg : Config V E) (f : Frame V E) : Consumer V E → Option (Frame V E × Consumer V E)
  | .start =>
    match cfg.kind with
    | .task => some (startTask cfg.way f)
    | .lazyTask => some (startLazy cfg.way f)
  | .awaitReadyDone =>
    some (f, if !f.alive || f.done then .awaitResume .awaitReady else .awaitReadyFlag)
  | .awaitReadyFlag => some (f, if f.m_ready then .awaitResume .awaitReady else .awaitSuspend)
  | .awaitSuspend =>
    if !f.alive then some (f, .finished (.threw (.runtimeError "m_handle does not exist")))
    else match f.m_awaiter with
      | .null => some ({ f with m_awaiter := .consumer }, .awaiting)
      | .sentinel => some (f, .awaitResume .awaitSuspendFalse)
      | .consumer =>
        some (f, .finished (.threw (.runtimeError "Race condition or multiple awaiters detected")))
  | .awaitStore =>
    if f.alive && !f.done then some ({ f with m_awaiter := .consumer }, .awaitTransfer)
    else some (f, .finished (.threw (.runtimeError "m_handle does not exist or done")))
  | .awaitTransfer => some (f.goto (.running cfg.body.suspensions), .awaiting)
  | .awaiting => none
  | .awaitResume _ => some (f, .wait)
  | .resume => some (f.goto (.running cfg.body.suspensions), .resuming)
  | .resuming => none
  | .wait => some (f, if f.m_ready then .readData else .steal)
  | .steal => if f.steal then none else some (f, .guardExit (.threw .badFunctionCall))
  | .blockingWait => some (f, if f.m_ready then .readData else .blocked)
  | .blocked => none
  | .readData => some (f, .guardExit (readData cfg.body.isVoid f.m_data))
  | .guardExit o => some ({ f with alive := false }, .finished o)
  | .finished _ => none

def consumeSteal (f : Frame V E) (r : StealResult E) : Consumer V E → Option (Consumer V E)
  | .steal =>
    if f.steal then
      match r with
      | .answer _ => some .wait
      | .threw e => some (.guardExit (.threw (.user e)))
    else none
  | _ => none

/-- What a step of the completing thread does to a consumer that waits for it. -/
def Consumer.hear (way : Way) (c : Consumer V E) : Signal → Consumer V E
  | .none => c
  | .returns => match c with
    | .resuming => way.waits
    | _ => c
  | .notified => match c with
    | .blocked => .blockingWait
    | _ => c
  | .resumes => match c with
    | .awaiting => .awaitResume .resumed
    | _ => c

structure State (V E : Type) where
  frame : Frame V E
  consumer : Consumer V E
  /-- how await_resume has been entered, each time -/
  entries : List Entry

inductive Act (E : Type) where
  | complete
  | consume
  | steal (r : StealResult E)
  | wake

def Consumer.entering : Consumer V E → List Entry
  | .awaitResume via => [via]
  | _ => []

def step (cfg : Config V E) (s : State V E) : Act E → Option (State V E)
  | .complete =>
    (s.frame.complete cfg.body).map fun (f, signal) =>
      let c := s.consumer.hear cfg.way signal
      ⟨f, c, if signal = .resumes then s.entries ++ c.entering else s.entries⟩
  | .consume =>
    (consume cfg s.frame s.consumer).map fun (f, c) => ⟨f, c, s.entries ++ c.entering⟩
  | .steal r => (consumeSteal s.frame r s.consumer).map fun c => { s with consumer := c }
  | .wake => match s.consumer with
    | .blocked => some { s with consumer := .blockingWait }
    | _ => none

/-- A task runs from its creation, a lazy_task waits at its initial suspension. -/
def initialFrame (kind : Kind) (body : Body V E) : Frame V E where
  m_ready := false
  m_awaiter := .null
  m_data := .monostate
  steal := false
  done := false
  alive := true
  coro := match kind with
    | .task => .running body.suspensions
    | .lazyTask => .initialSuspend
  stale := false

def initial (cfg : Config V E) : State V E := ⟨initialFrame cfg.kind cfg.body, .start, []⟩

def system (cfg : Config V E) : System (State V E) (Act E) where
  start s := s = initial cfg
  step := step cfg

end Pot.Task
