import Pot.PooledTask

/-! The lazy_task executor::lazy_run returns in the modules (coroutines/task.cppm,
executors/executor.cppm). do_run waits at its initial suspend point; one consumer calls get() or
co_awaits it, which resumes do_run up to switch_awaitable on the consumer's thread, and a worker of
the pool resumes it from there. A step is one access of the frame or of the pool's queue. -/
namespace Pot.LazyPooledTask
open Transition
open Pot.Task (Body Data Outcome readData)
open PooledTask (Way Config Coro Runner)

/-- What switch_awaitable queues, in worker_loop. -/
inductive Job where
  | none
  | queued
  | popped
  | resuming
  | returned
  deriving DecidableEq

/-- The consumer's thread, by what comes next. -/
inductive Consumer (V E : Type) where
  | look
  | store
  | check
  | resume
  | resuming
  | push
  | wait
  | finished (o : Outcome V E)
  | left

structure State (V E : Type) where
  m_ready : Bool
  m_data : Data V E
  m_continuation : Bool
  /-- Suspension 0 is the initial one, 1 the one in switch_awaitable, the others are func's. -/
  coro : Coro
  runner : Runner
  job : Job
  /-- what func's own task is still to resume -/
  pending : Nat
  consumer : Consumer V E
  alive : Bool
  resumed : List Nat
  entries : List (Bool × Data V E)

inductive Act where
  | worker
  | awaited
  | consumer
  | coroutine
  /-- the lazy_task goes out of scope after get(), or in the coroutine that awaited it -/
  | destroy
  deriving DecidableEq

variable {V E : Type}

/-- resume() of a coroutine that is not suspended, or is done, is not defined. -/
def State.resume (s : State V E) (runner : Runner) : State V E :=
  match s.coro with
  | .suspended k => { s with coro := .running k, runner, resumed := s.resumed ++ [k] }
  | _ => { s with coro := .undefined }

/-- What follows m_handle.resume() in get and in await_suspend. -/
def Way.after : Way → Consumer V E
  | .get => .wait
  | .coAwait => .left

def State.returns (cfg : Config V E) (s : State V E) : State V E :=
  { s with
    job := if s.runner = .worker then .returned else s.job
    consumer := if s.runner = .consumer then Way.after cfg.way else s.consumer }

def State.enter (s : State V E) : State V E :=
  { s with entries := s.entries ++ [(s.m_ready, s.m_data)] }

def complete (cfg : Config V E) (s : State V E) : Option (State V E) :=
  match s.coro with
  | .running 0 => some { s with coro := .suspended 1, consumer := .push }
  | .running (k + 1) =>
    if k < cfg.body.suspensions then
      some ({ s with coro := .suspended (k + 2), pending := s.pending + 1 }.returns cfg)
    else some { s with m_data := cfg.body.result.data, coro := .emplaced }
  | .emplaced =>
    if s.m_ready then some ({ s with coro := .threw }.returns cfg)
    else some { s with m_ready := true, coro := .exchanged }
  | .exchanged => some { s with coro := .finalSuspend }
  | .finalSuspend =>
    if s.m_continuation then some ({ s.enter with coro := .finished }.returns cfg)
    else some ({ s with coro := .finished }.returns cfg)
  | .suspended _ | .finished | .threw | .undefined => none

def consume (cfg : Config V E) (s : State V E) : Option (State V E) :=
  match s.consumer with
  | .look => match cfg.way with
    | .get =>
      if s.m_ready then some { s with consumer := .wait } else some { s with consumer := .resume }
    | .coAwait =>
      if s.m_ready then some { s.enter with consumer := .left } else some { s with consumer := .store }
  | .store => some { s with m_continuation := true, consumer := .check }
  | .check =>
    if s.coro.done then some { s with consumer := .left } else some { s with consumer := .resume }
  | .resume => some ({ s with consumer := .resuming }.resume .consumer)
  | .push => some { s with job := .queued, consumer := Way.after cfg.way }
  | .wait =>
    if s.m_ready then some { s with consumer := .finished (readData cfg.body.isVoid s.m_data) }
    else none
  | .resuming | .finished _ | .left => none

def work (s : State V E) : Option (State V E) :=
  match s.job with
  | .queued => some { s with job := .popped }
  | .popped => some ({ s with job := .resuming }.resume .worker)
  | .none | .resuming | .returned => none

/-- get() has returned, or the coroutine that awaits has been resumed. -/
def State.released (cfg : Config V E) (s : State V E) : Bool :=
  match cfg.way, s.consumer with
  | .get, .finished _ => true
  | .get, _ => false
  | .coAwait, _ => !s.entries.isEmpty

def step (cfg : Config V E) (s : State V E) (a : Act) : Option (State V E) :=
  if s.coro = .undefined then none
  else match a with
    | .worker => work s
    | .awaited =>
      if 0 < s.pending then some ({ s with pending := s.pending - 1 }.resume .other) else none
    | .consumer => consume cfg s
    | .coroutine => complete cfg s
    | .destroy => if s.alive && s.released cfg then some { s with alive := false } else none

def State.uses (s : State V E) : Act → Bool
  | .worker => s.job = .popped
  | .consumer =>
    match s.consumer with
    | .push => false
    | _ => true
  | .awaited | .coroutine | .destroy => true

def initial : State V E where
  m_ready := false
  m_data := .monostate
  m_continuation := false
  coro := .suspended 0
  runner := .other
  job := .none
  pending := 0
  consumer := .look
  alive := true
  resumed := []
  entries := []

def system (cfg : Config V E) : System (State V E) Act where
  start s := s = initial
  step := step cfg

end Pot.LazyPooledTask
