import Pot.Task

/-! The task executor::run returns in the modules (coroutines/task.cppm, executors/executor.cppm).
do_run has suspended in switch_awaitable and its handle is queued in a pool; a worker pops and
resumes it, and one consumer calls get() or co_awaits the task. A step is one access of the frame,
and the waits are steps that are not there yet. The frame is kept until all of this is over. -/
namespace Pot.PooledTask
open Transition Pot.Task

inductive Way where
  | get
  | coAwait
  deriving DecidableEq

/-- `body` is what func makes of do_run: it suspends again where func's own task has to be awaited,
and whatever it waits for then resumes it once. -/
structure Config (V E : Type) where
  way : Way
  body : Body V E

inductive Coro where
  | suspended (k : Nat)
  | running (k : Nat)
  | emplaced
  | exchanged
  /-- suspended for good; final_awaiter::await_suspend reads m_continuation next -/
  | finalSuspend
  | finished
  /-- m_ready had been set already, and both set_value and set_exception have thrown -/
  | threw
  /-- resume() has met it where it was not suspended or was done -/
  | undefined
  deriving DecidableEq

/-- The last suspension it has come to; the final one comes after all others. -/
def Coro.last (suspensions : Nat) : Coro → Nat
  | .suspended k | .running k => k
  | .emplaced | .exchanged => suspensions
  | .finalSuspend | .finished | .threw | .undefined => suspensions + 1

def Coro.done : Coro → Bool
  | .finalSuspend | .finished | .threw => true
  | _ => false

/-- What has been queued by switch_awaitable, in worker_loop. -/
inductive Job where
  | queued
  | popped
  | resuming
  | returned
  deriving DecidableEq

/-- The consumer's thread, by what comes next. -/
inductive Consumer (V E : Type) where
  | look
  | store
  | check
  | resume
  | resuming
  | wait
  | finished (o : Outcome V E)
  /-- done with await_suspend, or in await_resume without it -/
  | left

/-- Who has called resume() last. -/
inductive Runner where
  | worker
  | consumer
  | other
  deriving DecidableEq

structure State (V E : Type) where
  m_ready : Bool
  m_data : Data V E
  m_continuation : Bool
  coro : Coro
  runner : Runner
  job : Job
  /-- what func's own task is still to resume -/
  pending : Nat
  consumer : Consumer V E
  resumed : List Nat
  entries : List (Bool × Data V E)

inductive Act where
  | worker
  | awaited
  | consumer
  | coroutine
  deriving DecidableEq

variable {V E : Type}

/-- m_handle.resume(). What it does to a coroutine that is not suspended, or is done, is not
defined, and nothing is said of what comes after. -/
def State.resume (cfg : Config V E) (s : State V E) (runner : Runner) : State V E :=
  match s.coro with
  | .suspended k => { s with coro := .running k, runner, resumed := s.resumed ++ [k] }
  | c => { s with coro := .undefined, resumed := s.resumed ++ [c.last cfg.body.suspensions] }

def Way.after : Way → Consumer V E
  | .get => .wait
  | .coAwait => .left

def State.returns (cfg : Config V E) (s : State V E) : State V E :=
  { s with
    job := if s.runner = .worker then .returned else s.job
    consumer := if s.runner = .consumer then cfg.way.after else s.consumer }

def State.enter (s : State V E) : State V E :=
  { s with entries := s.entries ++ [(s.m_ready, s.m_data)] }

/-- The coroutine, on the thread that has resumed it. -/
def complete (cfg : Config V E) (s : State V E) : Option (State V E) :=
  match s.coro with
  | .running k =>
    if k < cfg.body.suspensions then
      some ({ s with coro := .suspended (k + 1), pending := s.pending + 1 }.returns cfg)
    else some { s with m_data := cfg.body.result.data, coro := .emplaced }
  | .emplaced =>
    if s.m_ready then some ({ s with coro := .threw }.returns cfg)
    else some { s with m_ready := true, coro := .exchanged }
  | .exchanged => some { s with coro := .finalSuspend }
  | .finalSuspend =>
    if s.m_continuation then some ({ s.enter with coro := .finished }.returns cfg)
    else some ({ s with coro := .finished }.returns cfg)
  | .suspended _ | .finished | .threw | .undefined => none

def consume (cfg : Config V E) (s : State V E) : Option (State V E) :=
  match s.consumer with
  | .look => match cfg.way with
    | .get =>
      if s.m_ready then some { s with consumer := .wait } else some { s with consumer := .resume }
    | .coAwait =>
      if s.m_ready then some { s.enter with consumer := .left } else some { s with consumer := .store }
  | .store => some { s with m_continuation := true, consumer := .check }
  | .check =>
    if s.coro.done then some { s with consumer := .left } else some { s with consumer := .resume }
  | .resume => some ({ s with consumer := .resuming }.resume cfg .consumer)
  | .wait =>
    if s.m_ready then some { s with consumer := .finished (readData cfg.body.isVoid s.m_data) }
    else none
  | .resuming | .finished _ | .left => none

def work (cfg : Config V E) (s : State V E) : Option (State V E) :=
  match s.job with
  | .queued => some { s with job := .popped }
  | .popped => some ({ s with job := .resuming }.resume cfg .worker)
  | .resuming | .returned => none

def step (cfg : Config V E) (s : State V E) (a : Act) : Option (State V E) :=
  if s.coro = .undefined then none
  else match a with
    | .worker => work cfg s
    | .awaited =>
      if 0 < s.pending then some ({ s with pending := s.pending - 1 }.resume cfg .other) else none
    | .consumer => consume cfg s
    | .coroutine => complete cfg s

def initial : State V E where
  m_ready := false
  m_data := .monostate
  m_continuation := false
  coro := .suspended 0
  runner := .other
  job := .queued
  pending := 0
  consumer := .look
  resumed := []
  entries := []

def system (cfg : Config V E) : System (State V E) Act where
  start s := s = initial
  step := step cfg

/-- The suspensions to resume from. -/
def Config.expected (cfg : Config V E) (k : Nat) : Nat := if k ≤ cfg.body.suspensions then 1 else 0

/-- No suspension is resumed twice, the final one never, and the consumer goes on at most once,
after completion. -/
structure AtMostOnce (cfg : Config V E) (s : State V E) : Prop where
  suspensions : ∀ k, s.resumed.count k ≤ cfg.expected k
  consumer : s.entries.length ≤ 1
  late : ∀ e ∈ s.entries, e = (true, cfg.body.result.data)

structure ExactlyOnce (cfg : Config V E) (s : State V E) : Prop where
  suspensions : ∀ k, s.resumed.count k = cfg.expected k
  consumer : cfg.way = .coAwait → s.entries = [(true, cfg.body.result.data)]

/-- get() looks when the result is there. co_await may look before, but then registers before
final_awaiter looks for it, and checks done() after the coroutine has suspended for good. -/
def State.timely (cfg : Config V E) (s : State V E) : Bool :=
  match s.consumer with
  | .look => cfg.way = .coAwait || s.m_ready
  | .store => s.coro ≠ .finished
  | .check => s.coro.done
  | .resume | .resuming | .wait | .finished _ | .left => true

def Timely (cfg : Config V E) (s : State V E) (a : Act) : Prop :=
  a = .consumer → s.timely cfg = true

instance (cfg : Config V E) (s : State V E) (a : Act) : Decidable (Timely cfg s a) :=
  inferInstanceAs (Decidable (_ → _))

/-- What a step is, with the guards it has passed. -/
inductive Moves (cfg : Config V E) (s : State V E) : Act → State V E → Prop where
  | pop (at_job : s.job = .queued) : Moves cfg s .worker { s with job := .popped }
  | work (at_job : s.job = .popped) :
    Moves cfg s .worker ({ s with job := .resuming }.resume cfg .worker)
  | awaited (some : 0 < s.pending) :
    Moves cfg s .awaited ({ s with pending := s.pending - 1 }.resume cfg .other)
  | ready (at_look : s.consumer = .look) (way : cfg.way = .get) (ready : s.m_ready = true) :
    Moves cfg s .consumer { s with consumer := .wait }
  | early (at_look : s.consumer = .look) (way : cfg.way = .get) (ready : s.m_ready = false) :
    Moves cfg s .consumer { s with consumer := .resume }
  | await_ready (at_look : s.consumer = .look) (way : cfg.way = .coAwait)
    (ready : s.m_ready = true) : Moves cfg s .consumer { s.enter with consumer := .left }
  | await_suspend (at_look : s.consumer = .look) (way : cfg.way = .coAwait)
    (ready : s.m_ready = false) : Moves cfg s .consumer { s with consumer := .store }
  | store (at_store : s.consumer = .store) :
    Moves cfg s .consumer { s with m_continuation := true, consumer := .check }
  | done (at_check : s.consumer = .check) (done : s.coro.done = true) :
    Moves cfg s .consumer { s with consumer := .left }
  | not_done (at_check : s.consumer = .check) (done : s.coro.done = false) :
    Moves cfg s .consumer { s with consumer := .resume }
  | resume (at_resume : s.consumer = .resume) :
    Moves cfg s .consumer ({ s with consumer := .resuming }.resume cfg .consumer)
  | get (at_wait : s.consumer = .wait) (ready : s.m_ready = true) : Moves cfg s .consumer
      { s with consumer := .finished (readData cfg.body.isVoid s.m_data) }
  | suspend {k : Nat} (at_coro : s.coro = .running k) (more : k < cfg.body.suspensions) :
    Moves cfg s .coroutine
      ({ s with coro := .suspended (k + 1), pending := s.pending + 1 }.returns cfg)
  | emplace {k : Nat} (at_coro : s.coro = .running k) (last : cfg.body.suspensions ≤ k) :
    Moves cfg s .coroutine { s with m_data := cfg.body.result.data, coro := .emplaced }
  | again (at_coro : s.coro = .emplaced) (ready : s.m_ready = true) :
    Moves cfg s .coroutine ({ s with coro := .threw }.returns cfg)
  | exchange (at_coro : s.coro = .emplaced) (ready : s.m_ready = false) :
    Moves cfg s .coroutine { s with m_ready := true, coro := .exchanged }
  | final_suspend (at_coro : s.coro = .exchanged) :
    Moves cfg s .coroutine { s with coro := .finalSuspend }
  | transfer (at_coro : s.coro = .finalSuspend) (registered : s.m_continuation = true) :
    Moves cfg s .coroutine ({ s.enter with coro := .finished }.returns cfg)
  | finish (at_coro : s.coro = .finalSuspend) (registered : s.m_continuation = false) :
    Moves cfg s .coroutine ({ s with coro := .finished }.returns cfg)

section Inversion
variable {cfg : Config V E} {s t : State V E} {a : Act}

theorem work_cases (taken : work cfg s = some t) : Moves cfg s .worker t := by
  unfold work at taken
  split at taken <;> cases taken
  · exact .pop ‹_›
  · exact .work ‹_›

theorem consume_cases (taken : consume cfg s = some t) : Moves cfg s .consumer t := by
  unfold consume at taken
  split at taken
  · rename_i at_look
    split at taken <;> split at taken <;> cases taken
    · exact .ready at_look ‹_› ‹_›
    · exact .early at_look ‹_› (eq_false_of_ne_true ‹_›)
    · exact .await_ready at_look ‹_› ‹_›
    · exact .await_suspend at_look ‹_› (eq_false_of_ne_true ‹_›)
  · cases taken
    exact .store ‹_›
  · split at taken <;> cases taken
    · exact .done ‹_› ‹_›
    · exact .not_done ‹_› (eq_false_of_ne_true ‹_›)
  · cases taken
    exact .resume ‹_›
  · split at taken <;> cases taken
    exact .get ‹_› ‹_›
  all_goals cases taken

theorem complete_cases (taken : complete cfg s = some t) : Moves cfg s .coroutine t := by
  unfold complete at taken
  split at taken
  · split at taken <;> cases taken
    · exact .suspend ‹_› ‹_›
    · exact .emplace ‹_› (Nat.le_of_not_lt ‹_›)
  · split at taken <;> cases taken
    · exact .again ‹_› ‹_›
    · exact .exchange ‹_› (eq_false_of_ne_true ‹_›)
  · cases taken
    exact .final_suspend ‹_›
  · split at taken <;> cases taken
    · exact .transfer ‹_› ‹_›
    · exact .finish ‹_› (eq_false_of_ne_true ‹_›)
  all_goals cases taken

theorem step_cases (taken : step cfg s a = some t) : s.coro ≠ .undefined ∧ Moves cfg s a t := by
  unfold step at taken
  split at taken
  · cases taken
  · rename_i defined
    refine ⟨defined, ?_⟩
    cases a with
    | worker => exact work_cases taken
    | consumer => exact consume_cases taken
    | coroutine => exact complete_cases taken
    | awaited =>
      simp only at taken
      split at taken <;> cases taken
      exact .awaited ‹_›

end Inversion

end Pot.PooledTask
