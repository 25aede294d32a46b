import Pot.StagedTree
import Pot.Transition

/-! parfor of the modules (algorithms/parfor.cppm), called in the chunks of parfor. A task is a
chunk: the calls of parfor that its iterations make one after the other are its stages, and the
root is the caller's own thread. All threads run tasks of one pool; the queue between them gives
out in order what it has been given. sync_wait() keeps its thread. A step is one access of the
queue or of an m_ready. -/
namespace Pot.ParforNested
open Transition

/-- parfor, inside the task that calls it. -/
structure Pc (Tid : Type) where
  /-- the chunks that are still to be run -/
  chunks : List Tid
  /-- tasks, from the one that sync_wait() is called on next -/
  tasks : List Tid
  /-- the calls that the task makes afterwards -/
  later : List (List Tid)

/-- The coroutine of a task. -/
inductive Frame (Tid : Type) where
  | absent
  /-- in switch_awaitable, with its handle in the pool's queue -/
  | queued
  | runs (pc : Pc Tid)
  | ready

structure State (Tid : Type) (n : Nat) where
  queue : List Tid
  frame : Tid → Frame Tid
  /-- What the caller and the workers execute; a worker without a task is in worker_loop. -/
  thread : Option (Fin n) → Option Tid

inductive Act (n : Nat) where
  | pop (i : Fin n)
  /-- the next access of what the thread executes -/
  | step (who : Option (Fin n))

variable {Tid : Type} {n : Nat} [DecidableEq Tid]

def initial (program : StagedTree Tid) (n : Nat) : State Tid n where
  queue := []
  frame t := if t = program.root then .runs ⟨[], [], program.stages t⟩ else .absent
  thread
    | none => some program.root
    | some _ => none

def State.goto (s : State Tid n) (t : Tid) (pc : Pc Tid) : State Tid n :=
  { s with frame := Function.update s.frame t (.runs pc) }

/-- executor.run: the chunk suspends itself, and its handle goes into the queue. -/
def State.push (s : State Tid n) (t chunk : Tid) (pc : Pc Tid) : State Tid n :=
  { s with
    queue := s.queue ++ [chunk]
    frame := Function.update (Function.update s.frame t (.runs pc)) chunk .queued }

def taskStep (queue_size : Nat) (s : State Tid n) (who : Option (Fin n)) (t : Tid) :
    Pc Tid → Option (State Tid n)
  | ⟨chunk :: chunks, tasks, later⟩ =>
    -- push_back_blocking, which yields as long as the queue is full
    if s.queue.length < queue_size then
      some (s.push t chunk ⟨chunks, tasks ++ [chunk], later⟩)
    else none
  | ⟨[], task :: tasks, later⟩ =>
    match s.frame task with
    | .ready => some (s.goto t ⟨[], tasks, later⟩)
    | _ => none
  | ⟨[], [], chunks :: later⟩ => some (s.goto t ⟨chunks, [], later⟩)
  | ⟨[], [], []⟩ => some { s with
      frame := Function.update s.frame t .ready
      thread := Function.update s.thread who none }

def step (program : StagedTree Tid) (queue_size : Nat) (s : State Tid n) :
    Act n → Option (State Tid n)
  | .pop i =>
    match s.thread (some i), s.queue with
    | none, t :: rest => some { s with
        queue := rest
        frame := Function.update s.frame t (.runs ⟨[], [], program.stages t⟩)
        thread := Function.update s.thread (some i) (some t) }
    | _, _ => none
  | .step who =>
    match s.thread who with
    | some t =>
      match s.frame t with
      | .runs pc => taskStep queue_size s who t pc
      | _ => none
    | none => none

def system (program : StagedTree Tid) (queue_size n : Nat) : System (State Tid n) (Act n) where
  start s := s = initial program n
  step := step program queue_size

def State.returned (program : StagedTree Tid) (s : State Tid n) : Prop :=
  s.frame program.root = .ready

inductive Steps (program : StagedTree Tid) (queue_size : Nat) (s : State Tid n) :
    Act n → State Tid n → Prop where
  | pop {i t rest} (idle : s.thread (some i) = none) (queue : s.queue = t :: rest) :
    Steps program queue_size s (.pop i) { s with
      queue := rest
      frame := Function.update s.frame t (.runs ⟨[], [], program.stages t⟩)
      thread := Function.update s.thread (some i) (some t) }
  | run {who t chunk chunks tasks later} (busy : s.thread who = some t)
    (at_pc : s.frame t = .runs ⟨chunk :: chunks, tasks, later⟩)
    (room : s.queue.length < queue_size) : Steps program queue_size s (.step who) (s.push t chunk
      ⟨chunks, tasks ++ [chunk], later⟩)
  | sync_wait {who t task tasks later} (busy : s.thread who = some t)
    (at_pc : s.frame t = .runs ⟨[], task :: tasks, later⟩) (ready : s.frame task = .ready) :
    Steps program queue_size s (.step who) (s.goto t ⟨[], tasks, later⟩)
  | parfor {who t chunks later} (busy : s.thread who = some t)
    (at_pc : s.frame t = .runs ⟨[], [], chunks :: later⟩) :
    Steps program queue_size s (.step who) (s.goto t ⟨chunks, [], later⟩)
  | co_return {who t} (busy : s.thread who = some t) (at_pc : s.frame t = .runs ⟨[], [], []⟩) :
    Steps program queue_size s (.step who) { s with
      frame := Function.update s.frame t .ready
      thread := Function.update s.thread who none }

theorem step_cases {program : StagedTree Tid} {queue_size : Nat} {s t : State Tid n} {a : Act n}
    (taken : step program queue_size s a = some t) : Steps program queue_size s a t := by
  cases a with
  | pop i =>
    simp only [step] at taken
    split at taken <;> cases taken
    exact .pop ‹_› ‹_›
  | step who =>
    simp only [step] at taken
    split at taken
    · rename_i t busy
      split at taken
      · rename_i pc at_pc
        obtain ⟨chunks, tasks, later⟩ := pc
        cases chunks with
        | cons chunk chunks =>
          simp only [taskStep] at taken
          split at taken <;> cases taken
          exact .run busy at_pc ‹_›
        | nil =>
          cases tasks with
          | cons task tasks =>
            simp only [taskStep] at taken
            split at taken <;> cases taken
            exact .sync_wait busy at_pc ‹_›
          | nil =>
            cases later with
            | cons chunks later => cases taken; exact .parfor busy at_pc
            | nil => cases taken; exact .co_return busy at_pc
      · cases taken
    · cases taken

/-- It cannot go on for now: the queue is full, or what it waits for is not ready. -/
def Pc.Blocked (queue_size : Nat) (s : State Tid n) (pc : Pc Tid) : Prop :=
  pc.chunks ≠ [] ∧ queue_size ≤ s.queue.length ∨
    pc.chunks = [] ∧ ∃ task tasks, pc.tasks = task :: tasks ∧ s.frame task ≠ .ready

theorem blocked_iff {program : StagedTree Tid} {queue_size : Nat} {s : State Tid n}
    {who : Option (Fin n)} {t : Tid} {pc : Pc Tid} (busy : s.thread who = some t)
    (at_pc : s.frame t = .runs pc) :
    step program queue_size s (.step who) = none ↔ pc.Blocked queue_size s := by
  simp only [step, busy, at_pc]
  obtain ⟨chunks, tasks, later⟩ := pc
  cases chunks with
  | cons chunk chunks => simp [taskStep, Pc.Blocked]
  | nil =>
    cases tasks with
    | cons task tasks =>
      simp only [taskStep, Pc.Blocked]
      cases at_task : s.frame task <;> simp [at_task]
    | nil => cases later <;> simp [taskStep, Pc.Blocked]

end Pot.ParforNested
