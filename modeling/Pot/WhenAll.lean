import Pot.TaskHandoff

/-! when_all (coroutines/when_all.h) and the algorithms on top of it, parsections and parfor: one
coroutine loops over the tasks and awaits each, and each further coroutine awaits the one below.
A task runs on its own from its creation on; every co_await is the one of Pot.Task. -/
namespace Pot.WhenAll
open Transition

/-- parfor's chunk_size and numChunks. -/
def chunkSize (static_chunk_size numIterations : Int) (thread_count : Nat) : Int :=
  if static_chunk_size < 0 then max 1 (numIterations.tdiv thread_count) else static_chunk_size

def numChunks (static_chunk_size from_ to_ : Int) (thread_count : Nat) : Int :=
  let numIterations := to_ - from_
  let chunk_size := chunkSize static_chunk_size numIterations thread_count
  (numIterations + chunk_size - 1).tdiv chunk_size

inductive Combinator where
  /-- when_all(begin, end) and when_all(futures...) -/
  | range (tasks : Nat)
  /-- when_all(futures) of a container -/
  | container (tasks : Nat)
  | parsections (funcs : Nat)
  | parfor (static_chunk_size from_ to_ : Int) (thread_count : Nat)

/-- How many tasks there are in the end. -/
def Combinator.tasks : Combinator → Nat
  | .range tasks | .container tasks | .parsections tasks => tasks
  | .parfor static_chunk_size from_ to_ thread_count =>
    (numChunks static_chunk_size from_ to_ thread_count).toNat

variable {V E : Type}

structure Config (V E : Type) where
  combinator : Combinator
  body : Nat → Task.Body V E

def Config.task (cfg : Config V E) (i : Nat) : Task.Config V E := ⟨.task, .coAwait, cfg.body i⟩

/-- What a co_await throws on, as an exception of the coroutine that awaits. -/
def rethrow : Task.Thrown (Task.Thrown E) → Task.Thrown E
  | .user x => x
  | .badFunctionCall => .badFunctionCall
  | .badVariantAccess => .badVariantAccess
  | .runtimeError what => .runtimeError what

abbrev Result (E : Type) := Task.Result Empty (Task.Thrown E)

/-- The end of a body after its co_await; an exception leaves it through unhandled_exception. -/
def ending {X W : Type} (f : Task.Thrown X → Task.Thrown E) : Task.Outcome W X → Result E
  | .returned _ => .returnVoid
  | .threw x => .exception (f x)

inductive Phase (E : Type) where
  | uncalled
  | body
  | ended (result : Result E)

/-- A coroutine of this file, with the co_await on it. -/
structure Join (E : Type) where
  phase : Phase E
  co : Task.State Empty (Task.Thrown E)

def Join.result (j : Join E) : Result E :=
  match j.phase with
  | .ended result => result
  | _ => .returnVoid

def Join.task (j : Join E) : Task.Config Empty (Task.Thrown E) :=
  ⟨.task, .coAwait, ⟨true, 0, j.result, fun _ => rfl, nofun⟩⟩

def Join.complete (j : Join E) : Option (Join E) :=
  match j.phase with
  | .ended _ => (Task.step j.task j.co .complete).map fun co => { j with co }
  | _ => none

def Join.consume (j : Join E) : Option (Join E) :=
  (Task.step j.task j.co .consume).map fun co => { j with co }

structure State (V E : Type) where
  tasks : Nat → Task.State V E
  size : Nat
  pos : Nat
  range : Join E
  container : Join E
  caller : Join E

inductive Act where
  | task (i : Nat)
  | range
  | container
  | caller

def State.setTask (s : State V E) (i : Nat) (t : Task.State V E) : State V E :=
  { s with tasks := Function.update s.tasks i t }

/-- when_all(begin, end): the loop, then the end of the coroutine. -/
def rangeStep (cfg : Config V E) (s : State V E) : Option (State V E) :=
  match s.range.phase with
  | .uncalled => none
  | .body =>
    if s.pos < s.size then
      match (s.tasks s.pos).consumer with
      | .finished (.returned _) => some { s with pos := s.pos + 1 }
      | .finished (.threw x) =>
        some { s with range := { s.range with phase := .ended (.exception x) } }
      | _ => (Task.step (cfg.task s.pos) (s.tasks s.pos) .consume).map (s.setTask s.pos)
    else some { s with range := { s.range with phase := .ended .returnVoid } }
  | .ended _ => s.range.complete.map fun range => { s with range }

/-- when_all(futures): co_return co_await when_all(std::begin(futures), std::end(futures)). -/
def containerStep (s : State V E) : Option (State V E) :=
  match s.container.phase with
  | .uncalled => none
  | .body =>
    match s.range.phase, s.range.co.consumer with
    | .uncalled, _ => some { s with range := { s.range with phase := .body } }
    | _, .finished o =>
      some { s with container := { s.container with phase := .ended (ending rethrow o) } }
    | _, _ => s.range.consume.map fun range => { s with range }
  | .ended _ => s.container.complete.map fun container => { s with container }

/-- ~vector: ~task destroys the frame its handle still holds. -/
def State.destroyed (s : State V E) : State V E :=
  { s with tasks := fun i => { s.tasks i with frame := { (s.tasks i).frame with alive := false } } }

/-- parsections and parfor: the tasks, co_await when_all(tasks), and the vector goes out of scope
however that ended. -/
def callerStep (cfg : Config V E) (s : State V E) : Option (State V E) :=
  match s.caller.phase with
  | .uncalled => none
  | .body =>
    if s.size < cfg.combinator.tasks then some { s with size := s.size + 1 }
    else match s.container.phase, s.container.co.consumer with
      | .uncalled, _ => some { s with container := { s.container with phase := .body } }
      | _, .finished o =>
        some { s.destroyed with caller := { s.caller with phase := .ended (ending rethrow o) } }
      | _, _ => s.container.consume.map fun container => { s with container }
  | .ended _ => s.caller.complete.map fun caller => { s with caller }

def step (cfg : Config V E) (s : State V E) : Act → Option (State V E)
  | .task i =>
    if i < s.size then (Task.step (cfg.task i) (s.tasks i) .complete).map (s.setTask i) else none
  | .range => rangeStep cfg s
  | .container => containerStep s
  | .caller => callerStep cfg s

def Join.initial (phase : Phase E) : Join E :=
  ⟨phase, Task.initial ⟨.task, .coAwait, ⟨true, 0, .returnVoid, fun _ => rfl, nofun⟩⟩⟩

def initial (cfg : Config V E) : State V E where
  tasks i := Task.initial (cfg.task i)
  size := match cfg.combinator with
    | .range tasks | .container tasks => tasks
    | .parsections _ | .parfor .. => 0
  pos := 0
  range := .initial (match cfg.combinator with
    | .range _ => .body
    | _ => .uncalled)
  container := .initial (match cfg.combinator with
    | .container _ => .body
    | _ => .uncalled)
  caller := .initial (match cfg.combinator with
    | .parsections _ | .parfor .. => .body
    | _ => .uncalled)

def system (cfg : Config V E) : System (State V E) Act where
  start s := s = initial cfg
  step := step cfg

def State.completed (s : State V E) : Combinator → Bool
  | .range _ => s.range.co.frame.done
  | .container _ => s.container.co.frame.done
  | .parsections _ | .parfor .. => s.caller.co.frame.done

end Pot.WhenAll
