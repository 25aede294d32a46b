import Pot.ReduceSimd

/-! parfor and the reductions on an executor in any state of its life. A pool may be built with no
threads, and a pool that is shut down has none; the algorithms ask for thread_count() at one moment
and call run() at later ones. A run() is one access here; what it gives to a thread is executed. -/
namespace Pot.ParforExecutor
open Transition

inductive Kind where
  /-- a pool over one queue: gq, lfgq and those of the sandbox -/
  | global
  /-- a pool with a queue for each thread, taken in turn: lq, lflq and those of the sandbox -/
  | perThread
  | inline_executor
  | thread_executor
  deriving DecidableEq

inductive Phase where
  | running
  | stopping
  /-- m_threads is empty; the thread of a thread_executor has returned -/
  | stopped
  deriving DecidableEq

def Phase.rank : Phase → Nat
  | .running => 0
  | .stopping => 1
  | .stopped => 2

structure Executor where
  kind : Kind
  num_threads : Nat
  phase : Phase

/-- The base class has 1, the pools have the size of m_threads. -/
def Executor.thread_count (e : Executor) : Nat :=
  match e.kind with
  | .inline_executor | .thread_executor => 1
  | .global | .perThread => if e.phase = .stopped then 0 else e.num_threads

inductive Run where
  | executed
  /-- "Executor .. is stopped.", kept in the task -/
  | threw
  /-- queued for good -/
  | never
  | dividesByZero
  deriving DecidableEq

/-- What becomes of a function that is given to run(). -/
def Executor.run (e : Executor) : Run :=
  match e.kind with
  | .inline_executor => .executed
  | .thread_executor => if e.phase = .stopped then .never else .executed
  | .global =>
    if e.phase ≠ .running then .threw
    else if e.num_threads = 0 then .never else .executed
  | .perThread =>
    -- m_next_thread_idx.fetch_add(1) % m_threads.size()
    if e.phase ≠ .running then .threw
    else if e.num_threads = 0 then .dividesByZero else .executed

/-- An executor with its phase at each access; shutdown() takes it onward only. -/
structure Life where
  kind : Kind
  num_threads : Nat
  phase : Nat → Phase
  onward : ∀ i j, i ≤ j → (phase i).rank ≤ (phase j).rank

def Life.executor (l : Life) (access : Nat) : Executor := ⟨l.kind, l.num_threads, l.phase access⟩

inductive Outcome where
  | done
  | threw
  | hangs
  | dividesByZero
  deriving DecidableEq

/-- when_all awaits the tasks in their order, up to one that throws or never ends. -/
def awaited : List Run → Outcome
  | [] => .done
  | .executed :: rest => awaited rest
  | .threw :: _ => .threw
  | .never :: _ => .hangs
  | .dividesByZero :: _ => .dividesByZero

/-- parfor from the given access on: thread_count(), and then a run() for each chunk. -/
def call (l : Life) (access : Nat) (static_chunk_size from_ to_ : Int) : Parfor.Call :=
  ⟨static_chunk_size, from_, to_, (l.executor access).thread_count⟩

def runs (l : Life) (access : Nat) (chunks : Nat) : List Run :=
  (List.range chunks).map fun chunkIndex => (l.executor (access + 1 + chunkIndex)).run

def parfor (l : Life) (access : Nat) (static_chunk_size from_ to_ : Int) : Outcome :=
  if ¬ (call l access static_chunk_size from_ to_).Divides then .dividesByZero
  else if .dividesByZero ∈ runs l access (call l access static_chunk_size from_ to_).tasks.loops then
    .dividesByZero
  else awaited (runs l access (call l access static_chunk_size from_ to_).tasks.loops)

/-- The reductions ask for thread_count() themselves, and parfor asks again. -/
def block_count (l : Life) : Nat := max 1 (l.executor 0).thread_count

/-- A run() that meets this is executed or refused: not a pool built with no threads before it is
shut down, nor a thread_executor after its thread has returned. -/
def Executor.Serves (e : Executor) : Prop :=
  match e.kind with
  | .inline_executor => True
  | .thread_executor => e.phase ≠ .stopped
  | .global | .perThread => e.phase = .running → e.num_threads ≠ 0

/-- Where parfor works, from the given access on. -/
structure Served (l : Life) (access : Nat) (static_chunk_size from_ to_ : Int) : Prop where
  mode : static_chunk_size ≠ 0
  threads : static_chunk_size < 0 → (l.executor access).thread_count ≠ 0
  serves : ∀ chunkIndex < (call l access static_chunk_size from_ to_).tasks.loops,
    (l.executor (access + 1 + chunkIndex)).Serves

variable {l : Life} {access : Nat} {static_chunk_size from_ to_ : Int}

def pool (kind : Kind) (num_threads : Nat) (phase : Phase) : Life :=
  ⟨kind, num_threads, fun _ => phase, fun _ _ _ => Nat.le_refl _⟩

end Pot.ParforExecutor
