import Mathlib.Algebra.GroupWithZero.Nat
import Mathlib.Data.Fin.Basic
import Mathlib.Data.Fintype.Sum
import Pot.SandboxSteps

/-! The sandbox pools with who makes a derived_execute call: an external thread, or the task that a
thread of the pool or an external try_steal() runs. Such a thread pops nothing while its task is
in 'while (!queue.push(f)) yield'. -/
namespace Pot.BackPressure
open Transition
open Sandbox (Call Config)

/-- What takes functions out of the queues. -/
inductive Popper (Kid : Type) (n : Nat) where
  | worker (i : Fin n)
  | thief (k : Kid)
  deriving DecidableEq

structure State (Sid Kid : Type) (n : Nat) where
  pool : Sandbox.State Sid Kid n
  /-- The derived_execute call that the task makes, or the last one it made. -/
  current : Popper Kid n → Option Sid
  /-- The last push of the call returned false. -/
  refused : Sid → Bool

inductive Act (Sid Kid : Type) (n : Nat) where
  /-- derived_execute, by a running task or from outside -/
  | execute (th : Option (Popper Kid n)) (sid : Sid) (callable : Bool) (runs : Nat)
  | pool (a : Sandbox.Act Sid Kid n)

variable {Sid Kid : Type} {n : Nat}

def isOver : Call n → Bool
  | .returned | .threw _ | .divisionByZero => true
  | _ => false

/-- The queue that the call tries to push to. -/
def inserting : Call n → Option (Fin n)
  | .insert idx _ _ => some idx
  | _ => none

def State.running (s : State Sid Kid n) : Popper Kid n → Bool
  | .worker i =>
    match s.pool.worker i with
    | .run _ => true
    | _ => false
  | .thief k =>
    match s.pool.thief k with
    | .run _ => true
    | _ => false

def State.free (s : State Sid Kid n) (th : Popper Kid n) : Bool :=
  match s.current th with
  | some sid => isOver (s.pool.call sid)
  | none => true

def State.full (s : State Sid Kid n) (idx : Fin n) : Prop :=
  Lfqueue.capacity ≤ (s.pool.ctx idx).tasks.length

instance (s : State Sid Kid n) (idx : Fin n) : Decidable (s.full idx) :=
  inferInstanceAs (Decidable (_ ≤ _))

section
variable [DecidableEq Sid] [DecidableEq Kid] [NeZero n]

/-- A task returns only out of the calls it makes. -/
def State.allows (s : State Sid Kid n) : Sandbox.Act Sid Kid n → Bool
  | .submit _ _ _ => false
  | .worker i _ => !s.running (.worker i) || s.free (.worker i)
  | .thief k => !s.running (.thief k) || s.free (.thief k)
  | _ => true

def State.refuse (cfg : Config) (s : State Sid Kid n) : Sandbox.Act Sid Kid n → Sid → Bool
  | .call sid =>
    match inserting (s.pool.call sid) with
    | some idx =>
      if cfg.pool.container = .lfqueue ∧ s.full idx then Function.update s.refused sid true
      else s.refused
    | none => s.refused
  | _ => s.refused

def step (cfg : Config) (s : State Sid Kid n) : Act Sid Kid n → Option (State Sid Kid n)
  | .execute none sid callable runs =>
    match Sandbox.step cfg s.pool (.submit sid callable runs) with
    | some pool => some { s with pool := pool }
    | none => none
  | .execute (some th) sid callable runs =>
    if s.running th && s.free th then
      match Sandbox.step cfg s.pool (.submit sid callable runs) with
      | some pool =>
        some { s with pool := pool, current := Function.update s.current th (some sid) }
      | none => none
    else none
  | .pool a =>
    if s.allows a then
      match Sandbox.step cfg s.pool a with
      | some pool => some { s with pool := pool, refused := s.refuse cfg a }
      | none => none
    else none

def initial (Sid Kid : Type) (n : Nat) : State Sid Kid n where
  pool := Sandbox.initial Sid Kid n
  current _ := none
  refused _ := false

end

def system (cfg : Config) (Sid Kid : Type) (n : Nat) [NeZero n] [DecidableEq Sid]
    [DecidableEq Kid] : System (State Sid Kid n) (Act Sid Kid n) where
  start s := s = initial Sid Kid n
  step := step cfg

def State.spins (s : State Sid Kid n) (sid : Sid) (idx : Fin n) : Prop :=
  inserting (s.pool.call sid) = some idx ∧ s.refused sid = true

def State.retries (s : State Sid Kid n) (th : Popper Kid n) (idx : Fin n) : Prop :=
  ∃ sid ∈ s.current th, s.spins sid idx

/-- A worker that has not returned, a try_steal that has not. -/
def State.able (s : State Sid Kid n) : Popper Kid n → Bool
  | .worker i =>
    match s.pool.worker i with
    | .returned => false
    | _ => true
  | .thief k =>
    match s.pool.thief k with
    | .idle => false
    | _ => true

variable [NeZero n]

/-- The thread pops from the queue. -/
def pops (cfg : Config) (c : Fin n) : Popper Kid n → Prop
  | .worker i => cfg.home i = c ∨ c ∈ cfg.targets i
  | .thief _ => True

/-- A queue that only threads pop which are all in the retry loop of a full queue. -/
def State.Deadlocked (cfg : Config) (s : State Sid Kid n) : Prop :=
  ∃ c, (∃ th, pops cfg c th ∧ s.able th = true) ∧
    ∀ th, pops cfg c th → s.able th = true → ∃ idx, s.retries th idx ∧ s.full idx

/-- A call in the retry loop of a full queue that no worker is left to pop. -/
def State.Stranded (cfg : Config) (s : State Sid Kid n) : Prop :=
  ∃ sid idx, s.spins sid idx ∧ s.full idx ∧
    ∀ i : Fin n, pops cfg idx (.worker i : Popper Kid n) → s.able (.worker i) = false

end Pot.BackPressure
