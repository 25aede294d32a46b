import Mathlib.Data.List.Basic
import Mathlib.Logic.Function.Basic
import Pot.Transition

/-! The bounded lock-free queue of algorithms/lfqueue.h, one atomic access a step. Any type
of threads may call push and pop. Positions and sequence numbers are naturals, so the signed
difference `dif` is exact. The histories of pushed messages and returned values are carried
along for the statements only; no step reads them. -/
namespace Pot.Lfqueue
open Transition

def capacity : Nat := 1024
def mask : Nat := capacity - 1

/-- `buffer[pos & mask]` -/
def slot (pos : Nat) : Nat := pos &&& mask

theorem slot_mod (pos : Nat) : slot pos = pos % 1024 :=
  Nat.and_two_pow_sub_one_eq_mod pos 10

structure Cell (T : Type) where
  sequence : Nat
  data : Option T

inductive Pc (T : Type) where
  | idle
  | pushLoadPos (msg : T)
  | pushLoadSeq (msg : T) (pos : Nat)
  | pushCas (msg : T) (pos : Nat)
  | pushData (msg : T) (pos : Nat)
  | pushStoreSeq (pos : Nat)
  | popLoadPos
  | popLoadSeq (pos : Nat)
  | popCas (pos : Nat)
  | popData (pos : Nat)
  | popStoreSeq (pos : Nat) (result : Option T)

structure State (Tid T : Type) where
  buffer : Nat → Cell T
  enqueuePos : Nat
  dequeuePos : Nat
  pc : Tid → Pc T
  /-- Messages of the successful pushes, in ticket order. -/
  pushed : List T
  /-- Tickets and values of the pops that have returned. -/
  popped : List (Nat × Option T)

inductive Act (T : Type) where
  | push (msg : T)
  | pop
  /-- The next access; a weak compare-exchange may fail although the values agree. -/
  | go (spurious : Bool)

variable {Tid T : Type}

def State.setCell (s : State Tid T) (pos : Nat) (c : Cell T) : State Tid T :=
  { s with buffer := Function.update s.buffer (slot pos) c }

def initial : State Tid T where
  buffer i := ⟨i, none⟩
  enqueuePos := 0
  dequeuePos := 0
  pc _ := .idle
  pushed := []
  popped := []

variable [DecidableEq Tid]

def State.goto (s : State Tid T) (i : Tid) (p : Pc T) : State Tid T :=
  { s with pc := Function.update s.pc i p }

def push (s : State Tid T) (i : Tid) (spurious : Bool) : Pc T → Option (State Tid T)
  | .pushLoadPos msg => some (s.goto i (.pushLoadSeq msg s.enqueuePos))
  | .pushLoadSeq msg pos =>
    let dif : Int := (s.buffer (slot pos)).sequence - pos
    if dif = 0 then some (s.goto i (.pushCas msg pos))
    else if dif < 0 then some (s.goto i .idle)
    else some (s.goto i (.pushLoadPos msg))
  | .pushCas msg pos =>
    if s.enqueuePos = pos ∧ spurious = false then
      some ({ s with enqueuePos := pos + 1, pushed := s.pushed ++ [msg] }.goto i (.pushData msg pos))
    else some (s.goto i (.pushLoadSeq msg s.enqueuePos))
  | .pushData msg pos =>
    some ((s.setCell pos { s.buffer (slot pos) with data := some msg }).goto i (.pushStoreSeq pos))
  | .pushStoreSeq pos =>
    some ((s.setCell pos { s.buffer (slot pos) with sequence := pos + 1 }).goto i .idle)
  | _ => none

/-- One access of pop after its call. The move out of the cell leaves nothing to read. -/
def pop (s : State Tid T) (i : Tid) (spurious : Bool) : Pc T → Option (State Tid T)
  | .popLoadPos => some (s.goto i (.popLoadSeq s.dequeuePos))
  | .popLoadSeq pos =>
    let dif : Int := (s.buffer (slot pos)).sequence - (pos + 1)
    if dif = 0 then some (s.goto i (.popCas pos))
    else if dif < 0 then some (s.goto i .idle)
    else some (s.goto i .popLoadPos)
  | .popCas pos =>
    if s.dequeuePos = pos ∧ spurious = false then
      some ({ s with dequeuePos := pos + 1 }.goto i (.popData pos))
    else some (s.goto i (.popLoadSeq s.dequeuePos))
  | .popData pos =>
    some ((s.setCell pos { s.buffer (slot pos) with data := none }).goto i
      (.popStoreSeq pos (s.buffer (slot pos)).data))
  | .popStoreSeq pos result =>
    some ({ s.setCell pos { s.buffer (slot pos) with sequence := pos + mask + 1 } with
      popped := s.popped ++ [(pos, result)] }.goto i .idle)
  | _ => none

def step (s : State Tid T) : Tid × Act T → Option (State Tid T)
  | (i, .push msg) =>
    match s.pc i with
    | .idle => some (s.goto i (.pushLoadPos msg))
    | _ => none
  | (i, .pop) =>
    match s.pc i with
    | .idle => some (s.goto i .popLoadPos)
    | _ => none
  | (i, .go spurious) => (push s i spurious (s.pc i)).or (pop s i spurious (s.pc i))

def system (Tid T : Type) [DecidableEq Tid] : System (State Tid T) (Tid × Act T) where
  start s := s = initial
  step := step

end Pot.Lfqueue
