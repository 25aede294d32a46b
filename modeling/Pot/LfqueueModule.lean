import Mathlib.Data.BitVec
import Mathlib.Logic.Function.Basic
import Pot.Transition

/-! pot::algorithms::lfqueue of the C++ modules (modules/pot/algorithms/lfqueue.cppm), one atomic
access a step. Unlike the queue of Pot.Lfqueue it has the size its constructor is given, loads the
position again after a failed exchange, and compares only 32 bits of the two numbers. Positions and
sequence numbers are naturals here: a size_t comes round after 2 ^ 64 operations. The list of
pushed data is for the statements only. -/
namespace Pot.LfqueueModule
open Transition

/-- `curent_pos & buffer_mask` -/
def slot (size pos : Nat) : Nat := pos &&& (size - 1)

/-- `static_cast<int>(sequence) - static_cast<int>(position)`. An overflow of int is undefined in
C++; here it leaves the difference in two's complement. -/
def diff (sequence position : Nat) : Int :=
  (BitVec.ofNat 32 sequence - BitVec.ofNat 32 position).toInt

structure Cell (T : Type) where
  m_sequence : Nat
  m_data : Option T

inductive Call (T : Type) where
  | push_back (data : T)
  | pop
  /-- The operands of == are evaluated in either order. -/
  | is_empty (epos_first : Bool)
  | available_space
  | size

inductive Answer (T : Type) where
  | pushed (result : Bool)
  /-- With the position it is from; `none` is what a move leaves. -/
  | popped (curent_pos : Nat) (data : Option T)
  | nothing
  | empty (result : Bool)
  | count (result : Nat)

/-- Where a thread stands in a call. The names say the access that comes next. -/
inductive Pc (T : Type) where
  | idle
  | pushLoadPos (data : T)
  | pushLoadSeq (data : T) (curent_pos : Nat)
  | pushCas (data : T) (curent_pos : Nat)
  | pushData (data : T) (curent_pos : Nat)
  | pushStoreSeq (curent_pos : Nat)
  | popLoadPos
  | popLoadSeq (curent_pos : Nat)
  | popCas (curent_pos : Nat)
  | popData (curent_pos : Nat)
  | popStoreSeq (curent_pos : Nat) (data : Option T)
  /-- is_empty; the operand that has been loaded already, if one has -/
  | emptyEpos (deq : Option Nat)
  | emptyDpos (enq : Option Nat)
  | spaceEpos
  | spaceDpos (enq : Nat)
  | sizeEpos
  | sizeDpos (enq : Nat)
  | returned (answer : Answer T)

structure State (Tid T : Type) where
  buffer : Nat → Cell T
  epos : Nat
  dpos : Nat
  pc : Tid → Pc T
  /-- The data of the successful pushes, in the order of their positions. -/
  pushed : List T

inductive Act (T : Type) where
  | call (c : Call T)
  /-- The next access; a weak compare-exchange may fail although the values agree. -/
  | go (spurious : Bool)

variable {Tid T : Type}

def initial : State Tid T where
  buffer i := ⟨i, none⟩
  epos := 0
  dpos := 0
  pc _ := .idle
  pushed := []

def lfqueue (size : Nat) : Except String (State Tid T) :=
  if size > 1 <<< 30 then .error "buffer size too large"
  else if size < 2 then .error "buffer size too small"
  else if size &&& (size - 1) ≠ 0 then .error "buffer size is not power of 2"
  else .ok initial

def Pc.resting : Pc T → Bool
  | .idle | .returned _ => true
  | _ => false

def Call.first : Call T → Pc T
  | .push_back data => .pushLoadPos data
  | .pop => .popLoadPos
  | .is_empty true => .emptyEpos none
  | .is_empty false => .emptyDpos none
  | .available_space => .spaceEpos
  | .size => .sizeEpos

def State.setCell (size : Nat) (s : State Tid T) (pos : Nat) (c : Cell T) : State Tid T :=
  { s with buffer := Function.update s.buffer (slot size pos) c }

variable [DecidableEq Tid]

def State.goto (s : State Tid T) (i : Tid) (p : Pc T) : State Tid T :=
  { s with pc := Function.update s.pc i p }

def access (size : Nat) (s : State Tid T) (i : Tid) (spurious : Bool) :
    Pc T → Option (State Tid T)
  | .idle | .returned _ => none
  | .pushLoadPos data => some (s.goto i (.pushLoadSeq data s.epos))
  | .pushLoadSeq data curent_pos =>
    let diff := diff (s.buffer (slot size curent_pos)).m_sequence curent_pos
    if diff < 0 then some (s.goto i (.returned (.pushed false)))
    else if diff = 0 then some (s.goto i (.pushCas data curent_pos))
    else some (s.goto i (.pushLoadPos data))
  | .pushCas data curent_pos =>
    if s.epos = curent_pos ∧ spurious = false then
      some ({ s with epos := curent_pos + 1, pushed := s.pushed ++ [data] }.goto i
        (.pushData data curent_pos))
    else some (s.goto i (.pushLoadPos data))
  | .pushData data curent_pos =>
    some ((s.setCell size curent_pos
      { s.buffer (slot size curent_pos) with m_data := some data }).goto i (.pushStoreSeq curent_pos))
  | .pushStoreSeq curent_pos =>
    some ((s.setCell size curent_pos
      { s.buffer (slot size curent_pos) with m_sequence := curent_pos + 1 }).goto i
        (.returned (.pushed true)))
  | .popLoadPos => some (s.goto i (.popLoadSeq s.dpos))
  | .popLoadSeq curent_pos =>
    let diff := diff (s.buffer (slot size curent_pos)).m_sequence (curent_pos + 1)
    if diff < 0 then some (s.goto i (.returned .nothing))
    else if diff = 0 then some (s.goto i (.popCas curent_pos))
    else some (s.goto i .popLoadPos)
  | .popCas curent_pos =>
    if s.dpos = curent_pos ∧ spurious = false then
      some ({ s with dpos := curent_pos + 1 }.goto i (.popData curent_pos))
    else some (s.goto i .popLoadPos)
  | .popData curent_pos =>
    some ((s.setCell size curent_pos
      { s.buffer (slot size curent_pos) with m_data := none }).goto i
        (.popStoreSeq curent_pos (s.buffer (slot size curent_pos)).m_data))
  | .popStoreSeq curent_pos data =>
    some ((s.setCell size curent_pos
      { s.buffer (slot size curent_pos) with m_sequence := curent_pos + (size - 1) + 1 }).goto i
        (.returned (.popped curent_pos data)))
  | .emptyEpos none => some (s.goto i (.emptyDpos (some s.epos)))
  | .emptyEpos (some deq) => some (s.goto i (.returned (.empty (s.epos = deq))))
  | .emptyDpos none => some (s.goto i (.emptyEpos (some s.dpos)))
  | .emptyDpos (some enq) => some (s.goto i (.returned (.empty (enq = s.dpos))))
  | .spaceEpos => some (s.goto i (.spaceDpos s.epos))
  | .spaceDpos enq =>
    let deq := s.dpos
    some (s.goto i (.returned (.count
      (BitVec.ofNat 64 size - (BitVec.ofNat 64 enq - BitVec.ofNat 64 deq)).toNat)))
  | .sizeEpos => some (s.goto i (.sizeDpos s.epos))
  | .sizeDpos enq =>
    let deq := s.dpos
    some (s.goto i (.returned (.count (BitVec.ofNat 64 enq - BitVec.ofNat 64 deq).toNat)))

def step (size : Nat) (s : State Tid T) : Tid × Act T → Option (State Tid T)
  | (i, .call c) => if (s.pc i).resting then some (s.goto i c.first) else none
  | (i, .go spurious) => access size s i spurious (s.pc i)

/-- A queue of that size, if the constructor makes one. -/
def system (Tid T : Type) [DecidableEq Tid] (size : Nat) : System (State Tid T) (Tid × Act T) where
  start s := lfqueue size = .ok s
  step := step size

end Pot.LfqueueModule
