import Mathlib.Algebra.Group.Int.Defs
import Mathlib.Logic.Function.Basic
import Pot.Transition

/-! lfdequeue (algorithms/lfdequeue.h): the deque of one owner and any number of stealers, one
access of shared state a step. A long is an integer here; a buffer is known by its id, which
counts the buffers made. -/
namespace Pot.Lfdequeue
open Transition

structure RingBuffer (T : Type) where
  log_size : Nat
  /-- what new T[] leaves in a slot that nothing was put in is the default value -/
  segment : Int → T
  next : Option Nat
  freed : Bool

variable {Kid T : Type}

def RingBuffer.size (a : RingBuffer T) : Int := 2 ^ a.log_size

def RingBuffer.get (a : RingBuffer T) (i : Int) : T := a.segment (i % a.size)

def RingBuffer.put (a : RingBuffer T) (i : Int) (item : T) : RingBuffer T :=
  { a with segment := Function.update a.segment (i % a.size) item }

structure StealerToken where
  id_last_used : Nat
  was_idle : Bool

/-- What push and pop still have to do after the resize and the reclaim they may contain. An item
on its way out is kept with its index, for the statements. -/
inductive Rest (T : Type) where
  | put (item : T) (b : Int)
  | ret (popped : Int × T)

/-- The owner, by the access that comes next. -/
inductive Owner (Kid T : Type) where
  | idle
  | pushTop (item : T) (b : Int)
  | pushBuffer (item : T) (b t : Int)
  | put (item : T) (b : Int) (a : Nat)
  | pushBottom (item : T) (b : Int)
  | popBuffer (b : Int)
  | popBottom (b : Int) (a : Nat)
  | popTop (b : Int) (a : Nat)
  | popCas (b : Int) (a : Nat) (t : Int)
  | popLast (b : Int) (a : Nat) (t : Int)
  | popRestore (b : Int) (popped : Option (Int × T))
  | popGet (b : Int) (a : Nat) (t : Int)
  /-- the loop of ring_buffer::resize -/
  | copy (rest : Rest T) (a buffer : Nat) (b i : Int)
  | storeActive (rest : Rest T) (a : Nat)
  | reclaim (rest : Rest T) (new_buffer : Nat)
  | scanIdle (rest : Rest T) (new_buffer min_id : Nat) (head : List Kid)
  | scanLast (rest : Rest T) (new_buffer min_id : Nat) (head : Kid) (next : List Kid)
  | free (rest : Rest T) (new_buffer min_id : Nat)

/-- A stealer, by the access that comes next. -/
inductive Stealer (Kid T : Type) where
  | unregistered
  | registering (next : List Kid)
  | idle
  | loadTop
  | loadBottom (t : Int)
  | loadActive (t : Int)
  | cas (t : Int) (a : Nat)
  | get (t : Int) (a : Nat)
  | setIdle (stolen : Option (Int × T))
  | reloadActive (stolen : Option (Int × T))
  | readId (stolen : Option (Int × T)) (a : Nat)
  | storeId (stolen : Option (Int × T)) (id : Nat)

structure State (Kid T : Type) where
  top : Int
  bottom : Int
  unlinked : Option Nat
  /-- the tokens reachable from id_list -/
  id_list : List Kid
  active_buffer : Nat
  buffer : Nat → RingBuffer T
  token : Kid → StealerToken
  owner : Owner Kid T
  stealer : Kid → Stealer Kid T
  /-- For the statements: what was pushed at which index, last and all in all, and what the calls
  that are over have returned. -/
  item : Int → T
  pushed : List (Int × T)
  returned : List (Int × T)

/-- What an access of a freed buffer finds in its place. -/
structure Junk (T : Type) where
  item : T
  id : Nat

inductive Act (Kid T : Type) where
  | push (item : T)
  | pop
  | owner (junk : Junk T)
  /-- `spurious`: the weak compare-exchange of the registration fails without need -/
  | register (k : Kid) (spurious : Bool)
  | popBack (k : Kid)
  | stealer (k : Kid) (junk : Junk T)

def State.read (s : State Kid T) (junk : Junk T) (a : Nat) (i : Int) : T :=
  if (s.buffer a).freed then junk.item else (s.buffer a).get i

def State.setBuffer (s : State Kid T) (a : Nat) (r : RingBuffer T) : State Kid T :=
  { s with buffer := Function.update s.buffer a r }

/-- The end of push and pop that both the resize and the reclaim lead to. -/
def State.proceed (s : State Kid T) (new_buffer : Nat) : Rest T → State Kid T
  | .put item b => { s with owner := .put item b new_buffer }
  | .ret popped => { s with owner := .idle, returned := s.returned ++ [popped] }

/-- if (unlinked) reclaim_buffers(a) -/
def State.reclaims (s : State Kid T) (rest : Rest T) (a : Nat) : State Kid T :=
  if s.unlinked.isSome then { s with owner := .reclaim rest a } else s.proceed a rest

def log_initial_size : Nat := 4

def newBuffer [Inhabited T] (log_size : Nat) : RingBuffer T :=
  ⟨log_size, fun _ => default, none, false⟩

/-- unlinked = unlinked ? unlinked : a, and resize up to its loop. -/
def State.resize [Inhabited T] (s : State Kid T) (rest : Rest T) (a : Nat) (b t : Int)
    (log_size : Nat) : State Kid T :=
  { s.setBuffer (a + 1) (newBuffer log_size) with
    unlinked := some (s.unlinked.getD a), owner := .copy rest a (a + 1) b t }

def ownerStep [Inhabited T] (s : State Kid T) (junk : Junk T) :
    Owner Kid T → Option (State Kid T)
  | .idle => none
  | .pushTop item b => some { s with owner := .pushBuffer item b s.top }
  | .pushBuffer item b t =>
    let a := s.active_buffer
    some (if b - t ≥ (s.buffer a).size - 1
      then s.resize (.put item b) a b t ((s.buffer a).log_size + 1)
      else s.reclaims (.put item b) a)
  | .put item b a =>
    some { s.setBuffer a ((s.buffer a).put b item) with owner := .pushBottom item b }
  | .pushBottom item b =>
    some { s with bottom := b + 1, owner := .idle, item := Function.update s.item b item,
                  pushed := s.pushed ++ [(b, item)] }
  | .popBuffer b => some { s with owner := .popBottom b s.active_buffer }
  | .popBottom b a => some { s with bottom := b - 1, owner := .popTop b a }
  | .popTop b a =>
    some { s with owner :=
      if b - s.top ≤ 0 then .popRestore b none
      else if b - s.top = 1 then .popCas b a s.top
      else .popGet b a s.top }
  | .popCas b a t =>
    some (if s.top = t then { s with top := t + 1, owner := .popLast b a t }
      else { s with owner := .popRestore b none })
  | .popLast b a t => some { s with owner := .popRestore b (some (t, s.read junk a t)) }
  | .popRestore b popped =>
    some { s with bottom := b, owner := .idle, returned := s.returned ++ popped.toList }
  | .popGet b a t =>
    let popped := (b - 1, s.read junk a (b - 1))
    some (if b - t ≤ (s.buffer a).size / 3 ∧ b - t > 2 ^ log_initial_size
      then s.resize (.ret popped) a b t ((s.buffer a).log_size - 1)
      else s.reclaims (.ret popped) a)
  | .copy rest a buffer b i =>
    some (if i < b
      then { s.setBuffer buffer ((s.buffer buffer).put i (s.read junk a i)) with
             owner := .copy rest a buffer b (i + 1) }
      else { s.setBuffer a { s.buffer a with next := some buffer } with
             owner := .storeActive rest buffer })
  | .storeActive rest a => some ({ s with active_buffer := a }.reclaims rest a)
  | .reclaim rest new_buffer =>
    some { s with owner := .scanIdle rest new_buffer new_buffer s.id_list }
  | .scanIdle rest new_buffer min_id [] => some { s with owner := .free rest new_buffer min_id }
  | .scanIdle rest new_buffer min_id (head :: next) =>
    some { s with owner :=
      if (s.token head).was_idle then .scanIdle rest new_buffer min_id next
      else .scanLast rest new_buffer min_id head next }
  | .scanLast rest new_buffer min_id head next =>
    some { s with owner := .scanIdle rest new_buffer (min min_id (s.token head).id_last_used) next }
  | .free rest new_buffer min_id =>
    match s.unlinked with
    | some reclaimed =>
      if reclaimed < min_id then
        some { s.setBuffer reclaimed { s.buffer reclaimed with freed := true } with
               unlinked := (s.buffer reclaimed).next }
      else some (s.proceed new_buffer rest)
    | none => some (s.proceed new_buffer rest)

variable [DecidableEq Kid]

def State.setStealer (s : State Kid T) (k : Kid) (p : Stealer Kid T) : State Kid T :=
  { s with stealer := Function.update s.stealer k p }

def State.setToken (s : State Kid T) (k : Kid) (token : StealerToken) : State Kid T :=
  { s with token := Function.update s.token k token }

/-- register_stealer, whose token starts idle. -/
def registerStep (s : State Kid T) (k : Kid) (spurious : Bool) :
    Stealer Kid T → Option (State Kid T)
  | .unregistered => some ((s.setToken k ⟨0, true⟩).setStealer k (.registering s.id_list))
  | .registering next =>
    if s.id_list = next ∧ ¬ spurious then
      some ({ s with id_list := k :: next }.setStealer k .idle)
    else some (s.setStealer k .unregistered)
  | _ => none

def stealerStep (s : State Kid T) (k : Kid) (junk : Junk T) :
    Stealer Kid T → Option (State Kid T)
  | .unregistered => none
  | .registering _ => none
  | .idle => none
  | .loadTop => some (s.setStealer k (.loadBottom s.top))
  | .loadBottom t =>
    some (s.setStealer k (if s.bottom - t > 0 then .loadActive t else .setIdle none))
  | .loadActive t => some (s.setStealer k (.cas t s.active_buffer))
  | .cas t a =>
    some (if s.top = t then { s with top := t + 1 }.setStealer k (.get t a)
      else s.setStealer k (.setIdle none))
  | .get t a => some (s.setStealer k (.setIdle (some (t, s.read junk a t))))
  | .setIdle stolen =>
    some ((s.setToken k { s.token k with was_idle := true }).setStealer k (.reloadActive stolen))
  | .reloadActive stolen => some (s.setStealer k (.readId stolen s.active_buffer))
  | .readId stolen a =>
    some (s.setStealer k (.storeId stolen (if (s.buffer a).freed then junk.id else a)))
  | .storeId stolen id =>
    some ({ s.setToken k { s.token k with id_last_used := id } with
            returned := s.returned ++ stolen.toList }.setStealer k .idle)

def step [Inhabited T] (s : State Kid T) : Act Kid T → Option (State Kid T)
  | .push item => match s.owner with
    | .idle => some { s with owner := .pushTop item s.bottom }
    | _ => none
  | .pop => match s.owner with
    | .idle => some { s with owner := .popBuffer s.bottom }
    | _ => none
  | .owner junk => ownerStep s junk s.owner
  | .register k spurious => registerStep s k spurious (s.stealer k)
  | .popBack k => match s.stealer k with
    | .idle => some ((s.setToken k { s.token k with was_idle := false }).setStealer k .loadTop)
    | _ => none
  | .stealer k junk => stealerStep s k junk (s.stealer k)

def initial (Kid T : Type) [Inhabited T] : State Kid T where
  top := 0
  bottom := 0
  unlinked := none
  id_list := []
  active_buffer := 0
  buffer _ := newBuffer log_initial_size
  token _ := ⟨0, true⟩
  owner := .idle
  stealer _ := .unregistered
  item _ := default
  pushed := []
  returned := []

def system (Kid T : Type) [DecidableEq Kid] [Inhabited T] : System (State Kid T) (Act Kid T) where
  start s := s = initial Kid T
  step := step

end Pot.Lfdequeue
