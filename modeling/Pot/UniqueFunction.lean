import Pot.Ownership

/-! pot::utils::unique_function_once (utils/unique_function.h): wrappers with a vtable pointer and a
buffer that holds the callable or a pointer to it. A call and a destruction of a callable begin and
end in steps of their own, so that the callable may use other wrappers in between; it leaves alone
the wrapper that holds it. A callable whose construction throws leaves no wrapper and is not
modelled. -/
namespace Pot.UniqueFunction
open Transition

/-- func_constants; a pointer has eight bytes. -/
def total_size : Nat := 64
def buffer_size : Nat := total_size - 8

/-- What the templates ask of callable_type. -/
structure CallableType where
  trivially_copy_constructible : Bool
  trivially_destructible : Bool
  nothrow_move_constructible : Bool
  size : Nat
  deriving DecidableEq

def CallableType.is_inlinable (D : CallableType) : Bool :=
  D.nothrow_move_constructible && decide (D.size ≤ buffer_size)

/-- Which of the two pointers that may be null is not. -/
structure Vtable where
  move_destroy_fn : Bool
  destroy_fn : Bool

def make_vtable (D : CallableType) : Vtable where
  move_destroy_fn :=
    !(D.trivially_copy_constructible && D.trivially_destructible && D.is_inlinable)
  destroy_fn := !(D.trivially_destructible && D.is_inlinable)

def Vtable.trivially_copiable_destructible (vt : Vtable) : Bool := !vt.move_destroy_fn
def Vtable.trivially_destructible (vt : Vtable) : Bool := !vt.destroy_fn

/-- Not so for an inline callable whose destructor is trivial: nothing is called. -/
def CallableType.needs_destruction (D : CallableType) : Bool := (make_vtable D).destroy_fn

variable {W C A : Type}

/-- A buffer: no object, a callable, or a pointer to one, which may be null. -/
inductive Bytes (C A : Type) where
  | raw
  | object (c : C)
  | pointer (p : Option A)

/-- A vtable pointer is known by the type whose s_vtable it points to. -/
structure Wrapper (C A : Type) where
  m_vtbl : Option CallableType
  m_buffer : Bytes C A

/-- callable_ptr: into the buffer, or to where a pointer leads. -/
inductive Target (A : Type) where
  | inline
  | allocated (p : Option A)

/-- What follows when reset() is done. -/
inductive Next (W : Type) where
  | stay
  | move_from (other : W)
  | gone

inductive Frame (W A : Type) where
  | calling (callable_ptr : Target A)
  | destroying (next : Next W)

structure State (W C A : Type) where
  wrapper : W → Option (Wrapper C A)
  heap : A → Option C
  /-- What a wrapper is in the middle of. -/
  frame : W → Option (Frame W A)
  faulty : Bool
  stored : List C
  log : List (Ownership.Event C)

inductive Act (W C A : Type) where
  | default (w : W)
  /-- The callable is new; the address is for one that is not inlinable. -/
  | construct (w : W) (c : C) (a : A)
  | move_construct (w other : W)
  | move_assign (w other : W)
  | reset (w : W)
  | destroy (w : W)
  | call (w : W)
  | return_ (w : W)
  | throw (w : W)
  /-- reset() goes on after the destruction of the callable -/
  | finish (w : W)

def initial : State W C A where
  wrapper _ := none
  heap _ := none
  frame _ := none
  faulty := false
  stored := []
  log := []

def callable_ptr (D : CallableType) (buffer : Bytes C A) : Target A :=
  if D.is_inlinable then .inline
  else .allocated (match buffer with | .pointer p => p | _ => none)

def State.find (s : State W C A) (w : W) : Target A → Option C
  | .inline => match s.wrapper w with
    | some ⟨_, .object c⟩ => some c
    | _ => none
  | .allocated p => p.bind s.heap

/-- move_destroy: what is left in the source and what comes to the destination. -/
def move_destroy (D : CallableType) (c : C) (src : Bytes C A) : Bytes C A × Bytes C A :=
  if D.is_inlinable then (.raw, .object c) else (.pointer none, src)

variable [DecidableEq W] [DecidableEq A]

def State.put (s : State W C A) (w : W) (x : Wrapper C A) : State W C A :=
  { s with wrapper := Function.update s.wrapper w (some x) }

def State.enter (s : State W C A) (w : W) (f : Frame W A) : State W C A :=
  { s with frame := Function.update s.frame w (some f) }

def State.leave (s : State W C A) (w : W) : State W C A :=
  { s with frame := Function.update s.frame w none }

/-- The callable's destructor, and delete when it is allocated. -/
def State.destroyCallable (s : State W C A) (w : W) (buffer : Bytes C A) (p : Target A) :
    State W C A :=
  match s.find w p with
  | none => { s with faulty := true }
  | some c =>
    match p with
    | .inline => { s.put w ⟨none, .raw⟩ with log := s.log ++ [.destroyed c] }
    | .allocated none => { s with faulty := true }
    | .allocated (some a) =>
      { s.put w ⟨none, buffer⟩ with
        heap := Function.update s.heap a none
        log := s.log ++ [.destroyed c] }

/-- reset() of the wrapper `x` at `w` -/
def State.reset (s : State W C A) (w : W) (x : Wrapper C A) : State W C A :=
  match x.m_vtbl with
  | none => s
  | some D =>
    if (make_vtable D).trivially_destructible then s.put w ⟨none, x.m_buffer⟩
    else s.destroyCallable w x.m_buffer (callable_ptr D x.m_buffer)

/-- move_from(other) of the empty wrapper at `w`, whose buffer is `old` -/
def State.move_from (s : State W C A) (w : W) (old : Bytes C A) (other : W) (x : Wrapper C A) :
    State W C A :=
  match x.m_vtbl with
  | none => s.put w ⟨none, old⟩
  | some D =>
    match s.find other (callable_ptr D x.m_buffer) with
    | none => { s with faulty := true }
    | some c =>
      let bytes :=
        if (make_vtable D).trivially_copiable_destructible then (x.m_buffer, x.m_buffer)
        else move_destroy D c x.m_buffer
      { (s.put other ⟨none, bytes.1⟩).put w ⟨some D, bytes.2⟩ with log := s.log ++ [.moved c] }

variable [DecidableEq C]

def step (type : C → CallableType) (s : State W C A) : Act W C A → Option (State W C A)
  | .default w => if (s.wrapper w).isNone then some (s.put w ⟨none, .raw⟩) else none
  | .construct w c a =>
    if (s.wrapper w).isSome ∨ c ∈ s.stored then none
    else if (type c).is_inlinable then
      some { s.put w ⟨some (type c), .object c⟩ with stored := s.stored ++ [c] }
    else if (s.heap a).isSome then none
    else
      some { s.put w ⟨some (type c), .pointer (some a)⟩ with
        heap := Function.update s.heap a (some c)
        stored := s.stored ++ [c] }
  | .move_construct w other =>
    match s.wrapper w, s.wrapper other, s.frame other with
    | none, some x, none => some (s.move_from w .raw other x)
    | _, _, _ => none
  | .move_assign w other =>
    match s.wrapper w, s.frame w, s.wrapper other, s.frame other with
    | some x, none, some _, none =>
      if w = other then some s else some ((s.reset w x).enter w (.destroying (.move_from other)))
    | _, _, _, _ => none
  | .reset w =>
    match s.wrapper w, s.frame w with
    | some x, none => some ((s.reset w x).enter w (.destroying .stay))
    | _, _ => none
  | .destroy w =>
    match s.wrapper w, s.frame w with
    | some x, none => some ((s.reset w x).enter w (.destroying .gone))
    | _, _ => none
  | .call w =>
    match s.wrapper w, s.frame w with
    | some ⟨some D, buffer⟩, none =>
      match s.find w (callable_ptr D buffer) with
      | none => some { s with faulty := true }
      | some c =>
        some { (s.put w ⟨none, buffer⟩).enter w (.calling (callable_ptr D buffer)) with
          log := s.log ++ [.used c] }
    | _, _ => none
  | .return_ w =>
    match s.wrapper w, s.frame w with
    | some x, some (.calling p) =>
      some ((s.destroyCallable w x.m_buffer p).enter w (.destroying .stay))
    | _, _ => none
  | .throw w =>
    match s.frame w with
    | some (.calling _) => some (s.leave w)
    | _ => none
  | .finish w =>
    match s.wrapper w, s.frame w with
    | some _, some (.destroying .stay) => some (s.leave w)
    | some _, some (.destroying .gone) =>
      some { s.leave w with wrapper := Function.update s.wrapper w none }
    | some x, some (.destroying (.move_from other)) =>
      match s.wrapper other, s.frame other with
      | some y, none => some ((s.move_from w x.m_buffer other y).leave w)
      | _, _ => none
    | _, _ => none

def system (W A : Type) {C : Type} [DecidableEq W] [DecidableEq C] [DecidableEq A]
    (type : C → CallableType) : System (State W C A) (Act W C A) where
  start s := s = initial
  step := step type

end Pot.UniqueFunction
