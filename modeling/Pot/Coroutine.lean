import Mathlib.Algebra.GroupWithZero.Nat
import Mathlib.Data.Fin.Basic
import Mathlib.Logic.Function.Basic
import Pot.Task

/-! task and lazy_task coroutines on one thread (coroutines/task.h). A program is a tree of
bodies; it has a direct evaluation, in which a child is a value or a computation, and it runs on
the machine of frames, in which a child is a handle and control passes between the frames. -/
namespace Pot.Coroutine
open Pot.Task (Thrown Outcome Data)

/-- task<T> or lazy_task<T>, T void or not. -/
structure Kind where
  isLazy : Bool
  isVoid : Bool
  deriving DecidableEq

/-- A body, by what it does next. `S` is what the bodies compute on; the children of a body are
its locals, numbered as it creates them. -/
inductive Prog (S V E : Type) where
  /-- co_return, or an exception that leaves the body -/
  | finish (result : Outcome V E)
  | compute (effect : S → S) (rest : S → Prog S V E)
  | create (kind : Kind) (child : Prog S V E) (rest : Prog S V E)
  /-- co_await of a local, with what a catch block around it may do -/
  | await (i : Nat) (rest : Outcome V E → Prog S V E)

variable {S V E : Type}

def Typed (isVoid : Bool) : Outcome V E → Prop
  | .returned v => v.isNone = isVoid
  | .threw _ => True

/-- Every child is awaited at most once; `there` are the locals that have not been. -/
def Prog.WellFormed (isVoid : Bool) : Prog S V E → List Bool → Prop
  | .finish result, _ => Typed isVoid result
  | .compute _ rest, there => ∀ s, (rest s).WellFormed isVoid there
  | .create kind child rest, there =>
    child.WellFormed kind.isVoid [] ∧ rest.WellFormed isVoid (there ++ [true])
  | .await i rest, there =>
    there[i]? = some true ∧ ∀ o, (rest o).WellFormed isVoid (there.set i false)

section Direct

/-- A child in the direct evaluation. -/
inductive Slot (S V E : Type) where
  | deferred (call : S → Outcome V E × S)
  | ready (result : Outcome V E)
  | awaited

def Slot.isThere : Slot S V E → Bool
  | .awaited => false
  | _ => true

/-- A lazy_task is called where it is awaited, a task where it is created. -/
def Prog.eval : Prog S V E → List (Slot S V E) → S → Outcome V E × S
  | .finish result, _, s => (result, s)
  | .compute effect rest, env, s => (rest s).eval env (effect s)
  | .create kind child rest, env, s =>
    if kind.isLazy then rest.eval (env ++ [.deferred (child.eval [])]) s
    else rest.eval (env ++ [.ready (child.eval [] s).1]) (child.eval [] s).2
  | .await i rest, env, s =>
    match env[i]? with
    | some (.deferred call) => (rest (call s).1).eval (env.set i .awaited) (call s).2
    | some (.ready result) => (rest result).eval (env.set i .awaited) s
    | _ => (rest (.threw (.runtimeError "not a child that can be awaited"))).eval env s

end Direct

/-- m_awaiter: null, the address 1, or the address of the frame that awaits. -/
inductive Awaiter where
  | null
  | sentinel
  | frame (address : Nat)
  deriving DecidableEq

/-- A local of a body: a task or lazy_task object. -/
structure Local where
  kind : Kind
  m_handle : Option Nat

structure Frame (S V E : Type) where
  kind : Kind
  body : Prog S V E
  locals : List Local
  m_awaiter : Awaiter
  m_ready : Bool
  m_data : Data V (Thrown E)
  started : Bool
  done : Bool
  alive : Bool
  /-- How often the body began and ended and its result was taken: for the statements only. -/
  began : Nat
  ended : Nat
  taken : Nat

inductive Kont (V E : Type) where
  | body (a : Nat)
  | final_suspend (a : Nat)
  | returned (result : Outcome V E)

/-- Where control is. -/
inductive Control (V E : Type) where
  /-- the call of the root coroutine, and for a lazy_task the resume() of get() -/
  | start
  | body (a : Nat)
  | await_resume (a : Nat)
  | final_suspend (a : Nat)
  /-- back in what called or resumed a coroutine -/
  | back
  | get
  | destroy (handles : List Nat) (next : Kont V E)
  | returned (result : Outcome V E)

structure State (S V E : Type) where
  frames : Nat → Frame S V E
  next : Nat
  /-- The bodies in the middle of the call of a task coroutine, with its frame. -/
  callers : List (Nat × Nat)
  control : Control V E
  shared : S

def Kont.control : Kont V E → Control V E
  | .body a => .body a
  | .final_suspend a => .final_suspend a
  | .returned result => .returned result

def Frame.create (kind : Kind) (body : Prog S V E) : Frame S V E where
  kind := kind
  body := body
  locals := []
  m_awaiter := .null
  m_ready := false
  m_data := .monostate
  started := false
  done := false
  alive := true
  began := 0
  ended := 0
  taken := 0

def Frame.begin (f : Frame S V E) : Frame S V E := { f with started := true, began := f.began + 1 }

/-- return_value, return_void and unhandled_exception -/
def data : Outcome V E → Data V (Thrown E)
  | .returned none => .monostate
  | .returned (some v) => .value v
  | .threw x => .exception x

/-- basic_promise_type::get. Without m_ready its wait() calls meta.steal, which is empty. -/
def Frame.get (f : Frame S V E) : Outcome V E :=
  if f.m_ready then
    match f.m_data with
    | .exception x => .threw x
    | .value v => if f.kind.isVoid then .returned none else .returned (some v)
    | .monostate => if f.kind.isVoid then .returned none else .threw .badVariantAccess
  else .threw .badFunctionCall

def handles (locals : List Local) : List Nat := locals.filterMap Local.m_handle

def State.set (s : State S V E) (a : Nat) (f : Frame S V E) : State S V E :=
  { s with frames := Function.update s.frames a f }

def State.goto (s : State S V E) (c : Control V E) : State S V E := { s with control := c }

/-- An exception at the co_await itself. -/
def raise (s : State S V E) (a : Nat) (rest : Outcome V E → Prog S V E) (what : String) :
    State S V E :=
  (s.set a { s.frames a with body := rest (.threw (.runtimeError what)) }).goto (.body a)

/-- await_ready and await_suspend of lazy_task; the frame of the child has to be alive. -/
def awaitLazy (s : State S V E) (a : Nat) (rest : Outcome V E → Prog S V E) :
    Option Nat → Option (State S V E)
  | none => some (raise s a rest "m_handle does not exist or done")
  | some c =>
    if (s.frames c).alive then
      if (s.frames c).done then some (raise s a rest "m_handle does not exist or done")
      else if (s.frames c).started then
        some ((s.set c { s.frames c with m_awaiter := .frame a }).goto (.await_resume c))
      else some ((s.set c { (s.frames c).begin with m_awaiter := .frame a }).goto (.body c))
    else none

def awaitTask (s : State S V E) (a : Nat) (rest : Outcome V E → Prog S V E) :
    Option Nat → Option (State S V E)
  | none => some (s.goto (.await_resume a))
  | some c =>
    if (s.frames c).alive then
      if (s.frames c).done || (s.frames c).m_ready then some (s.goto (.await_resume a))
      else match (s.frames c).m_awaiter with
        | .null => some ((s.set c { s.frames c with m_awaiter := .frame a }).goto .back)
        | .sentinel => some (s.goto (.await_resume a))
        | .frame _ => some (raise s a rest "Race condition or multiple awaiters detected")
    else none

def bodyStep (s : State S V E) (a : Nat) : Prog S V E → Option (State S V E)
  | .finish result =>
    -- the result is stored before the locals go
    some ((s.set a { s.frames a with m_data := data result, locals := [] }).goto
      (.destroy (handles (s.frames a).locals) (.final_suspend a)))
  | .compute effect rest =>
    some { s.set a { s.frames a with body := rest s.shared } with shared := effect s.shared }
  | .create kind child rest =>
    if kind.isLazy then
      some { (s.set a { s.frames a with
        body := rest, locals := (s.frames a).locals ++ [⟨kind, some s.next⟩] }).set s.next
          (.create kind child) with next := s.next + 1 }
    else
      some { (s.set a { s.frames a with body := rest }).set s.next (Frame.create kind child).begin with
        next := s.next + 1, callers := (a, s.next) :: s.callers, control := .body s.next }
  | .await i rest =>
    match (s.frames a).locals[i]? with
    | some l => if l.kind.isLazy then awaitLazy s a rest l.m_handle else awaitTask s a rest l.m_handle
    | none => none

/-- await_resume: the result of the child, whose handle_guard destroys it. -/
def resumeStep (s : State S V E) (a : Nat) : Prog S V E → Option (State S V E)
  | .await i rest =>
    match (s.frames a).locals[i]? with
    | some ⟨kind, some c⟩ =>
      if (s.frames c).alive then
        some (((s.set c { s.frames c with taken := (s.frames c).taken + 1 }).set a
          { s.frames a with body := rest (s.frames c).get,
                            locals := (s.frames a).locals.set i ⟨kind, none⟩ }).goto
          (.destroy [c] (.body a)))
      else none
    | _ => none
  | _ => none

/-- final_awaiter::await_suspend -/
def finalStep (s : State S V E) (a : Nat) : Option (State S V E) :=
  let f := { s.frames a with m_awaiter := .sentinel, m_ready := true, done := true,
                             ended := (s.frames a).ended + 1 }
  match (s.frames a).m_awaiter with
  | .null => some ((s.set a f).goto .back)
  | .frame b => some ((s.set a f).goto (.await_resume b))
  | .sentinel => none

/-- There is no step that uses a destroyed frame. -/
def step (s : State S V E) : Option (State S V E) :=
  match s.control with
  | .start => some ((s.set 0 (s.frames 0).begin).goto (.body 0))
  | .body a => if (s.frames a).alive then bodyStep s a (s.frames a).body else none
  | .await_resume a => if (s.frames a).alive then resumeStep s a (s.frames a).body else none
  | .final_suspend a => if (s.frames a).alive then finalStep s a else none
  | .back =>
    match s.callers with
    | (a, c) :: rest =>
      if (s.frames a).alive then
        some { s.set a { s.frames a with
          locals := (s.frames a).locals ++ [⟨(s.frames c).kind, some c⟩] } with
            callers := rest, control := .body a }
      else none
    | [] => some (s.goto .get)
  | .get =>
    if (s.frames 0).alive then
      some ((s.set 0 { s.frames 0 with taken := (s.frames 0).taken + 1 }).goto
        (.destroy [0] (.returned (s.frames 0).get)))
    else none
  | .destroy [] next => some (s.goto next.control)
  | .destroy (c :: more) next =>
    if (s.frames c).alive then
      some ((s.set c { s.frames c with alive := false }).goto
        (.destroy (handles (s.frames c).locals ++ more) next))
    else none
  | .returned _ => none

/-- The child that the body of the frame is about to await, or has awaited. -/
def State.child (s : State S V E) (a : Nat) : Option Nat :=
  match (s.frames a).body with
  | .await i _ => (s.frames a).locals[i]?.bind Local.m_handle
  | _ => none

/-- The frames that the next step uses. -/
def State.uses (s : State S V E) : List Nat :=
  match s.control with
  | .body a | .await_resume a => a :: (s.child a).toList
  | .final_suspend a => [a]
  | .back => (s.callers.head?.map Prod.fst).toList
  | .get => [0]
  | .destroy handles _ => handles.head?.toList
  | .start | .returned _ => []

/-- A root coroutine of its kind that get() is called on. -/
def initial (kind : Kind) (body : Prog S V E) (shared : S) : State S V E where
  frames _ := .create kind body
  next := 1
  callers := []
  control := .start
  shared := shared

def run : Nat → State S V E → State S V E
  | 0, s => s
  | fuel + 1, s =>
    match step s with
    | some t => run fuel t
    | none => s

end Pot.Coroutine
