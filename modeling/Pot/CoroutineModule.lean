import Pot.Coroutine

/-! task and lazy_task of the module (modules/pot/coroutines/task.cppm) on one thread. Here
await_suspend resumes the child inside the call, final_suspend passes control to the continuation
without leaving that call, and a result stays with its frame, to be had as often as it is asked. -/
namespace Pot.CoroutineModule
open Pot.Task (Thrown Outcome Data)
open Pot.Coroutine (Prog Slot Kind Local Typed handles data)

variable {S V E : Type}

/-- What is awaited has been created; a body may await a local again. -/
def Scoped (isVoid : Bool) : Prog S V E → Nat → Prop
  | .finish result, _ => Typed isVoid result
  | .compute _ rest, created => ∀ s, Scoped isVoid (rest s) created
  | .create kind child rest, created =>
    Scoped kind.isVoid child 0 ∧ Scoped isVoid rest (created + 1)
  | .await i rest, created => i < created ∧ ∀ o, Scoped isVoid (rest o) created

/-- A task is called where it is created, a lazy_task where it is awaited first; from then on its
result is there. -/
def need : Prog S V E → List (Slot S V E) → S → Outcome V E × S
  | .finish result, _, s => (result, s)
  | .compute effect rest, env, s => need (rest s) env (effect s)
  | .create kind child rest, env, s =>
    if kind.isLazy then need rest (env ++ [.deferred (need child [])]) s
    else need rest (env ++ [.ready (need child [] s).1]) (need child [] s).2
  | .await i rest, env, s =>
    match env[i]? with
    | some (.deferred call) => need (rest (call s).1) (env.set i (.ready (call s).1)) (call s).2
    | some (.ready result) => need (rest result) env s
    | _ => need (rest (.threw (.runtimeError "not a child"))) env s

structure Frame (S V E : Type) where
  kind : Kind
  body : Prog S V E
  locals : List Local
  m_ready : Bool
  m_data : Data V (Thrown E)
  m_continuation : Option Nat
  started : Bool
  done : Bool
  alive : Bool
  /-- How often the body began and ended and its result was taken: for the statements only. -/
  began : Nat
  ended : Nat
  taken : Nat

/-- What a coroutine returns into when it suspends. -/
inductive Caller where
  /-- the body of `a`, which has called the task coroutine with frame `c` -/
  | body (a c : Nat)
  /-- await_suspend, which has nothing left to do -/
  | await_suspend
  | root
  | get
  deriving DecidableEq

inductive Kont where
  | final_suspend (a : Nat)
  | returned

/-- Where control is. -/
inductive Control where
  | start
  | body (a : Nat)
  | await_resume (a : Nat)
  | final_suspend (a : Nat)
  /-- back in what called or resumed a coroutine -/
  | back
  /-- get() of the root, or the end of its scope -/
  | get
  | wait
  | destroy (handles : List Nat) (next : Kont)
  | returned

def Kont.control : Kont → Control
  | .final_suspend a => .final_suspend a
  | .returned => .returned

structure State (S V E : Type) where
  frames : Nat → Frame S V E
  next : Nat
  callers : List Caller
  control : Control
  /-- the calls of get() still to come, and what the others gave -/
  gets : Nat
  results : List (Outcome V E)
  shared : S

def Frame.create (kind : Kind) (body : Prog S V E) : Frame S V E where
  kind := kind
  body := body
  locals := []
  m_ready := false
  m_data := .monostate
  m_continuation := none
  started := false
  done := false
  alive := true
  began := 0
  ended := 0
  taken := 0

def Frame.begin (f : Frame S V E) : Frame S V E := { f with started := true, began := f.began + 1 }

/-- basic_promise_type::get after its wait(). -/
def Frame.get (f : Frame S V E) : Outcome V E :=
  match f.m_data with
  | .exception x => .threw x
  | .value v => if f.kind.isVoid then .returned none else .returned (some v)
  | .monostate => if f.kind.isVoid then .returned none else .threw .badVariantAccess

def State.set (s : State S V E) (a : Nat) (f : Frame S V E) : State S V E :=
  { s with frames := Function.update s.frames a f }

def State.goto (s : State S V E) (c : Control) : State S V E := { s with control := c }

def resume (s : State S V E) (c : Nat) (caller : Caller) : State S V E :=
  if (s.frames c).started then
    { s with callers := caller :: s.callers, control := .await_resume c }
  else
    { s.set c (s.frames c).begin with callers := caller :: s.callers, control := .body c }

/-- await_ready and await_suspend; the frame of the child has to be alive. -/
def await (s : State S V E) (a c : Nat) : Option (State S V E) :=
  if (s.frames c).alive then
    if (s.frames c).m_ready then some (s.goto (.await_resume a))
    else
      let t := s.set c { s.frames c with m_continuation := some a }
      some (if (s.frames c).done then t.goto .back else resume t c .await_suspend)
  else none

def bodyStep (s : State S V E) (a : Nat) : Prog S V E → Option (State S V E)
  | .finish result =>
    -- set_value or set_exception, and then the locals go, the last one first
    some ((s.set a { s.frames a with m_data := data result, m_ready := true, locals := [] }).goto
      (.destroy (handles (s.frames a).locals).reverse (.final_suspend a)))
  | .compute effect rest =>
    some { s.set a { s.frames a with body := rest s.shared } with shared := effect s.shared }
  | .create kind child rest =>
    if kind.isLazy then
      some { (s.set a { s.frames a with
        body := rest, locals := (s.frames a).locals ++ [⟨kind, some s.next⟩] }).set s.next
          (.create kind child) with next := s.next + 1 }
    else
      some { (s.set a { s.frames a with body := rest }).set s.next (Frame.create kind child).begin with
        next := s.next + 1, callers := .body a s.next :: s.callers, control := .body s.next }
  | .await i _ =>
    match (s.frames a).locals[i]? with
    | some ⟨_, some c⟩ => await s a c
    -- await_resume of a task without a coroutine dereferences null
    | _ => none

/-- await_resume: a copy of the result of the child, which is waited for. -/
def resumeStep (s : State S V E) (a : Nat) : Prog S V E → Option (State S V E)
  | .await i rest =>
    match (s.frames a).locals[i]? with
    | some ⟨_, some c⟩ =>
      if (s.frames c).alive then
        if (s.frames c).m_ready then
          some (((s.set c { s.frames c with taken := (s.frames c).taken + 1 }).set a
            { s.frames a with body := rest (s.frames c).get }).goto (.body a))
        else some s
      else none
    | _ => none
  | _ => none

/-- final_awaiter::await_suspend -/
def finalStep (s : State S V E) (a : Nat) : State S V E :=
  (s.set a { s.frames a with done := true, ended := (s.frames a).ended + 1 }).goto
    (match (s.frames a).m_continuation with
    | some b => .await_resume b
    | none => .back)

def backStep (s : State S V E) : Option (State S V E) :=
  match s.callers with
  | .body a c :: rest =>
    if (s.frames a).alive then
      some { s.set a { s.frames a with
        locals := (s.frames a).locals ++ [⟨(s.frames c).kind, some c⟩] } with
          callers := rest, control := .body a }
    else none
  | .await_suspend :: rest => some { s with callers := rest }
  | .root :: rest => some { s with callers := rest, control := .get }
  | .get :: rest => some { s with callers := rest, control := .wait }
  | [] => none

/-- get() as often as it is called, and the destructor. -/
def getStep (s : State S V E) : Option (State S V E) :=
  match s.gets with
  | 0 => some (s.goto (.destroy [0] .returned))
  | _ + 1 =>
    if (s.frames 0).alive then
      some (if (s.frames 0).m_ready then s.goto .wait else resume s 0 .get)
    else none

/-- There is no step that uses a destroyed frame. -/
def step (s : State S V E) : Option (State S V E) :=
  match s.control with
  | .start =>
    if (s.frames 0).kind.isLazy then some (s.goto .get) else some (resume s 0 .root)
  | .body a => if (s.frames a).alive then bodyStep s a (s.frames a).body else none
  | .await_resume a => if (s.frames a).alive then resumeStep s a (s.frames a).body else none
  | .final_suspend a => if (s.frames a).alive then some (finalStep s a) else none
  | .back => backStep s
  | .get => getStep s
  | .wait =>
    if (s.frames 0).alive then
      if (s.frames 0).m_ready then
        some { s.set 0 { s.frames 0 with taken := (s.frames 0).taken + 1 } with
          gets := s.gets - 1, results := s.results ++ [(s.frames 0).get], control := .get }
      else some s
    else none
  | .destroy [] next => some (s.goto next.control)
  | .destroy (c :: more) next =>
    if (s.frames c).alive then
      some ((s.set c { s.frames c with alive := false }).goto
        (.destroy ((handles (s.frames c).locals).reverse ++ more) next))
    else none
  | .returned => none

/-- The child that the body of the frame is about to await, or has awaited. -/
def State.child (s : State S V E) (a : Nat) : Option Nat :=
  match (s.frames a).body with
  | .await i _ => (s.frames a).locals[i]?.bind Local.m_handle
  | _ => none

/-- The frames that the next step uses. -/
def State.uses (s : State S V E) : List Nat :=
  match s.control with
  | .body a | .await_resume a => a :: (s.child a).toList
  | .final_suspend a => [a]
  | .back =>
    match s.callers with
    | .body a _ :: _ => [a]
    | _ => []
  | .get => if s.gets = 0 then [] else [0]
  | .wait => [0]
  | .destroy handles _ => handles.head?.toList
  | .start | .returned => []

/-- A root coroutine of its kind that get() is called on so often. -/
def initial (kind : Kind) (body : Prog S V E) (gets : Nat) (shared : S) : State S V E where
  frames _ := .create kind body
  next := 1
  callers := []
  control := .start
  gets := gets
  results := []
  shared := shared

end Pot.CoroutineModule
