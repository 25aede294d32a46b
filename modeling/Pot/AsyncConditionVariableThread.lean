import Pot.AsyncConditionVariableChains

/-! coroutines/async_condition_variable.h on one thread. A coroutine resumed by set() runs inside
that set() until it suspends or ends, and what it does meanwhile to the variable, a nested set()
included, is on the stack above it. Awaiters are numbered in the order of their construction, and
so are the calls of set() and stop(); nothing uses the number of an awaiter that is destroyed. -/
namespace Pot.AsyncConditionVariableThread
open Transition LinkedLists AsyncConditionVariable

/-- What a coroutine does to the variable. -/
inductive Op where
  | coAwait
  | reset
  | set
  | stop
  deriving DecidableEq

/-- What is under way on the thread. -/
inductive Frame where
  /-- a coroutine outside of co_await, with what it is still to do -/
  | body (rest : List Op)
  /-- a coroutine in the functions of its awaiter -/
  | awaiting (awaiter : Nat) (rest : List Op)
  | call (n : Nat)
  deriving DecidableEq

/-- What a set() does with an awaiter. -/
inductive Event where
  /-- the loads of coroutine_handle and next -/
  | read (n awaiter : Nat)
  | resume (n awaiter : Nat)
  deriving DecidableEq

def Event.awaiter : Event → Nat
  | .read _ a | .resume _ a => a

structure Thread where
  cv : AsyncConditionVariable.State Nat Nat
  /-- coroutine_handle: what the coroutine does once resumed -/
  handle : Nat → List Op
  stack : List Frame
  /-- numbers for the next awaiter and the next call -/
  awaiters : Nat
  calls : Nat
  /-- What the calls have done, and what each found at its exchange, for the statements only. -/
  events : List Event
  taken : Nat → List Nat

inductive Act where
  /-- a coroutine is started from outside -/
  | start (script : List Op)
  | go (spurious : Bool)

/-- The awaiters at m_awaiter_head. -/
def Thread.list (m : Thread) : List Nat := walk m.cv.next m.awaiters m.cv.m_awaiter_head

def Thread.access (m : Thread) (a : AsyncConditionVariable.Act Nat Nat) (after : Thread) :
    Option Thread :=
  (AsyncConditionVariable.step m.cv a).map fun cv => { after with cv := cv }

def body (m : Thread) (below : List Frame) : List Op → Option Thread
  | [] => some { m with stack := below }
  | .coAwait :: rest =>
    m.access (.coAwait m.awaiters) { m with
      handle := Function.update m.handle m.awaiters rest
      stack := .awaiting m.awaiters rest :: below
      awaiters := m.awaiters + 1 }
  | .reset :: rest => m.access .reset { m with stack := .body rest :: below }
  | .set :: rest => m.access (.set m.calls) { m with
      stack := .call m.calls :: .body rest :: below
      calls := m.calls + 1 }
  | .stop :: rest => m.access (.stop m.calls) { m with
      stack := .call m.calls :: .body rest :: below
      calls := m.calls + 1 }

/-- The awaiter is gone once await_resume has returned. -/
def awaiting (m : Thread) (below : List Frame) (spurious : Bool) (awaiter : Nat)
    (rest : List Op) : Option Thread :=
  match m.cv.pc awaiter with
  | .running => some { m with stack := .body rest :: below }
  | .suspended => some { m with stack := below }
  | _ => m.access (.go awaiter spurious) m

def call (m : Thread) (below : List Frame) (n : Nat) : Option Thread :=
  match m.cv.call n with
  | .idle => some { m with stack := below }
  | .exchange => m.access (.call n) { m with taken := Function.update m.taken n m.list }
  | .loop (some awaiter) => m.access (.call n) { m with
      stack := .awaiting awaiter (m.handle awaiter) :: m.stack
      events := m.events ++ [.read n awaiter, .resume n awaiter] }
  | _ => m.access (.call n) m

def step (m : Thread) : Act → Option Thread
  | .start script => if m.stack = [] then some { m with stack := [.body script] } else none
  | .go spurious =>
    match m.stack with
    | [] => none
    | .body rest :: below => body m below rest
    | .awaiting awaiter rest :: below => awaiting m below spurious awaiter rest
    | .call n :: below => call m below n

def initial (set : Bool) : Thread where
  cv := AsyncConditionVariable.initial set
  handle _ := []
  stack := []
  awaiters := 0
  calls := 0
  events := []
  taken _ := []

def system : System Thread Act where
  start m := ∃ set, m = initial set
  step := step

def directly (n : Nat) (events : List Event) : List Nat :=
  events.filterMap fun e => match e with
    | .resume k a => if k = n then some a else none
    | .read _ _ => none

/-- The steps of the thread, each with the step of the variable it makes. -/
inductive Moves (m : Thread) : Act → Thread → Prop where
  | start {script} (idle : m.stack = []) : Moves m (.start script) { m with stack := [.body script] }
  | quit {below spurious} (top : m.stack = .body [] :: below) :
    Moves m (.go spurious) { m with stack := below }
  | coAwait {rest below spurious cv} (top : m.stack = .body (.coAwait :: rest) :: below)
      (made : Steps m.cv (.coAwait m.awaiters) cv) :
    Moves m (.go spurious) { m with
      cv := cv
      handle := Function.update m.handle m.awaiters rest
      stack := .awaiting m.awaiters rest :: below
      awaiters := m.awaiters + 1 }
  | reset {rest below spurious cv} (top : m.stack = .body (.reset :: rest) :: below)
      (made : Steps m.cv .reset cv) :
    Moves m (.go spurious) { m with cv := cv, stack := .body rest :: below }
  | set {rest below spurious cv} (top : m.stack = .body (.set :: rest) :: below)
      (made : Steps m.cv (.set m.calls) cv) :
    Moves m (.go spurious) { m with
      cv := cv
      stack := .call m.calls :: .body rest :: below
      calls := m.calls + 1 }
  | stop {rest below spurious cv} (top : m.stack = .body (.stop :: rest) :: below)
      (made : Steps m.cv (.stop m.calls) cv) :
    Moves m (.go spurious) { m with
      cv := cv
      stack := .call m.calls :: .body rest :: below
      calls := m.calls + 1 }
  | awake {a rest below spurious} (top : m.stack = .awaiting a rest :: below)
      (at_pc : m.cv.pc a = .running) :
    Moves m (.go spurious) { m with stack := .body rest :: below }
  | away {a rest below spurious} (top : m.stack = .awaiting a rest :: below)
      (at_pc : m.cv.pc a = .suspended) : Moves m (.go spurious) { m with stack := below }
  | awaiting {a rest below spurious cv} (top : m.stack = .awaiting a rest :: below)
      (made : AsyncConditionVariable.step m.cv (.go a spurious) = some cv) :
    Moves m (.go spurious) { m with cv := cv }
  | leave {n below spurious} (top : m.stack = .call n :: below) (at_call : m.cv.call n = .idle) :
    Moves m (.go spurious) { m with stack := below }
  | exchange {n below spurious} (top : m.stack = .call n :: below)
      (at_call : m.cv.call n = .exchange) :
    Moves m (.go spurious) { m with
      cv := { m.cv with m_awaiter_head := none }.setCall n (.loop m.cv.m_awaiter_head)
      taken := Function.update m.taken n m.list }
  | wake {n a below spurious} (top : m.stack = .call n :: below)
      (at_call : m.cv.call n = .loop (some a)) (waits : m.cv.pc a = .suspended) :
    Moves m (.go spurious) { m with
      cv := (m.cv.setCall n (.loop (m.cv.next a))).goto a .awaitResume
      stack := .awaiting a (m.handle a) :: m.stack
      events := m.events ++ [.read n a, .resume n a] }
  | finish {n below spurious} (top : m.stack = .call n :: below)
      (at_call : m.cv.call n = .loop none) :
    Moves m (.go spurious) { m with cv := m.cv.setCall n .idle }
  | drop {n below spurious} (top : m.stack = .call n :: below) (at_call : m.cv.call n = .drop) :
    Moves m (.go spurious) { m with cv := { m.cv with m_awaiter_head := none }.setCall n .idle }

theorem access_cases {m after t : Thread} {a : AsyncConditionVariable.Act Nat Nat}
    (taken : m.access a after = some t) : ∃ cv, Steps m.cv a cv ∧ t = { after with cv := cv } := by
  obtain ⟨cv, made, rfl⟩ := Option.map_eq_some_iff.mp taken
  exact ⟨cv, AsyncConditionVariable.step_cases made, rfl⟩

theorem body_cases {m t : Thread} {below : List Frame} {script : List Op} {spurious : Bool}
    (top : m.stack = .body script :: below) (taken : body m below script = some t) :
    Moves m (.go spurious) t := by
  cases script with
  | nil => cases taken; exact .quit top
  | cons op rest =>
    cases op with
    | coAwait => obtain ⟨cv, made, rfl⟩ := access_cases taken; exact .coAwait top made
    | reset => obtain ⟨cv, made, rfl⟩ := access_cases taken; exact .reset top made
    | set => obtain ⟨cv, made, rfl⟩ := access_cases taken; exact .set top made
    | stop => obtain ⟨cv, made, rfl⟩ := access_cases taken; exact .stop top made

theorem call_cases {m t : Thread} {below : List Frame} {n : Nat} {spurious : Bool}
    (top : m.stack = .call n :: below) (taken : call m below n = some t) :
    Moves m (.go spurious) t := by
  unfold call at taken
  cases at_call : m.cv.call n with
  | idle => rw [at_call] at taken; cases taken; exact .leave top at_call
  | exchange =>
    simp only [at_call, Thread.access, AsyncConditionVariable.step, callStep] at taken
    cases taken
    exact .exchange top at_call
  | drop =>
    simp only [at_call, Thread.access, AsyncConditionVariable.step, callStep] at taken
    cases taken
    exact .drop top at_call
  | loop head =>
    cases head with
    | none =>
      simp only [at_call, Thread.access, AsyncConditionVariable.step, callStep] at taken
      cases taken
      exact .finish top at_call
    | some a =>
      simp only [at_call, Thread.access, AsyncConditionVariable.step, callStep] at taken
      cases at_pc : m.cv.pc a with
      | suspended => rw [at_pc] at taken; cases taken; exact .wake top at_call at_pc
      | running | loadHead | compareExchange | awaitResume => rw [at_pc] at taken; cases taken

theorem step_cases {m t : Thread} {a : Act} (taken : step m a = some t) : Moves m a t := by
  cases a with
  | start script =>
    simp only [step] at taken
    split at taken <;> cases taken
    exact .start ‹_›
  | go spurious =>
    simp only [step] at taken
    split at taken
    · cases taken
    · exact body_cases ‹_› taken
    · rename_i a rest below top
      unfold awaiting at taken
      split at taken
      · cases taken; exact .awake top ‹_›
      · cases taken; exact .away top ‹_›
      · obtain ⟨cv, made, rfl⟩ := Option.map_eq_some_iff.mp taken
        exact .awaiting top made
    · exact call_cases ‹_› taken

end Pot.AsyncConditionVariableThread
