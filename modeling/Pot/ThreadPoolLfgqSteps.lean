import Pot.LfqueueModuleCalls
import Pot.ThreadPoolLfgq

/-! The steps of the executor, one constructor for each thing a thread can do. -/
namespace Pot.ThreadPoolLfgq
open Transition
open LfqueueModule (Pc Answer)

variable {Wid Sid : Type} [DecidableEq Wid] [DecidableEq Sid]

def State.goto (s : State Wid Sid) (x : Wid ⊕ Sid) (p : Pc Sid) : State Wid Sid :=
  { s with queue := s.queue.goto x p }

inductive Moves (size : Nat) (s : State Wid Sid) : Act Wid Sid → State Wid Sid → Prop where
  | executeOut {i} (fresh : s.call i = .none) (rest : (s.queue.pc (.inr i)).resting = true) :
      Moves size s (.execute i none)
        ((s.setCall i (.busy none)).goto (.inr i) (.pushLoadPos i))
  | executeIn {i w task} (fresh : s.call i = .none) (running : s.worker w = .run task none)
      (rest : (s.queue.pc (.inr i)).resting = true) :
      Moves size s (.execute i (some w))
        (((s.setCall i (.busy (some w))).setWorker w (.run task (some i))).goto (.inr i)
          (.pushLoadPos i))
  | again {i caller} (busy : s.call i = .busy caller)
      (answer : s.queue.pc (.inr i) = .returned (.pushed false)) :
      Moves size s (.blocking i) (s.goto (.inr i) (.pushLoadPos i))
  | returnOut {i} (busy : s.call i = .busy none)
      (answer : s.queue.pc (.inr i) = .returned (.pushed true)) :
      Moves size s (.blocking i) (s.setCall i .returned)
  | returnIn {i w task j} (busy : s.call i = .busy (some w))
      (answer : s.queue.pc (.inr i) = .returned (.pushed true))
      (running : s.worker w = .run task (some j)) :
      Moves size s (.blocking i) ((s.setCall i .returned).setWorker w (.run task none))
  | queue {x spurious queue}
      (stepped : LfqueueModule.step size s.queue (x, .go spurious) = some queue) :
      Moves size s (.queue x spurious) { s with queue := queue }
  | check {w epos_first} (at_loop : s.worker w = .loop) (flag : s.shutdown_flag = true)
      (rest : (s.queue.pc (.inl w)).resting = true) :
      Moves size s (.worker w epos_first)
        ((s.setWorker w .empty).goto (.inl w) (LfqueueModule.Call.is_empty epos_first).first)
  | leave {w epos_first} (at_empty : s.worker w = .empty)
      (answer : s.queue.pc (.inl w) = .returned (.empty true)) :
      Moves size s (.worker w epos_first) (s.setWorker w .left)
  | poll {w epos_first} (at_poll : s.worker w = .loop ∨ s.worker w = .empty)
      (rest : (s.queue.pc (.inl w)).resting = true) :
      Moves size s (.worker w epos_first) ((s.setWorker w .pop).goto (.inl w) .popLoadPos)
  | took {w epos_first pos task} (at_pop : s.worker w = .pop)
      (answer : s.queue.pc (.inl w) = .returned (.popped pos (some task))) :
      Moves size s (.worker w epos_first) (s.setWorker w (.run task none))
  | missed {w epos_first} (at_pop : s.worker w = .pop)
      (answer : s.queue.pc (.inl w) = .returned .nothing) :
      Moves size s (.worker w epos_first) (s.setWorker w .loop)
  | finish {w epos_first task} (running : s.worker w = .run task none) :
      Moves size s (.worker w epos_first)
        ({ s with executed := s.executed ++ [task] }.setWorker w .loop)
  | shutdown : Moves size s .shutdown { s with shutdown_flag := true }

theorem enter_iff {size : Nat} {s t : State Wid Sid} {x : Wid ⊕ Sid} {c : LfqueueModule.Call Sid} :
    s.enter size x c = some t ↔ (s.queue.pc x).resting = true ∧ s.goto x c.first = t := by
  unfold State.enter State.goto
  constructor
  · intro entered
    obtain ⟨queue, called, rfl⟩ := Option.map_eq_some_iff.mp entered
    obtain ⟨rest, rfl⟩ := LfqueueModule.call_iff.mp called
    exact ⟨rest, rfl⟩
  · rintro ⟨rest, rfl⟩
    rw [LfqueueModule.call_iff.mpr ⟨rest, rfl⟩, Option.map_some]

theorem worker_cases {size : Nat} {s t : State Wid Sid} {w : Wid} {epos_first : Bool}
    (taken : workerStep size s w epos_first (s.worker w) = some t) :
    Moves size s (.worker w epos_first) t := by
  cases hw : s.worker w with
  | loop =>
    rw [hw] at taken
    simp only [workerStep] at taken
    split at taken
    · obtain ⟨rest, rfl⟩ := enter_iff.mp taken
      exact .check hw ‹_› rest
    · obtain ⟨rest, rfl⟩ := enter_iff.mp taken
      exact .poll (.inl hw) rest
  | empty =>
    rw [hw] at taken
    simp only [workerStep] at taken
    split at taken
    · cases taken
      exact .leave hw ‹_›
    · obtain ⟨rest, rfl⟩ := enter_iff.mp taken
      exact .poll (.inr hw) rest
    · cases taken
  | pop =>
    rw [hw] at taken
    simp only [workerStep] at taken
    split at taken
    · cases taken
      exact .took hw ‹_›
    · cases taken
      exact .missed hw ‹_›
    · cases taken
  | run task calling =>
    rw [hw] at taken
    cases calling with
    | none => cases taken; exact .finish hw
    | some j => cases taken
  | left => rw [hw] at taken; cases taken

theorem step_cases {size : Nat} {s t : State Wid Sid} {a : Act Wid Sid}
    (taken : step size s a = some t) : Moves size s a t := by
  cases a with
  | execute i caller =>
    simp only [step] at taken
    split at taken
    · obtain ⟨rest, rfl⟩ := enter_iff.mp taken
      exact .executeOut ‹_› rest
    · split at taken
      · obtain ⟨rest, rfl⟩ := enter_iff.mp taken
        exact .executeIn ‹_› ‹_› rest
      · cases taken
    · cases taken
  | blocking i =>
    simp only [step] at taken
    split at taken
    · obtain ⟨-, rfl⟩ := enter_iff.mp taken
      exact .again ‹_› ‹_›
    · cases taken
      exact .returnOut ‹_› ‹_›
    · split at taken
      · cases taken
        exact .returnIn ‹_› ‹_› ‹_›
      · cases taken
    · cases taken
  | queue x spurious =>
    obtain ⟨queue, stepped, rfl⟩ := Option.map_eq_some_iff.mp taken
    exact .queue stepped
  | worker w epos_first => exact worker_cases taken
  | shutdown => cases taken; exact .shutdown

end Pot.ThreadPoolLfgq
