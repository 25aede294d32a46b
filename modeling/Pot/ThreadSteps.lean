import Pot.Thread

/-! The steps of both kinds of thread, each with what it finds and what it does. -/
namespace Pot.Thread
open Transition

variable {Sid : Type} [DecidableEq Sid]

inductive Steps (s : State Sid) : Act Sid → State Sid → Prop where
  | run {i} (at_pc : s.call i = .idle) : Steps s (.run i) (s.setCall i .lock)
  | runInTask {i task} (busy : s.worker = .run task) (at_pc : s.call i = .idle)
    (idle : task.idle (fun i => s.call i = .returned) = true) :
    Steps s (.runInTask i) ((s.goto (.run ⟨task.function, some i⟩)).setCall i .lock)
  | lock {i} (at_pc : s.call i = .lock) (free : s.m_mutex = none) :
    Steps s (.call i) ({ s with m_mutex := some (.caller i) }.setCall i .emplace)
  | emplace {i} (at_pc : s.call i = .emplace) : Steps s (.call i) ({ s with
      m_queue := s.m_queue ++ [i], enqueued := s.enqueued ++ [i] }.setCall i .unlock)
  | unlock {i} (at_pc : s.call i = .unlock) :
    Steps s (.call i) ({ s with m_mutex := none }.setCall i .notifyOne)
  | notifyOne {i} (at_pc : s.call i = .notifyOne) :
    Steps s (.call i) ((s.goto s.worker.unblock).setCall i .returned)
  | stopped (at_pc : s.worker = .check) (stop : s.stop_requested = true) :
    Steps s .worker (s.goto .returned)
  | loop (at_pc : s.worker = .check) (stop : s.stop_requested = false) :
    Steps s .worker (s.goto .lock)
  | acquire (at_pc : s.worker = .lock ∨ s.worker = .relock) (free : s.m_mutex = none) :
    Steps s .worker ({ s with m_mutex := some .worker }.goto .predicate)
  | holds (at_pc : s.worker = .predicate) (some : s.stop_requested = true ∨ s.m_queue ≠ []) :
    Steps s .worker (s.goto .take)
  | fails (at_pc : s.worker = .predicate) (stop : s.stop_requested = false)
    (queue : s.m_queue = []) : Steps s .worker (s.goto .block)
  | block (at_pc : s.worker = .block) :
    Steps s .worker ({ s with m_mutex := none }.goto .blocked)
  | take {task rest} (at_pc : s.worker = .take) (queue : s.m_queue = task :: rest) :
    Steps s .worker ({ s with m_queue := rest }.goto (.unlock (some task)))
  | drained (at_pc : s.worker = .take) (queue : s.m_queue = []) (stop : s.stop_requested = true) :
    Steps s .worker (s.goto .leave)
  | nothing (at_pc : s.worker = .take) (queue : s.m_queue = [])
    (stop : s.stop_requested = false) : Steps s .worker (s.goto (.unlock none))
  | start {task} (at_pc : s.worker = .unlock (some task)) :
    Steps s .worker ({ s with m_mutex := none }.goto (.run ⟨task, none⟩))
  | again (at_pc : s.worker = .unlock none) :
    Steps s .worker ({ s with m_mutex := none }.goto .check)
  | finish {task} (at_pc : s.worker = .run task)
    (idle : task.idle (fun i => s.call i = .returned) = true) :
    Steps s .worker ({ s with executed := s.executed ++ [task.function] }.goto .check)
  | leave (at_pc : s.worker = .leave) :
    Steps s .worker ({ s with m_mutex := none }.goto .returned)
  | wake (at_pc : s.worker = .blocked) : Steps s .wake (s.goto .relock)
  | join (at_pc : s.join = .idle) : Steps s .join
      { s with join := .requestStop, before := fun i => s.call i = .returned }
  | requestStop (at_pc : s.join = .requestStop) : Steps s .stop { s with
      stop_requested := true, join := .notifyAll, atStop := some (s.worker, s.m_queue) }
  | notifyAll (at_pc : s.join = .notifyAll) :
    Steps s .stop ({ s with join := .join }.goto s.worker.unblock)
  | joined (at_pc : s.join = .join) (left : s.worker = .returned) :
    Steps s .stop { s with join := .returned }

theorem step_cases {s t : State Sid} {a : Act Sid} (taken : step s a = some t) : Steps s a t := by
  cases a with
  | run i =>
    simp only [step] at taken
    split at taken <;> cases taken
    exact .run ‹_›
  | runInTask i =>
    simp only [step] at taken
    split at taken
    · split at taken <;> cases taken
      exact .runInTask ‹_› ‹_› ‹_›
    · cases taken
  | call i =>
    simp only [step] at taken
    cases hcall : s.call i with
    | lock =>
      rw [hcall] at taken
      simp only [callStep] at taken
      split at taken <;> cases taken
      exact .lock hcall ‹_›
    | emplace => rw [hcall] at taken; cases taken; exact .emplace hcall
    | unlock => rw [hcall] at taken; cases taken; exact .unlock hcall
    | notifyOne => rw [hcall] at taken; cases taken; exact .notifyOne hcall
    | idle | returned => rw [hcall] at taken; cases taken
  | worker =>
    unfold step at taken
    cases hw : s.worker with
    | check =>
      rw [hw] at taken
      cases taken
      split
      · exact .stopped hw ‹_›
      · exact .loop hw (Bool.not_eq_true _ ▸ ‹_›)
    | lock =>
      rw [hw] at taken
      simp only [workerStep] at taken
      split at taken <;> cases taken
      exact .acquire (.inl hw) ‹_›
    | relock =>
      rw [hw] at taken
      simp only [workerStep] at taken
      split at taken <;> cases taken
      exact .acquire (.inr hw) ‹_›
    | predicate =>
      rw [hw] at taken
      cases taken
      split
      · rename_i some
        refine .holds hw ?_
        rwa [Bool.or_eq_true, Bool.not_eq_true', List.isEmpty_eq_false_iff] at some
      · rename_i none
        rw [Bool.or_eq_true, not_or, Bool.not_eq_true, Bool.not_eq_true', List.isEmpty_eq_false_iff,
          Decidable.not_not] at none
        exact .fails hw none.1 none.2
    | block => rw [hw] at taken; cases taken; exact .block hw
    | take =>
      rw [hw] at taken
      simp only [workerStep] at taken
      split at taken <;> cases taken
      · exact .take hw ‹_›
      · split
        · exact .drained hw ‹_› ‹_›
        · exact .nothing hw ‹_› (Bool.not_eq_true _ ▸ ‹_›)
    | unlock task =>
      rw [hw] at taken
      cases task with
      | none => cases taken; exact .again hw
      | some task => cases taken; exact .start hw
    | run task =>
      rw [hw] at taken
      simp only [workerStep] at taken
      split at taken <;> cases taken
      exact .finish hw ‹_›
    | leave => rw [hw] at taken; cases taken; exact .leave hw
    | blocked | returned => rw [hw] at taken; cases taken
  | wake =>
    simp only [step] at taken
    split at taken <;> cases taken
    exact .wake ‹_›
  | join =>
    simp only [step] at taken
    split at taken <;> cases taken
    exact .join ‹_›
  | stop =>
    unfold step at taken
    cases hjoin : s.join with
    | requestStop => rw [hjoin] at taken; cases taken; exact .requestStop hjoin
    | notifyAll => rw [hjoin] at taken; cases taken; exact .notifyAll hjoin
    | join =>
      rw [hjoin] at taken
      simp only [stopStep] at taken
      split at taken <;> cases taken
      exact .joined hjoin ‹_›
    | idle | returned => rw [hjoin] at taken; cases taken

end Pot.Thread

namespace Pot.ThreadLf
open Transition
open TicketQueue (Ticket)
open Thread (Act)

variable {Sid : Type} [DecidableEq Sid]

inductive Steps (s : State Sid) : Act Sid → State Sid → Prop where
  | run {i} (at_pc : s.call i = .idle) : Steps s (.run i) (s.setCall i .claim)
  | runInTask {i task} (busy : s.worker = .run task) (at_pc : s.call i = .idle)
    (idle : task.idle (fun i => s.call i = .returned) = true) :
    Steps s (.runInTask i) ((s.goto (.run ⟨task.function, some i⟩)).setCall i .claim)
  | claim {i} (at_pc : s.call i = .claim) (room : s.m_queue.length < Lfqueue.capacity) :
    Steps s (.call i) ({ s with m_queue := s.m_queue ++ [Ticket.mk i false],
                                enqueued := s.enqueued ++ [i] }.setCall i .publish)
  | full {i} (at_pc : s.call i = .claim) (full : Lfqueue.capacity ≤ s.m_queue.length) :
    Steps s (.call i) s
  | publish {i} (at_pc : s.call i = .publish) :
    Steps s (.call i) ({ s with m_queue := publish s.m_queue i }.setCall i .storeTrue)
  | storeTrue {i} (at_pc : s.call i = .storeTrue) :
    Steps s (.call i) ({ s with m_has_work := true }.setCall i .notifyOne)
  | notifyOne {i} (at_pc : s.call i = .notifyOne) :
    Steps s (.call i) ((s.goto s.worker.unblock).setCall i .returned)
  | pop {task rest} (at_pc : s.worker = .pop) (took : TicketQueue.take s.m_queue = some (task, rest)) :
    Steps s .worker ({ s with m_queue := rest }.goto (.run ⟨task.value, none⟩))
  | popNone (at_pc : s.worker = .pop) (none : TicketQueue.take s.m_queue = none) :
    Steps s .worker (s.goto .checkStop)
  | stopped (at_pc : s.worker = .checkStop) (stop : s.stop_requested = true) :
    Steps s .worker (s.goto .returned)
  | loop (at_pc : s.worker = .checkStop) (stop : s.stop_requested = false) :
    Steps s .worker (s.goto .storeFalse)
  | storeFalse (at_pc : s.worker = .storeFalse) :
    Steps s .worker ({ s with m_has_work := false }.goto .popAgain)
  | popAgain {task rest} (at_pc : s.worker = .popAgain)
    (took : TicketQueue.take s.m_queue = some (task, rest)) :
    Steps s .worker ({ s with m_queue := rest }.goto (.storeTrue task.value))
  | popAgainNone (at_pc : s.worker = .popAgain) (none : TicketQueue.take s.m_queue = none) :
    Steps s .worker (s.goto .wait)
  | start {task} (at_pc : s.worker = .storeTrue task) :
    Steps s .worker ({ s with m_has_work := true }.goto (.run ⟨task, none⟩))
  | finish {task} (at_pc : s.worker = .run task)
    (idle : task.idle (fun i => s.call i = .returned) = true) :
    Steps s .worker ({ s with executed := s.executed ++ [task.function] }.goto .pop)
  | work (at_pc : s.worker = .wait) (work : s.m_has_work = true) : Steps s .worker (s.goto .pop)
  | block (at_pc : s.worker = .wait) (work : s.m_has_work = false) :
    Steps s .worker (s.goto .blocked)
  | wake (at_pc : s.worker = .blocked) : Steps s .wake (s.goto .wait)
  | join (at_pc : s.join = .idle) : Steps s .join
      { s with join := .requestStop, before := fun i => s.call i = .returned }
  | requestStop (at_pc : s.join = .requestStop) :
    Steps s .stop { s with stop_requested := true, join := .storeTrue }
  | stopTrue (at_pc : s.join = .storeTrue) :
    Steps s .stop { s with m_has_work := true, join := .notifyAll }
  | notifyAll (at_pc : s.join = .notifyAll) :
    Steps s .stop ({ s with join := .join }.goto s.worker.unblock)
  | joined (at_pc : s.join = .join) (left : s.worker = .returned) :
    Steps s .stop { s with join := .returned }

theorem step_cases {s t : State Sid} {a : Act Sid} (taken : step s a = some t) : Steps s a t := by
  cases a with
  | run i =>
    simp only [step] at taken
    split at taken <;> cases taken
    exact .run ‹_›
  | runInTask i =>
    simp only [step] at taken
    split at taken
    · split at taken <;> cases taken
      exact .runInTask ‹_› ‹_› ‹_›
    · cases taken
  | call i =>
    simp only [step] at taken
    cases hcall : s.call i with
    | claim =>
      rw [hcall] at taken
      simp only [callStep] at taken
      split at taken <;> cases taken
      · exact .claim hcall ‹_›
      · exact .full hcall (Nat.le_of_not_lt ‹_›)
    | publish => rw [hcall] at taken; cases taken; exact .publish hcall
    | storeTrue => rw [hcall] at taken; cases taken; exact .storeTrue hcall
    | notifyOne => rw [hcall] at taken; cases taken; exact .notifyOne hcall
    | idle | returned => rw [hcall] at taken; cases taken
  | worker =>
    unfold step at taken
    cases hw : s.worker with
    | pop =>
      rw [hw] at taken
      simp only [workerStep] at taken
      split at taken <;> cases taken
      · exact .pop hw ‹_›
      · exact .popNone hw ‹_›
    | checkStop =>
      rw [hw] at taken
      cases taken
      split
      · exact .stopped hw ‹_›
      · exact .loop hw (Bool.not_eq_true _ ▸ ‹_›)
    | storeFalse => rw [hw] at taken; cases taken; exact .storeFalse hw
    | popAgain =>
      rw [hw] at taken
      simp only [workerStep] at taken
      split at taken <;> cases taken
      · exact .popAgain hw ‹_›
      · exact .popAgainNone hw ‹_›
    | storeTrue task => rw [hw] at taken; cases taken; exact .start hw
    | run task =>
      rw [hw] at taken
      simp only [workerStep] at taken
      split at taken <;> cases taken
      exact .finish hw ‹_›
    | wait =>
      rw [hw] at taken
      cases taken
      split
      · exact .work hw ‹_›
      · exact .block hw (Bool.not_eq_true _ ▸ ‹_›)
    | blocked | returned => rw [hw] at taken; cases taken
  | wake =>
    simp only [step] at taken
    split at taken <;> cases taken
    exact .wake ‹_›
  | join =>
    simp only [step] at taken
    split at taken <;> cases taken
    exact .join ‹_›
  | stop =>
    unfold step at taken
    cases hjoin : s.join with
    | requestStop => rw [hjoin] at taken; cases taken; exact .requestStop hjoin
    | storeTrue => rw [hjoin] at taken; cases taken; exact .stopTrue hjoin
    | notifyAll => rw [hjoin] at taken; cases taken; exact .notifyAll hjoin
    | join =>
      rw [hjoin] at taken
      simp only [stopStep] at taken
      split at taken <;> cases taken
      exact .joined hjoin ‹_›
    | idle | returned => rw [hjoin] at taken; cases taken

end Pot.ThreadLf
