import Mathlib.Data.Fintype.Card
import Pot.Executors
import Pot.ThreadDrain
import Pot.ThreadLfDrain
import Pot.ThreadStop

/-! What the pools rely on in a thread with one function: whether its worker still comes to the
function once it has been asked to stop is decided when the stop flag is set. -/
namespace Pot.Executors
open Transition

structure ThreadClass.Laws (cls : ThreadClass) where
  /-- The worker has come to the function. -/
  entered : cls.State → Prop
  /-- The stop flag is set. -/
  asked : cls.State → Prop
  /-- The worker comes to the function before it leaves. -/
  safe : cls.State → Prop
  /-- The worker leaves, or has left, without it. -/
  gone : cls.State → Prop
  fresh : ¬ entered cls.initial ∧ ¬ asked cls.initial ∧ cls.running cls.initial = false
  entered_step {s t a} : cls.step s a = some t → entered t → entered s ∨ cls.running t = true
  running_step {s t a} : cls.step s a = some t → a ≠ .worker → cls.running t = cls.running s
  ran_step {s t a} : cls.step s a = some t → cls.ran s = true → cls.ran t = true
  asked_step {s t a} : cls.step s a = some t → asked t → asked s ∨ a = .stop ∧ cls.stopping s = true
  joined_step {s t a} : cls.step s a = some t → cls.joined s = true → cls.joined t = true
  joined_idle {s} : Reached cls.system s → cls.joined s = true → asked s ∧ cls.running s = false
  safe_stop {s t} : Reached cls.system s → cls.ran s = true → cls.late s = false →
    cls.stopping s = true → cls.step s .stop = some t → safe t
  safe_step {s t a} : Reached cls.system s → cls.ran s = true → safe s → cls.step s a = some t →
    safe t
  safe_joined {s} : Reached cls.system s → cls.ran s = true → safe s → cls.joined s = true →
    entered s
  stopping_join {s} : cls.stopping s = true → cls.step s .join = none
  gone_stop {s t} : cls.late s = true → cls.stopping s = true → cls.step s .stop = some t → gone t
  gone_step {s t a} : gone s → cls.step s a = some t → gone t
  gone_idle {s} : gone s → cls.running s = false

end Pot.Executors

namespace Pot.Thread
open Transition

def Justified (s : State Unit) : Worker Unit → Prop
  | .take => s.stop_requested = true ∨ s.m_queue ≠ []
  | .unlock none => False
  | .leave | .returned => s.stop_requested = true
  | _ => True

theorem Justified.mono {s t : State Unit} {w : Worker Unit} (h : Justified s w)
    (flag : s.stop_requested = true → t.stop_requested = true)
    (queue : s.m_queue ≠ [] → t.m_queue ≠ []) : Justified t w := by
  cases w with
  | take => exact h.imp flag queue
  | leave | returned => exact flag h
  | unlock task => cases task <;> exact h
  | _ => trivial

theorem Justified.unblock {s t : State Unit} (h : Justified s s.worker)
    (flag : s.stop_requested = true → t.stop_requested = true)
    (queue : s.m_queue ≠ [] → t.m_queue ≠ []) : Justified t s.worker.unblock := by
  cases hw : s.worker with
  | blocked => trivial
  | _ => rw [hw] at h; exact h.mono flag queue

theorem step_justified {s t : State Unit} {a : Act Unit} (h : Justified s s.worker)
    (taken : step s a = some t) : Justified t t.worker := by
  cases step_cases taken with
  | run | lock | unlock | join | joined => exact h.mono id id
  | emplace => exact h.mono id fun _ => by simp [State.setCall]
  | requestStop => exact h.mono (fun _ => rfl) id
  | notifyOne | notifyAll => exact h.unblock id id
  | stopped _ stop | drained _ _ stop => exact stop
  | holds _ some => exact some
  | nothing at_pc queue stop =>
    rw [at_pc] at h
    rcases h with on | some
    · cases stop.symm.trans on
    · exact absurd queue some
  | leave at_pc =>
    rw [at_pc] at h
    exact h
  | _ => trivial

theorem reached_justified {s : State Unit} (reached : Reached (system Unit) s) :
    Justified s s.worker :=
  Reached.invariant (I := fun s => Justified s s.worker)
    (fun s eq => by cases (eq : s = initial); trivial)
    (fun _ _ _ h taken => step_justified h taken) reached

theorem Ledger.single {s : State Unit} (h : Ledger s) :
    s.executed.length + s.worker.hand.length + s.m_queue.length ≤ 1 := by
  have short := List.Nodup.length_le_card h.once
  rwa [h.order, List.length_append, List.length_append, Fintype.card_unit] at short

theorem Ledger.mine {s : State Unit} (h : Ledger s) {i : Unit} {rest : List Unit}
    (queue : s.m_queue = i :: rest) : rest = [] := by
  have short := h.single
  rw [queue, List.length_cons] at short
  exact List.length_eq_zero_iff.mp (by omega)

@[simp] theorem unblock_running (w : Worker Unit) : w.unblock.running = w.running := by cases w <;> rfl

theorem running_step {s t : State Unit} {a : Act Unit} (taken : step s a = some t)
    (other : a ≠ .worker) : t.worker.running = s.worker.running := by
  cases step_cases taken with
  | run | lock | emplace | unlock | join | requestStop | joined => rfl
  | runInTask busy => simp [State.setCall, State.goto, busy, Worker.running]
  | notifyOne | notifyAll => exact unblock_running _
  | wake at_pc => simp [State.goto, at_pc, Worker.running]
  | _ => exact absurd rfl other

theorem executed_step {s t : State Unit} {a : Act Unit} (taken : step s a = some t) :
    t.executed = s.executed ∨ s.worker.running = true := by
  cases step_cases taken with
  | finish at_pc => exact .inr (by rw [at_pc]; rfl)
  | _ => exact .inl rfl

theorem ran_step {s t : State Unit} {a : Act Unit} (taken : step s a = some t)
    (ran : s.call () = .returned) : t.call () = .returned := by
  cases step_cases taken with
  | run at_pc | runInTask _ at_pc | lock at_pc | emplace at_pc | unlock at_pc | notifyOne at_pc =>
    cases at_pc.symm.trans ran
  | _ => exact ran

theorem asked_step {s t : State Unit} {a : Act Unit} (taken : step s a = some t)
    (asked : t.stop_requested = true) :
    s.stop_requested = true ∨ a = .stop ∧ s.join = .requestStop := by
  cases step_cases taken with
  | requestStop at_pc => exact .inr ⟨rfl, at_pc⟩
  | _ => exact .inl asked

theorem joined_step {s t : State Unit} {a : Act Unit} (taken : step s a = some t)
    (joined : s.join = .returned) : t.join = .returned := by
  cases step_cases taken with
  | join at_pc | requestStop at_pc | notifyAll at_pc | joined at_pc => cases at_pc.symm.trans joined
  | _ => exact joined

/-- Before the flag is set, a worker that is neither at its while test nor on its way to the
queue has the function already. -/
theorem takes_or_empty {s : State Unit} (ledger : Ledger s) (justified : Justified s s.worker)
    (stop : s.stop_requested = false) (on_time : s.worker.checking = false ∨ s.m_queue = []) :
    s.m_queue = [] ∨ s.worker.takes = 1 := by
  rcases on_time with off | empty
  · have short := ledger.single
    cases hw : s.worker with
    | check => rw [hw] at off; cases off
    | unlock task =>
      cases task with
      | none => rw [hw] at justified; cases justified
      | some task =>
        rw [hw] at short
        exact .inl (List.length_eq_zero_iff.mp (by simp [Worker.hand] at short; omega))
    | run task =>
      rw [hw] at short
      exact .inl (List.length_eq_zero_iff.mp (by simp [Worker.hand] at short; omega))
    | leave | returned => rw [hw] at justified; cases stop.symm.trans justified
    | _ => exact .inr rfl
  · exact .inl empty

theorem safe_step {s t : State Unit} {a : Act Unit} (ledger : Ledger s)
    (ran : s.call () = .returned) (safe : s.m_queue = [] ∨ s.worker.takes = 1)
    (taken : step s a = some t) : t.m_queue = [] ∨ t.worker.takes = 1 := by
  cases step_cases taken with
  | emplace at_pc | runInTask _ at_pc => cases at_pc.symm.trans ran
  | take _ queue => exact .inl (ledger.mine queue)
  | notifyOne | notifyAll => exact safe.imp_right (unblock_takes _).trans
  | acquire | loop | holds | fails | block | wake => exact .inr rfl
  | drained _ queue | nothing _ queue => exact .inl queue
  | stopped at_pc | start at_pc | again at_pc | finish at_pc | leave at_pc =>
    exact .inl (safe.resolve_right (by simp [at_pc, Worker.takes]))
  | _ => exact safe

theorem safe_joined {s : State Unit} (ledger : Ledger s) (left : s.worker = .returned)
    (ran : s.call () = .returned) (safe : s.m_queue = [] ∨ s.worker.takes = 1) :
    s.executed ≠ [] := by
  have empty : s.m_queue = [] := safe.resolve_right (by simp [left, Worker.takes])
  have enqueued := (ledger.enqueued ()).mpr (by rw [ran]; rfl)
  rw [ledger.order, left, empty] at enqueued
  intro none
  simp [none, Worker.hand] at enqueued

theorem gone_step {s t : State Unit} {a : Act Unit}
    (gone : s.stop_requested = true ∧ (s.worker = .check ∨ s.worker = .returned))
    (taken : step s a = some t) :
    t.stop_requested = true ∧ (t.worker = .check ∨ t.worker = .returned) := by
  obtain ⟨stop, at_pc⟩ := gone
  cases step_cases taken with
  | run | lock | emplace | unlock | join | joined => exact ⟨stop, at_pc⟩
  | requestStop => exact ⟨rfl, at_pc⟩
  | stopped => exact ⟨stop, .inr rfl⟩
  | notifyOne | notifyAll =>
    refine ⟨stop, ?_⟩
    rcases at_pc with at_pc | at_pc <;> simp [State.goto, State.setCall, at_pc, Worker.unblock]
  | loop _ off => cases off.symm.trans stop
  | acquire other => rcases at_pc with at_pc | at_pc <;> rw [at_pc] at other <;> simp at other
  | runInTask other | holds other | fails other | block other | take other | drained other
  | nothing other | start other | again other | finish other | leave other | wake other =>
    rw [other] at at_pc
    simp at at_pc

theorem safe_stop {s t : State Unit} (reached : Reached (system Unit) s)
    (ran : s.call () = .returned) (late : (s.worker.checking && !s.m_queue.isEmpty) = false)
    (stopping : s.join = .requestStop) (taken : step s .stop = some t) :
    t.m_queue = [] ∨ t.worker.takes = 1 := by
  have ledger := (reached_stopped reached).1
  have stop : s.stop_requested = false := by
    by_contra on
    exact ((reached_flag reached).mp (Bool.not_eq_false _ ▸ on)).2 stopping
  rw [Bool.and_eq_false_iff, Bool.not_eq_false', List.isEmpty_iff] at late
  exact safe_step ledger ran (takes_or_empty ledger (reached_justified reached) stop late) taken

theorem checking_iff {w : Worker Unit} : w.checking = true ↔ w = .check := by
  cases w <;> simp [Worker.checking]

theorem gone_stop {s t : State Unit} (late : (s.worker.checking && !s.m_queue.isEmpty) = true)
    (stopping : s.join = .requestStop) (taken : step s .stop = some t) :
    t.stop_requested = true ∧ (t.worker = .check ∨ t.worker = .returned) := by
  rw [Bool.and_eq_true, checking_iff] at late
  rw [step, stopping] at taken
  cases taken
  exact ⟨rfl, .inl late.1⟩

theorem stopping_join {s : State Unit} (stopping : s.join = .requestStop) : step s .join = none := by
  rw [step, stopping]

theorem gone_idle {s : State Unit}
    (gone : s.stop_requested = true ∧ (s.worker = .check ∨ s.worker = .returned)) :
    s.worker.running = false := by
  rcases gone.2 with at_pc | at_pc <;> rw [at_pc] <;> rfl

theorem joined_idle {s : State Unit} (reached : Reached (system Unit) s)
    (joined : s.join = .returned) : s.stop_requested = true ∧ s.worker.running = false := by
  have left := (reached_stopped reached).2.returned joined
  exact ⟨(reached_flag reached).mpr (by simp [joined]), by rw [left]; rfl⟩

def singleLaws : Executors.pot_thread.Laws where
  entered s := s.worker.running = true ∨ s.executed ≠ []
  asked s := s.stop_requested = true
  safe s := s.m_queue = [] ∨ s.worker.takes = 1
  gone s := s.stop_requested = true ∧ (s.worker = .check ∨ s.worker = .returned)
  fresh := ⟨by simp [Executors.pot_thread, initial, Worker.running],
    by simp [Executors.pot_thread, initial], rfl⟩
  entered_step taken entered := by
    rcases entered with busy | done
    · exact .inr busy
    · rcases executed_step taken with same | busy
      · exact .inl (.inr (same ▸ done))
      · exact .inl (.inl busy)
  running_step taken other := running_step taken other
  ran_step taken ran := decide_eq_true (ran_step taken (of_decide_eq_true ran))
  asked_step taken asked := (asked_step taken asked).imp_right fun ⟨stop, at_pc⟩ =>
    ⟨stop, decide_eq_true at_pc⟩
  joined_step taken joined := decide_eq_true (joined_step taken (of_decide_eq_true joined))
  joined_idle reached joined := joined_idle reached (of_decide_eq_true joined)
  safe_stop reached ran late stopping taken :=
    safe_stop reached (of_decide_eq_true ran) late (of_decide_eq_true stopping) taken
  safe_step reached ran safe taken :=
    safe_step (reached_stopped reached).1 (of_decide_eq_true ran) safe taken
  safe_joined reached ran safe joined := .inr
    (safe_joined (reached_stopped reached).1 ((reached_stopped reached).2.returned
      (of_decide_eq_true joined)) (of_decide_eq_true ran) safe)
  stopping_join stopping := stopping_join (of_decide_eq_true stopping)
  gone_stop late stopping taken := gone_stop late (of_decide_eq_true stopping) taken
  gone_step gone taken := gone_step gone taken
  gone_idle gone := gone_idle gone

end Pot.Thread

namespace Pot.ThreadLf
open Transition
open TicketQueue (Ticket)
open Thread (Act)

@[simp] theorem unblock_running (w : Worker Unit) : w.unblock.running = w.running := by cases w <;> rfl

theorem running_step {s t : State Unit} {a : Act Unit} (taken : step s a = some t)
    (other : a ≠ .worker) : t.worker.running = s.worker.running := by
  cases step_cases taken with
  | run | claim | full | publish | storeTrue | join | requestStop | stopTrue | joined => rfl
  | runInTask busy => simp [State.setCall, State.goto, busy, Worker.running]
  | notifyOne | notifyAll => exact unblock_running _
  | wake at_pc => simp [State.goto, at_pc, Worker.running]
  | _ => exact absurd rfl other

theorem executed_step {s t : State Unit} {a : Act Unit} (taken : step s a = some t) :
    t.executed = s.executed ∨ s.worker.running = true := by
  cases step_cases taken with
  | finish at_pc => exact .inr (by rw [at_pc]; rfl)
  | _ => exact .inl rfl

theorem ran_step {s t : State Unit} {a : Act Unit} (taken : step s a = some t)
    (ran : s.call () = .returned) : t.call () = .returned := by
  cases step_cases taken with
  | run at_pc | runInTask _ at_pc | claim at_pc | publish at_pc | storeTrue at_pc
  | notifyOne at_pc => cases at_pc.symm.trans ran
  | _ => exact ran

theorem asked_step {s t : State Unit} {a : Act Unit} (taken : step s a = some t)
    (asked : t.stop_requested = true) :
    s.stop_requested = true ∨ a = .stop ∧ s.join = .requestStop := by
  cases step_cases taken with
  | requestStop at_pc => exact .inr ⟨rfl, at_pc⟩
  | _ => exact .inl asked

theorem joined_step {s t : State Unit} {a : Act Unit} (taken : step s a = some t)
    (joined : s.join = .returned) : t.join = .returned := by
  cases step_cases taken with
  | join at_pc | requestStop at_pc | stopTrue at_pc | notifyAll at_pc | joined at_pc =>
    cases at_pc.symm.trans joined
  | _ => exact joined

/-- The worker does not leave before it has popped the function. -/
def Safe (s : State Unit) : Prop :=
  s.m_queue = [] ∨ s.worker ≠ .checkStop ∧ s.worker ≠ .returned

theorem safe_step {s t : State Unit} {a : Act Unit} (queued : Queued s)
    (ran : s.call () = .returned) (safe : Safe s) (taken : step s a = some t) : Safe t := by
  cases step_cases taken with
  | claim at_pc | publish at_pc | runInTask _ at_pc => cases at_pc.symm.trans ran
  | popNone _ none =>
    -- whatever is queued has been published
    refine .inl ?_
    by_contra some
    obtain ⟨x, rest, queue⟩ := List.exists_cons_of_ne_nil some
    have unpublished := TicketQueue.take_eq_none.mp none x (by simp [show s.m_queue = _ from queue])
    have publishing := (queued.unpublished x (by
      rw [show s.m_queue = _ from queue]; exact List.mem_cons_self)).mp unpublished
    cases ran.symm.trans publishing
  | stopped at_pc | loop at_pc =>
    exact .inl (safe.resolve_right fun away => away.1 at_pc)
  | notifyOne | notifyAll =>
    refine safe.imp_right fun away => ?_
    cases hw : s.worker <;> simp [State.goto, State.setCall, hw, Worker.unblock] at away ⊢
  | run | full | storeTrue | join | requestStop | stopTrue | joined => exact safe
  | _ => exact .inr ⟨by simp [State.goto], by simp [State.goto]⟩

theorem safe_joined {s : State Unit} (ledger : Ledger s) (left : s.worker = .returned)
    (ran : s.call () = .returned) (safe : Safe s) : s.executed ≠ [] := by
  have empty : s.m_queue = [] := safe.resolve_right fun away => away.2 left
  have enqueued := (ledger.claimed ()).mpr (by rw [ran]; rfl)
  rw [ledger.order, left, empty] at enqueued
  intro none
  simp [none, Worker.hand] at enqueued

theorem safe_stop {s t : State Unit} (reached : Reached (system Unit) s)
    (ran : s.call () = .returned) (late : (s.worker.checking && !s.m_queue.isEmpty) = false)
    (stopping : s.join = .requestStop) (taken : step s .stop = some t) : Safe t := by
  rw [Bool.and_eq_false_iff, Bool.not_eq_false', List.isEmpty_iff, Bool.eq_false_iff, ne_eq,
    checking_iff] at late
  have safe : Safe s := by
    refine late.symm.imp_right fun away => ⟨away, fun left => ?_⟩
    exact ((reached_flag reached).mp ((reached_joined reached).left left)).2 stopping
  exact safe_step (reached_queued reached) ran safe taken

theorem gone_step {s t : State Unit} {a : Act Unit}
    (gone : s.stop_requested = true ∧ (s.worker = .checkStop ∨ s.worker = .returned))
    (taken : step s a = some t) :
    t.stop_requested = true ∧ (t.worker = .checkStop ∨ t.worker = .returned) := by
  obtain ⟨stop, at_pc⟩ := gone
  cases step_cases taken with
  | run | claim | full | publish | storeTrue | join | stopTrue | joined => exact ⟨stop, at_pc⟩
  | requestStop => exact ⟨rfl, at_pc⟩
  | stopped => exact ⟨stop, .inr rfl⟩
  | notifyOne | notifyAll =>
    refine ⟨stop, ?_⟩
    rcases at_pc with at_pc | at_pc <;> simp [State.goto, State.setCall, at_pc, Worker.unblock]
  | loop _ off => cases off.symm.trans stop
  | runInTask other | pop other | popNone other | storeFalse other | popAgain other
  | popAgainNone other | start other | finish other | work other | block other | wake other =>
    rw [other] at at_pc
    simp at at_pc

theorem gone_stop {s t : State Unit} (late : (s.worker.checking && !s.m_queue.isEmpty) = true)
    (stopping : s.join = .requestStop) (taken : step s .stop = some t) :
    t.stop_requested = true ∧ (t.worker = .checkStop ∨ t.worker = .returned) := by
  rw [Bool.and_eq_true, checking_iff] at late
  rw [step, stopping] at taken
  cases taken
  exact ⟨rfl, .inl late.1⟩

theorem stopping_join {s : State Unit} (stopping : s.join = .requestStop) : step s .join = none := by
  rw [step, stopping]

theorem gone_idle {s : State Unit}
    (gone : s.stop_requested = true ∧ (s.worker = .checkStop ∨ s.worker = .returned)) :
    s.worker.running = false := by
  rcases gone.2 with at_pc | at_pc <;> rw [at_pc] <;> rfl

theorem joined_idle {s : State Unit} (reached : Reached (system Unit) s)
    (joined : s.join = .returned) : s.stop_requested = true ∧ s.worker.running = false := by
  have left := (reached_joined reached).joined joined
  exact ⟨(reached_joined reached).left left, by rw [left]; rfl⟩

def singleLaws : Executors.pot_thread_lf.Laws where
  entered s := s.worker.running = true ∨ s.executed ≠ []
  asked s := s.stop_requested = true
  safe := Safe
  gone s := s.stop_requested = true ∧ (s.worker = .checkStop ∨ s.worker = .returned)
  fresh := ⟨by simp [Executors.pot_thread_lf, initial, Worker.running],
    by simp [Executors.pot_thread_lf, initial], rfl⟩
  entered_step taken entered := by
    rcases entered with busy | done
    · exact .inr busy
    · rcases executed_step taken with same | busy
      · exact .inl (.inr (same ▸ done))
      · exact .inl (.inl busy)
  running_step taken other := running_step taken other
  ran_step taken ran := decide_eq_true (ran_step taken (of_decide_eq_true ran))
  asked_step taken asked := (asked_step taken asked).imp_right fun ⟨stop, at_pc⟩ =>
    ⟨stop, decide_eq_true at_pc⟩
  joined_step taken joined := decide_eq_true (joined_step taken (of_decide_eq_true joined))
  joined_idle reached joined := joined_idle reached (of_decide_eq_true joined)
  safe_stop reached ran late stopping taken :=
    safe_stop reached (of_decide_eq_true ran) late (of_decide_eq_true stopping) taken
  safe_step reached ran safe taken :=
    safe_step (reached_queued reached) (of_decide_eq_true ran) safe taken
  safe_joined reached ran safe joined := .inr (safe_joined (reached_ledger reached)
    ((reached_joined reached).joined (of_decide_eq_true joined)) (of_decide_eq_true ran) safe)
  stopping_join stopping := stopping_join (of_decide_eq_true stopping)
  gone_stop late stopping taken := gone_stop late (of_decide_eq_true stopping) taken
  gone_step gone taken := gone_step gone taken
  gone_idle gone := gone_idle gone

end Pot.ThreadLf
