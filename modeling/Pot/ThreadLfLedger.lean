import Mathlib.Data.List.Nodup
import Pot.ThreadLfStop

/-! Where the functions of pot::thread_lf are: executed, with the worker or in the queue, in the
order of their tickets. -/
namespace Pot.ThreadLf
open Transition
open TicketQueue (Ticket)
open Thread (Act)

variable {Sid : Type}

def Worker.hand : Worker Sid → List Sid
  | .storeTrue task => [task]
  | .run task => [task.function]
  | _ => []

def Call.claimed : Call → Bool
  | .idle | .claim => false
  | _ => true

structure Ledger (s : State Sid) : Prop where
  order : s.enqueued = s.executed ++ s.worker.hand ++ s.m_queue.map Ticket.value
  once : s.enqueued.Nodup
  claimed : ∀ i, i ∈ s.enqueued ↔ (s.call i).claimed = true

theorem Ledger.work {s t : State Sid} (h : Ledger s)
    (order : t.executed ++ t.worker.hand ++ t.m_queue.map Ticket.value =
      s.executed ++ s.worker.hand ++ s.m_queue.map Ticket.value)
    (rest : t.enqueued = s.enqueued ∧ t.call = s.call) : Ledger t := by
  obtain ⟨enqueued, call⟩ := rest
  refine ⟨by rw [order, enqueued, h.order], enqueued ▸ h.once, fun j => ?_⟩
  rw [enqueued, call]
  exact h.claimed j

@[simp] theorem unblock_hand (w : Worker Sid) : w.unblock.hand = w.hand := by cases w <;> rfl

variable [DecidableEq Sid]

theorem publish_values (queue : List (Ticket Sid)) (i : Sid) :
    (publish queue i).map Ticket.value = queue.map Ticket.value := by
  rw [publish, List.map_map]
  refine List.map_congr_left fun x _ => ?_
  simp only [Function.comp]
  split <;> rfl

theorem Ledger.call {s t : State Sid} (h : Ledger s) {i : Sid} {p : Call}
    (call : t.call = Function.update s.call i p) (same : p.claimed = (s.call i).claimed)
    (hand : t.worker.hand = s.worker.hand)
    (queue : t.m_queue.map Ticket.value = s.m_queue.map Ticket.value)
    (rest : t.enqueued = s.enqueued ∧ t.executed = s.executed) : Ledger t := by
  obtain ⟨enqueued, executed⟩ := rest
  refine ⟨by rw [enqueued, executed, hand, queue, h.order], enqueued ▸ h.once, fun j => ?_⟩
  rw [enqueued, h.claimed, call, Function.update_apply]
  split
  · rw [‹j = i›, same]
  · exact Iff.rfl

theorem step_ledger {s t : State Sid} {a : Act Sid} (h : Ledger s) (taken : step s a = some t) :
    Ledger t := by
  cases step_cases taken with
  | run at_pc | storeTrue at_pc => exact h.call rfl (by rw [at_pc]; rfl) rfl rfl ⟨rfl, rfl⟩
  | publish at_pc => exact h.call rfl (by rw [at_pc]; rfl) rfl (publish_values _ _) ⟨rfl, rfl⟩
  | runInTask busy at_pc =>
    exact h.call rfl (by rw [at_pc]; rfl) (by simp [State.setCall, State.goto, busy, Worker.hand]) rfl
      ⟨rfl, rfl⟩
  | notifyOne at_pc => exact h.call rfl (by rw [at_pc]; rfl) (unblock_hand _) rfl ⟨rfl, rfl⟩
  | @claim i at_pc =>
    have fresh : i ∉ s.enqueued := fun mem => by
      have past := (h.claimed i).mp mem
      rw [at_pc] at past
      cases past
    refine ⟨?_, ?_, fun j => ?_⟩
    · simp only [State.setCall, h.order, List.append_assoc, List.map_append, List.map_cons,
        List.map_nil]
    · exact List.nodup_append.mpr ⟨h.once, List.nodup_singleton i, fun j hj k hk same =>
        fresh (List.mem_singleton.mp hk ▸ same ▸ hj)⟩
    · simp only [State.setCall, List.mem_append, h.claimed, List.mem_singleton,
        Function.update_apply]
      split
      · simp [‹j = i›, Call.claimed]
      · simp [‹j ≠ i›]
  | pop at_pc took | popAgain at_pc took =>
    have queue := (TicketQueue.take_eq_some.mp took).1
    exact h.work (by simp [State.goto, at_pc, queue, Worker.hand]) ⟨rfl, rfl⟩
  | finish at_pc | start at_pc =>
    exact h.work (by simp [State.goto, at_pc, Worker.hand]) ⟨rfl, rfl⟩
  | notifyAll => exact h.work (by simp [State.goto]) ⟨rfl, rfl⟩
  | full | join | requestStop | stopTrue | joined => exact ⟨h.order, h.once, h.claimed⟩
  | popNone at_pc | stopped at_pc | loop at_pc | storeFalse at_pc | popAgainNone at_pc | work at_pc
  | block at_pc | wake at_pc =>
    exact h.work (by simp [State.goto, at_pc, Worker.hand]) ⟨rfl, rfl⟩

theorem reached_ledger {s : State Sid} (reached : Reached (system Sid) s) : Ledger s := by
  refine Reached.invariant (I := Ledger) ?_ (fun _ _ _ h taken => step_ledger h taken) reached
  rintro _ rfl
  constructor <;> simp [initial, Worker.hand, Call.claimed]

end Pot.ThreadLf
