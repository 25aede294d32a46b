import Pot.ThreadLfStop

/-! Work wake-ups of pot::thread_lf. The worker clears m_has_work and looks at the queue once more
before it waits: a ticket that becomes the next one after that look has a call behind it that is
still to store and to notify. -/
namespace Pot.ThreadLf
open Transition
open TicketQueue (Ticket take take_eq_some take_eq_none)
open Thread (Act)

variable {Sid : Type}

/-- A pop would find a function. -/
def Ready (s : State Sid) : Prop := ∃ x, s.m_queue.head? = some x ∧ x.published = true

def Storing (s : State Sid) : Prop := ∃ i, s.call i = .storeTrue

/-- What keeps the worker from waiting beside a ticket that is ready. -/
def Promised (s : State Sid) : Worker Sid → Prop
  | .wait => s.m_has_work = true ∨ Storing s
  | .blocked => Storing s ∨
      s.m_has_work = true ∧ (s.join = .notifyAll ∨ ∃ i, s.call i = .notifyOne)
  | _ => True

def Woken (s : State Sid) : Prop := Ready s → Promised s s.worker

theorem not_ready {s : State Sid} (none : take s.m_queue = none) : ¬ Ready s := by
  rintro ⟨x, front, published⟩
  cases (take_eq_none.mp none x front).symm.trans published

/-- A claim puts an unpublished ticket at the end, which is the next one of an empty queue only. -/
theorem ready_of_claim {queue : List (Ticket Sid)} {i : Sid} {x : Ticket Sid}
    (front : (queue ++ [Ticket.mk i false]).head? = some x) (published : x.published = true) :
    queue.head? = some x := by
  cases queue with
  | nil =>
    cases front
    cases published
  | cons y rest => exact front

theorem Promised.unblock {s t : State Sid} (h : Promised s s.worker)
    (work : t.m_has_work = s.m_has_work) (storing : Storing s → Storing t) :
    Promised t s.worker.unblock := by
  cases hw : s.worker with
  | wait =>
    rw [hw] at h
    exact h.imp (work ▸ id) storing
  | blocked =>
    rw [hw] at h
    rcases h with stores | ⟨on, _⟩
    · exact .inr (storing stores)
    · exact .inl (work ▸ on)
  | _ => trivial

variable [DecidableEq Sid]

theorem Promised.setCall {s t : State Sid} (h : Promised s s.worker) {i : Sid} {p : Call}
    (call : t.call = Function.update s.call i p) (same : t.worker = s.worker ∧
      t.m_has_work = s.m_has_work ∧ t.join = s.join)
    (stores : s.call i ≠ .storeTrue) (notifies : s.call i ≠ .notifyOne) :
    Promised t t.worker := by
  obtain ⟨worker, work, join⟩ := same
  have storing : Storing s → Storing t := other_call (· = .storeTrue) call stores
  have notifying := other_call (· = .notifyOne) call notifies
  rw [worker]
  cases hw : s.worker with
  | wait =>
    rw [hw] at h
    exact h.imp (work ▸ id) storing
  | blocked =>
    rw [hw] at h
    exact h.imp storing fun ⟨on, last⟩ => ⟨work ▸ on, last.imp (join ▸ id) notifying⟩
  | _ => trivial

theorem step_woken {s t : State Sid} {a : Act Sid} (h : Woken s) (taken : step s a = some t) :
    Woken t := by
  intro ready
  cases step_cases taken with
  | run at_pc => exact (h ready).setCall rfl ⟨rfl, rfl, rfl⟩ (by simp [at_pc]) (by simp [at_pc])
  | claim at_pc =>
    obtain ⟨x, front, published⟩ := ready
    exact (h ⟨x, ready_of_claim front published, published⟩).setCall rfl ⟨rfl, rfl, rfl⟩
      (by simp [at_pc]) (by simp [at_pc])
  | full => exact h ready
  | @publish i =>
    have storing : Storing ({ s with m_queue := publish s.m_queue i }.setCall i .storeTrue) :=
      ⟨i, Function.update_self ..⟩
    change Promised _ s.worker
    cases s.worker with
    | wait => exact .inr storing
    | blocked => exact .inl storing
    | _ => trivial
  | @storeTrue i =>
    change Promised _ s.worker
    cases s.worker with
    | wait => exact .inl rfl
    | blocked => exact .inr ⟨rfl, .inr ⟨i, Function.update_self ..⟩⟩
    | _ => trivial
  | notifyOne at_pc =>
    exact (h ready).unblock rfl (other_call (· = .storeTrue) rfl (by simp [at_pc]))
  | popAgainNone _ none => exact absurd ready (not_ready none)
  | block at_pc off =>
    have promised := h ready
    rw [at_pc] at promised
    exact .inl (promised.resolve_left fun on => by cases off.symm.trans on)
  | wake at_pc =>
    have promised := (h ready).unblock (t := s) rfl id
    rwa [at_pc] at promised
  | join at_pc | requestStop at_pc =>
    have promised := h ready
    change Promised _ s.worker
    cases hw : s.worker with
    | wait => rwa [hw] at promised
    | blocked =>
      rw [hw] at promised
      exact promised.imp_right fun ⟨on, last⟩ =>
        ⟨on, last.imp_left fun late => by cases at_pc.symm.trans late⟩
    | _ => trivial
  | stopTrue =>
    change Promised _ s.worker
    cases s.worker with
    | wait => exact .inl rfl
    | blocked => exact .inr ⟨rfl, .inl rfl⟩
    | _ => trivial
  | notifyAll => exact (h ready).unblock rfl id
  | joined _ left =>
    rw [show ({ s with join := Join.returned } : State Sid).worker = _ from left]
    trivial
  | runInTask | pop | popNone | stopped | loop | storeFalse | popAgain | start | finish | work =>
    trivial

theorem reached_woken {s : State Sid} (reached : Reached (system Sid) s) : Woken s := by
  refine Reached.invariant (I := Woken) ?_ (fun _ _ _ h taken => step_woken h taken) reached
  rintro _ rfl _
  trivial

/-- Beside a blocked worker and a ticket that is ready there is a call that has published and has
not come back from notify_one. -/
theorem no_wakeup_lost (Sid : Type) [DecidableEq Sid] (s : State Sid)
    (reached : Reached (system Sid) s) (running : s.stop_requested = false)
    (blocked : s.worker = .blocked) (ready : ∃ x, s.m_queue.head? = some x ∧ x.published = true) :
    ∃ i, s.call i = .storeTrue ∨ s.call i = .notifyOne := by
  have promised := reached_woken reached ready
  rw [blocked] at promised
  rcases promised with ⟨i, stores⟩ | ⟨_, late | ⟨i, notifies⟩⟩
  · exact ⟨i, .inl stores⟩
  · have on := (reached_flag reached).mpr (by simp [late])
    cases running.symm.trans on
  · exact ⟨i, .inr notifies⟩

def publishLate : List (Act Unit) :=
  [.worker, .worker, .worker, .worker, .worker, .run (), .call (), .call ()]

def published : State Unit := (replay (system Unit) initial publishLate).get rfl

theorem no_wakeup_lost_published :
    published.worker = .blocked ∧ ∃ i, published.call i = .storeTrue ∨ published.call i = .notifyOne := by
  have reached : Reached (system Unit) published :=
    Reached.replay (.start rfl) publishLate (Option.some_get _).symm
  exact ⟨rfl, no_wakeup_lost Unit published reached rfl rfl ⟨⟨(), true⟩, rfl, rfl⟩⟩

end Pot.ThreadLf
