import Pot.AsyncLockInvariant

/-! What the lock promises its coroutines: one of them at a time, a balance of everybody who
wants it, and every waiter resumed once and in its turn. -/
namespace Pot.AsyncLock
open Transition

variable {Cid : Type}

theorem moved_away {s t : State Cid} {c : Cid} {p : Pc Cid} (h : t.pc c = p)
    (different : s.pc c ≠ p) : t ≠ s :=
  fun same => different (same ▸ h)

section Progress
variable [DecidableEq Cid]

/-- No access of the lock and no executor can change anything any more. -/
def Quiet (s : State Cid) : Prop :=
  (∀ c t, step s (.go c) = some t → t = s) ∧ ∀ k, step s (.run k) = none

theorem pop_moves {s : State Cid} {c : Cid} {guards : List Bool} (at_pc : s.pc c = .pop guards)
    (queued : s.m_queue ≠ []) : ∃ t, step s (.go c) = some t ∧ t ≠ s := by
  obtain ⟨⟨handle, executor⟩, rest, hq⟩ := List.exists_cons_of_ne_nil queued
  refine ⟨{ s with m_queue := rest }.goto c (.resume guards handle executor), ?_, ?_⟩
  · simp [step, access, at_pc, hq]
  · exact moved_away (Function.update_self ..) (by simp [at_pc])

theorem push_moves {s : State Cid} {c : Cid} {guards : List Bool} {executor : Bool}
    (at_pc : s.pc c = .push guards executor) (room : s.m_queue.length < capacity) :
    ∃ t, step s (.go c) = some t ∧ t ≠ s := by
  refine ⟨State.goto ⟨s.m_state, s.m_queue ++ [(c, executor)], s.pending, s.pc, s.pushed ++ [c],
    s.resumed⟩ c (.suspended guards), ?_, ?_⟩
  · simp [step, access, at_pc, room]
  · exact moved_away (Function.update_self ..) (by simp [at_pc])

theorem resume_moves {s : State Cid} {c handle : Cid} {guards own : List Bool} {executor : Bool}
    (at_pc : s.pc c = .resume guards handle executor) (waiting : s.pc handle = .suspended own) :
    ∃ t, step s (.go c) = some t ∧ t ≠ s := by
  have moves : ∃ t, step s (.go c) = some t ∧ t.pc c = .inside guards := by
    cases executor <;>
      exact ⟨_, by simp [step, access, at_pc, State.wake, waiting]; rfl, Function.update_self ..⟩
  obtain ⟨t, taken, at_t⟩ := moves
  exact ⟨t, taken, moved_away at_t (by simp [at_pc])⟩

end Progress

variable [Fintype Cid]

theorem wake_of_transit {s : State Cid} (h : Inv s) {w : Cid} (transit : InTransit s w) :
    ∃ own, s.pc w = .suspended own := by
  obtain ⟨tr, line, _⟩ := h.line
  exact (line.waiting w).mp (List.mem_append_left _ ((line.popped w).mpr transit))

/-- An unlock that saw prev_state > 1 has a waiter queued or about to be queued. -/
theorem owed_waiter {s : State Cid} (h : Inv s) {c : Cid} {guards : List Bool}
    (at_pop : s.pc c = .pop guards) : s.m_queue ≠ [] ∨ ∃ w, (s.pc w).announced = true := by
  obtain ⟨balance, token, _, owed⟩ := h.balanced
  have pops : 0 < Tally.count Pc.pops s.pc := Tally.count_pos.mpr ⟨c, by rw [at_pop]; rfl⟩
  have wanted := owed pops
  simp only [State.counts] at balance token wanted
  by_contra alone
  obtain ⟨empty, unannounced⟩ := not_or.mp alone
  have queued : s.m_queue.length = 0 := List.length_eq_zero_iff.mpr (not_not.mp empty)
  have announced : ¬ 0 < Tally.count Pc.announced s.pc :=
    fun some => unannounced (Tally.count_pos.mp some)
  omega

variable [DecidableEq Cid]

theorem quiet_tokens {s : State Cid} (h : Inv s) (quiet : Quiet s) :
    Tally.count Pc.pops s.pc = 0 ∧ Tally.count Pc.hands s.pc + s.pending.length = 0 := by
  have still : ∀ c, ¬ ∃ t, step s (.go c) = some t ∧ t ≠ s := fun c ⟨t, taken, moved⟩ =>
    moved (quiet.1 c t taken)
  have pending : s.pending = [] := by
    cases hp : s.pending with
    | nil => rfl
    | cons w rest =>
      obtain ⟨own, waiting⟩ := wake_of_transit h (.inr (hp ▸ List.mem_cons_self))
      have stuck := quiet.2 0
      simp [step, hp, State.wake, waiting] at stuck
  have hands : Tally.count Pc.hands s.pc = 0 := by
    apply Tally.count_eq_zero.mpr
    intro c
    cases hc : s.pc c with
    | resume guards handle executor =>
      obtain ⟨own, waiting⟩ := wake_of_transit h (.inl ⟨c, guards, executor, hc⟩)
      exact absurd (resume_moves hc waiting) (still c)
    | _ => rfl
  refine ⟨Tally.count_eq_zero.mpr fun c => ?_, by simp [pending, hands]⟩
  cases hc : s.pc c with
  | pop guards =>
    have empty : s.m_queue = [] := not_not.mp fun queued => still c (pop_moves hc queued)
    obtain ⟨w, announced⟩ := (owed_waiter h hc).resolve_left (not_not.mpr empty)
    cases hw : s.pc w with
    | push own executor =>
      exact absurd (push_moves hw (by simp [empty, capacity])) (still w)
    | _ => rw [hw] at announced; cases announced
  | _ => rfl

/-- Any number of coroutines, any interleaving: one holder, m_state counts the holder, the popped
handle, the queue and those who are about to join it, an unlock that has to pop will find
somebody, the handles are resumed in the order of their pushes and none twice, and no run gets
stuck with a waiter while nobody holds the lock. -/
theorem hands_over {s : State Cid} (reached : Reached (system Cid) s) :
    (∀ c d, (s.pc c).holds = true → (s.pc d).holds = true → c = d) ∧
    s.m_state = (Tally.count Pc.holds s.pc + (Tally.count Pc.hands s.pc + s.pending.length) +
      s.m_queue.length + Tally.count Pc.announced s.pc : Nat) ∧
    (∀ c guards, s.pc c = .pop guards → s.m_queue ≠ [] ∨ ∃ w, (s.pc w).announced = true) ∧
    (∃ transit, (∀ w, w ∈ transit ↔ InTransit s w) ∧
      s.pushed = s.resumed ++ transit ++ s.m_queue.map Prod.fst ∧
      (transit ++ s.m_queue.map Prod.fst).Nodup ∧
      ∀ w, w ∈ transit ++ s.m_queue.map Prod.fst ↔ ∃ guards, s.pc w = .suspended guards) ∧
    (Quiet s → (∀ c, (s.pc c).holds = false) → s.pushed = s.resumed ∧ s.m_state = 0) := by
  have h := reached_inv reached
  obtain ⟨transit, line, size⟩ := h.line
  obtain ⟨balance, token, unlocked, _⟩ := h.balanced
  simp only [State.counts] at size balance token unlocked
  refine ⟨Tally.count_le_one.mp (by omega), balance, fun c guards at_pop => owed_waiter h at_pop,
    ⟨transit, line.popped, line.order, line.once, line.waiting⟩, fun quiet free => ?_⟩
  obtain ⟨pops, popped⟩ := quiet_tokens h quiet
  have holds : Tally.count Pc.holds s.pc = 0 := Tally.count_eq_zero.mpr free
  have released := unlocked (by omega)
  have empty : s.m_queue = [] := List.length_eq_zero_iff.mp (by omega)
  have arrived : transit = [] := List.length_eq_zero_iff.mp (by omega)
  exact ⟨by rw [line.order, arrived, empty]; simp, released⟩

def contended : List (Act Bool) :=
  [.lock true false, .go true, .lock false false, .go false, .guard true (.moveConstruct 0),
    .go false, .guard true (.destroy 1), .go true, .go true, .go true]

def handed : State Bool := (replay (system Bool) initial contended).get rfl

theorem hands_over_contended :
    handed.pushed = [false] ∧ handed.resumed = [false] ∧ (handed.pc false).holds = true ∧
      (handed.pc true).holds = false := by
  have reached : Reached (system Bool) handed :=
    (Reached.start rfl).replay contended (Option.some_get _).symm
  have alone := (hands_over reached).1
  refine ⟨rfl, rfl, rfl, ?_⟩
  by_contra held
  cases alone true false (Bool.not_eq_false _ ▸ held) rfl

end Pot.AsyncLock
