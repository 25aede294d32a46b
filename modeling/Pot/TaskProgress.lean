import Pot.TaskInvariant

/-! The pair of a coroutine and its consumer has no dead end, and apart from the two loops that
wait for m_ready every step uses up something. -/
namespace Pot.Task
open Transition

variable {V E : Type}

/-- Steps the coroutine may still take, a suspension and its resumption being two. -/
def Coro.left (suspensions : Nat) : Coro → Nat
  | .initialSuspend => 2 * suspensions + 9
  | .running k => 2 * k + 8
  | .suspended k => 2 * k + 9
  | .stored => 7
  | .exchange => 6
  | .storeReady _ => 5
  | .notifyAll _ => 4
  | .transfer _ => 3
  | .finalSuspended => 0

/-- Steps the consumer may still take when it does not wait in vain; `loops` says that its
promise holds a steal function. -/
def Consumer.left (loops : Bool) : Consumer V E → Nat
  | .start => 10
  | .awaitReadyDone | .awaitStore => 9
  | .awaitReadyFlag | .awaitTransfer | .resume => 8
  | .awaitSuspend => 7
  | .awaiting | .resuming => 6
  | .awaitResume _ | .blocked => 5
  | .blockingWait => 4
  | .steal => if loops then 4 else 2
  | .wait => 3
  | .readData => 2
  | .guardExit _ => 1
  | .finished _ => 0

def State.left (cfg : Config V E) (s : State V E) : Nat :=
  s.frame.coro.left cfg.body.suspensions + s.consumer.left s.frame.steal

theorem complete_left {body : Body V E} {f g : Frame V E} {signal : Signal} (n : Nat)
    (step : Completes body f g signal) : g.coro.left n < f.coro.left n := by
  cases step <;> simp_all [Frame.goto, Frame.touch, Coro.left]
  omega

theorem hear_left (way : Way) (c : Consumer V E) (signal : Signal) (loops : Bool) :
    (c.hear way signal).left loops ≤ c.left loops := by
  cases signal <;> cases c <;> simp [Consumer.hear, Consumer.left]
  cases way <;> simp [Way.waits]

theorem consume_left {cfg : Config V E} {s : State V E} {g : Frame V E} {c : Consumer V E}
    (h : Inv cfg s) (move : Moves cfg s.frame s.consumer g c)
    (useful : s.frame.m_ready = true ∨ (s.frame.steal = false ∧ cfg.way = .coAwait)) :
    g.coro.left cfg.body.suspensions + c.left g.steal <
      s.frame.coro.left cfg.body.suspensions + s.consumer.left s.frame.steal := by
  have ok := h.consumer
  generalize s.consumer = c₀ at move ok
  cases move with
  | transfer => simp [Consumer.left, Coro.left, Frame.goto, ok.2.2.2.2.2]
  | resume => simp [Consumer.left, Coro.left, Frame.goto, ok.2.2.2.2.2]
  | loop unready =>
    rcases useful with ready | ⟨fn, _⟩
    · cases ready.symm.trans unready
    · simp [Consumer.left, fn]
  | noSteal fn => simp [Consumer.left, fn]
  | block unready =>
    rcases useful with ready | ⟨_, way⟩
    · cases ready.symm.trans unready
    · cases way.symm.trans ok.2.2.2
  | _ => simp [Consumer.left]

theorem step_left {cfg : Config V E} {s t : State V E} {a : Act E} (h : Inv cfg s)
    (taken : step cfg s a = some t)
    (useful : s.frame.m_ready = true ∨ (s.frame.steal = false ∧ cfg.way = .coAwait)) :
    t.left cfg < s.left cfg := by
  cases step_cases h taken with
  | @complete g signal hstep =>
    have coro := complete_left cfg.body.suspensions hstep
    have consumer := hear_left cfg.way s.consumer signal s.frame.steal
    simp only [State.left, (complete_keeps hstep).2.1]
    omega
  | consume move => exact consume_left h move useful
  | answer at_steal fn => simp [State.left, at_steal, fn, Consumer.left]
  | stolenThrew at_steal fn => simp [State.left, at_steal, fn, Consumer.left]
  | wake at_block => simp [State.left, at_block, Consumer.left]

/-- Nothing is left to do but to wake up for no reason. -/
def Idle (cfg : Config V E) (s : State V E) : Prop :=
  ∀ a, a ≠ .wake → step cfg s a = none

theorem consume_none {cfg : Config V E} {f : Frame V E} {c : Consumer V E}
    (stuck : consume cfg f c = none) :
    c = .awaiting ∨ c = .resuming ∨ c = .blocked ∨ (c = .steal ∧ f.steal = true) ∨
      ∃ o, c = .finished o := by
  cases c with
  | start =>
    simp only [consume] at stuck
    split at stuck <;> cases stuck
  | awaitSuspend =>
    simp only [consume] at stuck
    split at stuck
    · cases stuck
    · split at stuck <;> cases stuck
  | awaitStore =>
    simp only [consume] at stuck
    split at stuck <;> cases stuck
  | steal => simpa [consume] using stuck
  | awaiting => exact .inl rfl
  | resuming => exact .inr (.inl rfl)
  | blocked => exact .inr (.inr (.inl rfl))
  | finished o => exact .inr (.inr (.inr (.inr ⟨o, rfl⟩)))
  | _ => cases stuck

theorem complete_none {body : Body V E} {f : Frame V E} (stuck : f.complete body = none) :
    f.coro = .initialSuspend ∨ f.coro = .transfer .sentinel ∨ f.coro = .finalSuspended := by
  unfold Frame.complete at stuck
  split at stuck <;> try cases stuck
  · exact .inl ‹_›
  · exact .inr (.inl ‹_›)
  · exact .inr (.inr ‹_›)

theorem final_unregistered {body : Body V E} {f : Frame V E} (h : FrameOk body f)
    (final : f.coro = .finalSuspended) : ¬ Registered f := by
  have swapped := h.sentinel.mpr (by rw [final]; decide)
  rintro (reg | reg)
  · rw [swapped] at reg; cases reg
  · rw [final] at reg; cases reg

/-- Whoever waits is still waited upon: a run only ends with the consumer served. -/
theorem idle_finished {cfg : Config V E} {s : State V E} (h : Inv cfg s) (idle : Idle cfg s) :
    s.frame.coro = .finalSuspended ∧ ∃ o, s.consumer = .finished o := by
  have ok := h.consumer
  have consumed := consume_none (Option.map_eq_none_iff.mp (idle .consume (by simp)))
  have final : s.frame.coro = .finalSuspended := by
    rcases complete_none (Option.map_eq_none_iff.mp (idle .complete (by simp))) with
      at_init | at_transfer | final
    · have unstarted := (h.started at_init).2
      rcases consumed with hc | hc | hc | ⟨hc, _⟩ | ⟨o, hc⟩ <;> rw [hc] at unstarted <;>
        cases unstarted
    · exact absurd (by rw [at_transfer]; rfl) h.frame.prev
    · exact final
  refine ⟨final, ?_⟩
  rcases consumed with hc | hc | hc | ⟨hc, fn⟩ | done
  · rw [hc] at ok
    exact absurd ok.2.1 (final_unregistered h.frame final)
  · rw [hc] at ok
    exact absurd final ok.2.2.2.2.2
  · rw [hc] at ok
    have before := ok.2.2.2.2
    rw [final] at before
    exact absurd before (by decide)
  · have stealing := idle (.steal (.answer true)) (by simp)
    simp [step, hc, consumeSteal, fn] at stealing
  · exact done

end Pot.Task
