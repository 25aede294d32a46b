import Pot.TaskProgress

/-! The hand-off to an awaiting coroutine. It is the exchange and the compare-exchange on
m_awaiter that decide who goes on: the awaiter enters await_resume once, on one of three ways,
and always after the result has been stored. -/
namespace Pot.Task
open Transition

variable {V E : Type}

def Consumer.entered : Consumer V E → Bool
  | .awaitResume _ | .wait | .steal | .readData | .guardExit _ | .finished _ => true
  | _ => false

def Outcome.isRuntimeError : Outcome V E → Prop
  | .threw (.runtimeError _) => True
  | _ => False

/-- No check of await_ready or await_suspend has thrown. -/
def Consumer.Unrefused : Consumer V E → Prop
  | .guardExit o | .finished o => ¬ o.isRuntimeError
  | _ => True

structure Handed (s : State V E) : Prop where
  once : s.entries.length = if s.consumer.entered then 1 else 0
  late : s.consumer.entered = true → 3 ≤ s.frame.coro.rank
  unrefused : s.consumer.Unrefused
  unarmed : s.frame.steal = false

theorem readData_unrefused (isVoid : Bool) (d : Data V E) :
    ¬ (readData isVoid d).isRuntimeError := by
  cases d <;> simp only [readData] <;> (try split) <;> exact id

theorem complete_handed {cfg : Config V E} {s : State V E} {g : Frame V E} {signal : Signal}
    (h : Inv cfg s) (hand : Handed s) (way : cfg.way = .coAwait)
    (step : Completes cfg.body s.frame g signal) :
    Handed ⟨g, s.consumer.hear cfg.way signal,
      if signal = .resumes then s.entries ++ (s.consumer.hear cfg.way signal).entering
      else s.entries⟩ := by
  obtain ⟨once, late, unrefused, unarmed⟩ := hand
  have place := h.consumer
  obtain ⟨alive, fn, forward, _, running⟩ := complete_keeps step
  rcases complete_registered h.frame step with ⟨kept, _⟩ | ⟨rfl, reg, _, final⟩
  · rw [if_neg kept]
    cases hc : s.consumer with
    | resuming =>
      rw [hc] at place
      exact absurd way place.2.2.2.1
    | blocked =>
      rw [hc] at place
      cases way.symm.trans place.2.2.2.1
    | awaiting =>
      rw [hc] at once
      cases signal with
      | resumes => exact absurd rfl kept
      | _ => exact ⟨once, nofun, trivial, fn.trans unarmed⟩
    | awaitResume | wait | steal | readData | guardExit | finished =>
      rw [hc] at once late unrefused
      cases signal <;> exact ⟨once, fun e => Nat.le_trans (late e) forward, unrefused,
        fn.trans unarmed⟩
    | _ =>
      rw [hc] at once
      cases signal <;> exact ⟨once, nofun, trivial, fn.trans unarmed⟩
  · -- the handle that completion resumes belongs to a coroutine that has not gone on
    cases hc : s.consumer with
    | awaiting =>
      rw [hc] at once
      have empty : s.entries = [] := List.length_eq_zero_iff.mp once
      refine ⟨?_, fun _ => by rw [final]; decide, trivial, fn.trans unarmed⟩
      simp [empty, Consumer.hear, Consumer.entering, Consumer.entered]
    | awaitTransfer =>
      rw [hc] at place
      exact absurd place.2.2.2.2.2 running
    | guardExit | finished =>
      rw [hc] at place
      exact absurd reg place.2
    | _ =>
      rw [hc] at place
      exact absurd reg place.2.1

theorem consume_handed {cfg : Config V E} {s : State V E} {g : Frame V E} {c : Consumer V E}
    (h : Inv cfg s) (hand : Handed s) (way : cfg.way = .coAwait)
    (move : Moves cfg s.frame s.consumer g c) : Handed ⟨g, c, s.entries ++ c.entering⟩ := by
  obtain ⟨once, late, unrefused, unarmed⟩ := hand
  have later := consume_consumer h move
  have place := h.consumer
  generalize s.consumer = c₀ at move once late unrefused place
  have first : c₀.entered = false → s.entries = [] := fun fresh =>
    List.length_eq_zero_iff.mp (by rw [once, fresh]; rfl)
  cases move with
  | get kind other | getLazy kind other => cases way.symm.trans other
  | blockingGet kind other | blockingGetLazy kind other => cases way.symm.trans other
  | resume => exact absurd way place.2.2.2.1
  | unblocked | block => cases way.symm.trans place.2.2.2
  | seesDone | seesReady | tooLate =>
    exact ⟨by simp [first rfl, Consumer.entering, Consumer.entered], fun _ => later.2.2.2.2, trivial,
      unarmed⟩
  | enter | ready | loop =>
    exact ⟨by simpa [Consumer.entering, Consumer.entered] using once, late, trivial, unarmed⟩
  | noSteal =>
    exact ⟨by simpa [Consumer.entering, Consumer.entered] using once, late, id, unarmed⟩
  | read =>
    exact ⟨by simpa [Consumer.entering, Consumer.entered] using once, late,
      readData_unrefused _ _, unarmed⟩
  | destroy =>
    exact ⟨by simpa [Consumer.entering, Consumer.entered] using once, late, unrefused,
      unarmed⟩
  | _ => exact ⟨by simp [first rfl, Consumer.entering, Consumer.entered], nofun, trivial, unarmed⟩

theorem step_handed {cfg : Config V E} {s t : State V E} {a : Act E} (h : Inv cfg s)
    (hand : Handed s) (way : cfg.way = .coAwait) (taken : step cfg s a = some t) : Handed t := by
  have place := h.consumer
  cases step_cases h taken with
  | complete hstep => exact complete_handed h hand way hstep
  | consume move => exact consume_handed h hand way move
  | answer at_steal fn | stolenThrew at_steal fn =>
    cases fn.symm.trans hand.unarmed
  | wake at_block =>
    rw [at_block] at place
    cases way.symm.trans place.2.2.2.1

theorem reached_handed {cfg : Config V E} {s : State V E} (way : cfg.way = .coAwait)
    (reached : Reached (system cfg) s) : Inv cfg s ∧ Handed s :=
  Reached.invariant (I := fun s => Inv cfg s ∧ Handed s)
    (fun s (eq : s = initial cfg) => eq ▸ ⟨initial_inv cfg, rfl, nofun, trivial, rfl⟩)
    (fun _ _ _ hi taken => ⟨step_inv hi.1 taken, step_handed hi.1 hi.2 way taken⟩) reached

theorem await_bounded {cfg : Config V E} {s t : State V E} (way : cfg.way = .coAwait)
    (h : Inv cfg s) (hand : Handed s) (as : List (Act E))
    (run : replay (system cfg) s as = some t) : as.length ≤ s.left cfg := by
  have bound := replay_bounded (system cfg) (I := fun s => Inv cfg s ∧ Handed s)
    (fun s => s.left cfg)
    (fun _ _ _ hi taken => ⟨step_inv hi.1 taken, step_handed hi.1 hi.2 way taken⟩)
    (fun _ _ _ hi taken => step_left hi.1 taken (.inr ⟨hi.2.unarmed, way⟩)) ⟨h, hand⟩ as run
  omega

/-- co_await, in every interleaving with the completion: await_resume is entered at most once,
and once by the end of any run, of which none is infinite; the result is stored by then, and
neither await_ready nor await_suspend throws. -/
theorem hands_off_once {cfg : Config V E} (way : cfg.way = .coAwait) {s : State V E}
    (reached : Reached (system cfg) s) :
    s.entries.length ≤ 1 ∧
    (Terminal (system cfg) s → s.entries.length = 1) ∧
    (∀ as t, replay (system cfg) s as = some t → as.length ≤ s.left cfg) ∧
    (s.entries ≠ [] → s.frame.m_data = cfg.body.result.data) ∧
    ∀ what, s.consumer ≠ .finished (.threw (.runtimeError what)) := by
  obtain ⟨h, hand⟩ := reached_handed way reached
  refine ⟨?_, fun terminal => ?_, fun as t run => await_bounded way h hand as run,
    fun entered => ?_, fun what done => ?_⟩
  · rw [hand.once]
    split <;> omega
  · obtain ⟨_, o, done⟩ := idle_finished h (fun a _ => terminal a)
    rw [hand.once, done]
    rfl
  · refine h.frame.data (Nat.le_trans (by omega) (hand.late ?_))
    by_contra fresh
    exact entered (List.length_eq_zero_iff.mp (by rw [hand.once, if_neg fresh]))
  · have unrefused := hand.unrefused
    rw [done] at unrefused
    exact unrefused trivial

def awaitedTask : Config Nat Nat where
  kind := .task
  way := .coAwait
  body := ⟨false, 1, .exception 3, nofun, nofun⟩

def registeredRun : List (Act Nat) :=
  [.complete, .consume, .consume, .consume, .consume, .complete, .complete, .complete, .complete,
    .complete, .complete, .complete, .consume, .consume, .consume, .consume]

def registered : State Nat Nat :=
  (replay (system awaitedTask) (initial awaitedTask) registeredRun).get rfl

theorem hands_off_once_registered :
    registered.entries = [.resumed] ∧ registered.consumer = .finished (.threw (.user 3)) ∧
      registered.entries.length ≤ 1 := by
  have reached : Reached (system awaitedTask) registered :=
    (Reached.start rfl).replay registeredRun (Option.some_get _).symm
  exact ⟨rfl, rfl, (hands_off_once rfl reached).1⟩

end Pot.Task
