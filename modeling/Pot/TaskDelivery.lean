import Pot.TaskProgress

/-! What the consumer obtains. Every way of consuming ends in the body's own outcome as long as
wait() is not entered too early: with an empty meta.steal its loop throws instead of waiting. -/
namespace Pot.Task
open Transition

variable {V E : Type}

/-- The wait loop does not call an empty meta.steal, and no stolen function throws through it. -/
def WaitOk (s : State V E) : Act E → Prop
  | .consume => s.consumer = .wait → s.frame.m_ready = true ∨ s.frame.steal = true
  | .steal (.threw _) => False
  | _ => True

def Delivers (body : Body V E) (f : Frame V E) : Consumer V E → Prop
  | .steal => f.steal = true
  | .guardExit o | .finished o => o = body.result.outcome
  | _ => True

theorem readData_result (body : Body V E) :
    readData body.isVoid body.result.data = body.result.outcome := by
  obtain ⟨void, value⟩ := body.typed
  cases hr : body.result with
  | returnVoid => simp [readData, Result.data, Result.outcome, void hr]
  | value v => simp [readData, Result.data, Result.outcome, value v hr]
  | exception e => rfl

theorem hear_delivers {body : Body V E} {f g : Frame V E} {c : Consumer V E} {way : Way}
    {signal : Signal} (h : Delivers body f c) (fn : g.steal = f.steal) :
    Delivers body g (c.hear way signal) := by
  cases c with
  | steal => cases signal <;> exact fn.trans h
  | guardExit o | finished o => cases signal <;> exact h
  | resuming => cases signal <;> cases way <;> trivial
  | _ => cases signal <;> trivial

theorem consume_delivers {cfg : Config V E} {s : State V E} {g : Frame V E} {c : Consumer V E}
    (h : Inv cfg s) (good : Delivers cfg.body s.frame s.consumer)
    (move : Moves cfg s.frame s.consumer g c)
    (ok : s.consumer = .wait → s.frame.m_ready = true ∨ s.frame.steal = true) :
    Delivers cfg.body g c := by
  have place := h.consumer
  generalize s.consumer = c₀ at move good ok place
  cases move with
  | loop unready =>
    rcases ok rfl with ready | fn
    · cases ready.symm.trans unready
    · exact fn
  | noSteal fn => cases fn.symm.trans good
  | read =>
    have stored := h.frame.data (by have := place.2.2; omega)
    rw [stored]
    exact readData_result cfg.body
  | destroy => exact good
  | _ => trivial

theorem step_delivers {cfg : Config V E} {s t : State V E} {a : Act E} (h : Inv cfg s)
    (good : Delivers cfg.body s.frame s.consumer) (ok : WaitOk s a)
    (taken : step cfg s a = some t) : Delivers cfg.body t.frame t.consumer := by
  cases step_cases h taken with
  | complete hstep => exact hear_delivers good (complete_keeps hstep).2.1
  | consume move => exact consume_delivers h good move ok
  | answer => trivial
  | stolenThrew => exact absurd ok id
  | wake => trivial

theorem reached_delivers {cfg : Config V E} {s : State V E}
    (reached : ReachedUnder (system cfg) WaitOk s) :
    Inv cfg s ∧ Delivers cfg.body s.frame s.consumer :=
  reached.invariant (I := fun s => Inv cfg s ∧ Delivers cfg.body s.frame s.consumer)
    (fun s (eq : s = initial cfg) => eq ▸ ⟨initial_inv cfg, trivial⟩)
    (fun _ _ _ hi ok taken => ⟨step_inv hi.1 taken, step_delivers hi.1 hi.2 ok taken⟩)

/-- The converse of the condition: an early wait() always ends in std::bad_function_call. -/
theorem early_wait_throws {cfg : Config V E} {s : State V E} (at_wait : s.consumer = .wait)
    (unready : s.frame.m_ready = false) (fn : s.frame.steal = false) :
    ∃ t, replay (system cfg) s [.consume, .consume, .consume] = some t ∧
      t.consumer = .finished (.threw .badFunctionCall) := by
  obtain ⟨f, c, log⟩ := s
  cases at_wait
  refine ⟨_, by simp [replay, system, step, consume, show f.m_ready = false from unready,
    show f.steal = false from fn]; rfl, rfl⟩

theorem final_preserved {cfg : Config V E} {s t : State V E} {a : Act E} (h : Inv cfg s)
    (final : s.frame.coro = .finalSuspended) (taken : step cfg s a = some t) :
    t.frame.coro = .finalSuspended := by
  have place := h.consumer
  cases step_cases h taken with
  | complete hstep => cases hstep <;> simp_all
  | consume move =>
    generalize s.consumer = c₀ at move place
    cases move with
    | transfer => exact nomatch final.symm.trans place.2.2.2.2.2
    | resume => exact nomatch final.symm.trans place.2.2.2.2.2
    | _ => exact final
  | answer | stolenThrew | wake => exact final

theorem served_within {cfg : Config V E} {s t : State V E} (h : Inv cfg s)
    (final : s.frame.coro = .finalSuspended) (as : List (Act E))
    (run : replay (system cfg) s as = some t) : as.length ≤ 10 := by
  have bound := replay_bounded (system cfg)
    (I := fun s => Inv cfg s ∧ s.frame.coro = .finalSuspended) (fun s => s.left cfg)
    (fun _ _ _ hi taken => ⟨step_inv hi.1 taken, final_preserved hi.1 hi.2 taken⟩)
    (fun _ _ _ hi taken => step_left hi.1 taken (.inl (by rw [hi.1.frame.ready, hi.2]; rfl)))
    ⟨h, final⟩ as run
  have start : s.left cfg ≤ 10 := by
    simp only [State.left, final, Coro.left]
    cases s.consumer <;> simp only [Consumer.left] <;> (try split) <;> omega
  omega

/-- As long as wait() is entered with m_ready set or a steal function in hand, and no stolen
function throws, the consumer obtains the body's outcome and nothing else: whatever it ends
with is that outcome, no run stops before it has it, and it has it soon after completion. -/
theorem delivers_under {cfg : Config V E} {s : State V E}
    (reached : ReachedUnder (system cfg) WaitOk s) :
    (∀ o, s.consumer = .finished o → o = cfg.body.result.outcome) ∧
    (Idle cfg s → s.consumer = .finished cfg.body.result.outcome) ∧
    (s.frame.coro = .finalSuspended →
      ∀ as t, replay (system cfg) s as = some t → as.length ≤ 10) := by
  obtain ⟨h, good⟩ := reached_delivers reached
  have only : ∀ o, s.consumer = .finished o → o = cfg.body.result.outcome := fun o done => by
    rw [done] at good
    exact good
  refine ⟨only, fun idle => ?_, fun final as t run => served_within h final as run⟩
  obtain ⟨_, o, done⟩ := idle_finished h idle
  rw [done, only o done]

def stealingGet : Config Nat Empty where
  kind := .task
  way := .get true
  body := .value 1 7

def servedRun : List (Act Empty) :=
  [.complete, .consume, .consume, .steal (.answer false), .complete, .complete, .complete,
    .complete, .complete, .consume, .complete, .complete, .consume, .consume]

def served : State Nat Empty :=
  (replay (system stealingGet) (initial stealingGet) servedRun).get rfl

theorem delivers_under_served :
    served.consumer = .finished (.returned (some 7)) ∧
      ∀ o, served.consumer = .finished o → o = .returned (some 7) := by
  have allowed : ReplaysUnder (system stealingGet) WaitOk (initial stealingGet) servedRun :=
    ⟨trivial, nofun, fun _ => .inr rfl, trivial, trivial, trivial, trivial, trivial, trivial,
      fun _ => .inl rfl, trivial, trivial, nofun, nofun, trivial⟩
  have reached : ReachedUnder (system stealingGet) WaitOk served :=
    (ReachedUnder.start rfl).replay servedRun allowed (Option.some_get _).symm
  exact ⟨rfl, (delivers_under reached).1⟩

def pendingGet : Config Nat Empty := { stealingGet with way := .get false }

def earlyRun : List (Act Empty) := [.complete, .consume, .consume, .consume, .consume]

theorem pending_get_throws :
    ¬ ∀ s, Reached (system pendingGet) s →
      ∀ o, s.consumer = .finished o → o = pendingGet.body.result.outcome := by
  intro delivers
  have reached : Reached (system pendingGet)
      ((replay (system pendingGet) (initial pendingGet) earlyRun).get rfl) :=
    (Reached.start rfl).replay earlyRun (Option.some_get _).symm
  cases delivers _ reached (.threw .badFunctionCall) rfl

end Pot.Task
