import Pot.TaskProgress

/-! The lifetime of the frame at completion. The guard of get, blocking_get and await_resume
destroys the frame as soon as the wait is left, and nothing makes the wait last until
final_awaiter::await_suspend is done with the promise. -/
namespace Pot.Task
open Transition

variable {V E : Type}

/-- The steps that leave the wait; only reading the result and the guard come after them. -/
def Leaves (s : State V E) : Act E → Prop
  | .consume => match s.consumer with
    | .wait | .blockingWait => s.frame.m_ready = true
    | .steal => True
    | _ => False
  | .steal (.threw _) => True
  | _ => False

/-- The wait is left only after m_ready.notify_all() has returned. -/
def LeavesLate (s : State V E) (a : Act E) : Prop := Leaves s a → 6 ≤ s.frame.coro.rank

def Consumer.leaving : Consumer V E → Bool
  | .readData | .guardExit _ | .finished _ => true
  | _ => false

theorem leaving_of_dead {cfg : Config V E} {f : Frame V E} {c : Consumer V E}
    (ok : ConsumerOk cfg f c) (dead : f.alive = false) : c.leaving = true := by
  cases c with
  | finished o => rfl
  | _ => cases dead.symm.trans ok.1

theorem hear_leaving (way : Way) (c : Consumer V E) (signal : Signal) :
    (c.hear way signal).leaving = c.leaving := by
  cases signal <;> cases c <;> try rfl
  cases way <;> rfl

/-- Only the last four accesses of await_suspend touch the promise. -/
theorem complete_stale {body : Body V E} {f g : Frame V E} {signal : Signal}
    (step : Completes body f g signal) (safe : f.alive = true ∨ 6 ≤ f.coro.rank) :
    g.stale = f.stale := by
  cases step with
  | exchange at_step | ready at_step | notify at_step =>
    rcases safe with live | late
    · simp [Frame.goto, Frame.touch, live]
    · rw [at_step] at late
      simp [Coro.rank] at late
  | _ => rfl

theorem consume_stale {cfg : Config V E} {f g : Frame V E} {c₀ c : Consumer V E}
    (move : Moves cfg f c₀ g c) : g.stale = f.stale := by
  cases move <;> rfl

theorem consume_leaving {cfg : Config V E} {s : State V E} {g : Frame V E} {c : Consumer V E}
    (h : Inv cfg s) (move : Moves cfg s.frame s.consumer g c) (leaving : c.leaving = true) :
    g.coro = s.frame.coro ∧ (s.consumer.leaving = true ∨ Leaves s .consume) := by
  have place : ∀ c, s.consumer = c → ConsumerOk cfg s.frame c := fun _ eq => eq ▸ h.consumer
  generalize hc : s.consumer = c₀ at move
  cases move with
  | ready ready => exact ⟨rfl, .inr (by simp only [Leaves, hc, ready])⟩
  | unblocked ready => exact ⟨rfl, .inr (by simp only [Leaves, hc, ready])⟩
  | noSteal => exact ⟨rfl, .inr (by simp only [Leaves, hc])⟩
  | read | destroy => exact ⟨rfl, .inl rfl⟩
  | _ => cases leaving

/-- While the wait is left in time, the frame outlives the accesses of its completion. -/
structure Outlived (s : State V E) : Prop where
  late : s.consumer.leaving = true → 6 ≤ s.frame.coro.rank
  untouched : s.frame.stale = false

theorem step_outlived {cfg : Config V E} {s t : State V E} {a : Act E} (h : Inv cfg s)
    (good : Outlived s) (ok : LeavesLate s a) (taken : step cfg s a = some t) : Outlived t := by
  cases step_cases h taken with
  | complete hstep =>
    refine ⟨fun leaving => ?_, ?_⟩
    · rw [hear_leaving] at leaving
      exact Nat.le_trans (good.late leaving) (complete_keeps hstep).2.2.1
    · refine (complete_stale hstep ?_).trans good.untouched
      rw [← Bool.not_eq_false, ← imp_iff_not_or]
      exact fun dead => good.late (leaving_of_dead h.consumer dead)
  | consume move =>
    refine ⟨fun leaving => ?_, (consume_stale move).trans good.untouched⟩
    obtain ⟨same, before | leaves⟩ := consume_leaving h move leaving
    · exact same ▸ good.late before
    · exact same ▸ ok leaves
  | answer => exact ⟨nofun, good.untouched⟩
  | stolenThrew => exact ⟨fun _ => ok trivial, good.untouched⟩
  | wake => exact ⟨nofun, good.untouched⟩

theorem reached_outlived {cfg : Config V E} {s : State V E}
    (reached : ReachedUnder (system cfg) LeavesLate s) : Inv cfg s ∧ Outlived s :=
  reached.invariant (I := fun s => Inv cfg s ∧ Outlived s)
    (fun s (eq : s = initial cfg) => eq ▸ ⟨initial_inv cfg, nofun, rfl⟩)
    (fun _ _ _ hi ok taken => ⟨step_inv hi.1 taken, step_outlived hi.1 hi.2 ok taken⟩)

theorem complete_dead {body : Body V E} {f g : Frame V E} {signal : Signal}
    (step : Completes body f g signal) (dead : f.alive = false) (early : f.coro.rank ≤ 5) :
    g.stale = true ∨ (g.alive = false ∧ g.coro.rank ≤ 5) := by
  cases step with
  | exchange | ready | notify => exact .inl (by simp [Frame.goto, Frame.touch, dead])
  | noop at_transfer | handOff at_transfer =>
    rw [at_transfer] at early
    exact absurd early (by decide)
  | _ => exact .inr ⟨dead, by simp [Frame.goto, Coro.rank]⟩

theorem dead_touched (cfg : Config V E) (s : State V E) (dead : s.frame.alive = false)
    (early : s.frame.coro.rank ≤ 5) (begun : s.frame.coro ≠ .initialSuspend) :
    ∃ as t, replay (system cfg) s as = some t ∧ t.frame.stale = true := by
  induction hn : s.frame.coro.left cfg.body.suspensions using Nat.strongRecOn
    generalizing s with
  | ind n ih =>
    cases hstep : s.frame.complete cfg.body with
    | none =>
      rcases complete_none hstep with at_init | at_end | at_end
      · exact absurd at_init begun
      all_goals
        rw [at_end] at early
        exact absurd early (by decide)
    | some r =>
      obtain ⟨g, signal⟩ := r
      have completes := complete_cases hstep
      have taken : step cfg s .complete = some _ := congrArg (Option.map _) hstep
      rcases complete_dead completes dead early with touched | ⟨gone, before⟩
      · exact ⟨[.complete], _, replay_cons taken [], touched⟩
      · obtain ⟨as, t, run, touched⟩ := ih _ (hn ▸ complete_left _ completes) ⟨g, _, _⟩ gone before
          (complete_keeps completes).2.2.2.1 rfl
        exact ⟨.complete :: as, t, (replay_cons taken as).trans run, touched⟩

theorem leaving_dies (cfg : Config V E) (s : State V E) (leaving : s.consumer.leaving = true)
    (dead : ∀ o, s.consumer = .finished o → s.frame.alive = false) :
    ∃ as t, replay (system cfg) s as = some t ∧ t.frame.alive = false ∧
      t.frame.coro = s.frame.coro := by
  obtain ⟨f, c, log⟩ := s
  cases c with
  | readData => exact ⟨[.consume, .consume], _, rfl, rfl, rfl⟩
  | guardExit o => exact ⟨[.consume], _, rfl, rfl, rfl⟩
  | finished o => exact ⟨[], _, rfl, dead o rfl, rfl⟩
  | _ => cases leaving

theorem left_early_touched {cfg : Config V E} {s t : State V E} {a : Act E} (h : Inv cfg s)
    (early : ¬ LeavesLate s a) (taken : step cfg s a = some t) :
    ∃ as u, replay (system cfg) t as = some u ∧ u.frame.stale = true := by
  obtain ⟨leaves, early⟩ := Classical.not_imp.mp early
  have begun : s.frame.coro ≠ .initialSuspend := fun at_init => by
    have unstarted := (h.started at_init).2
    cases a with
    | consume => cases hc : s.consumer <;> simp_all [Leaves, Consumer.unstarted]
    | steal r => cases step_cases h taken <;> simp_all [Consumer.unstarted]
    | _ => exact leaves
  have left : t.consumer.leaving = true ∧ t.frame.coro = s.frame.coro := by
    cases step_cases h taken with
    | complete => exact absurd leaves id
    | consume move =>
      generalize hc : s.consumer = c₀ at move
      cases move <;> simp_all [Leaves, Consumer.leaving]
    | answer => exact absurd leaves id
    | stolenThrew => exact ⟨rfl, rfl⟩
    | wake => exact absurd leaves id
  obtain ⟨as, u, run, gone, same⟩ := leaving_dies cfg t left.1 fun o done => by
    have ok := (step_inv h taken).consumer
    rw [done] at ok
    exact ok.1
  have place := same.trans left.2
  obtain ⟨bs, v, rest, touched⟩ := dead_touched cfg u gone (place ▸ by omega) (place ▸ begun)
  exact ⟨as ++ bs, v, (replay_append as bs run).trans rest, touched⟩

/-- No access of await_suspend comes after the frame's end in a run that leaves each wait only
after notify_all, and whoever leaves one earlier can be followed by such an access. -/
theorem outlives_when_late (cfg : Config V E) :
    (∀ s, ReachedUnder (system cfg) LeavesLate s → s.frame.stale = false) ∧
    ∀ s a t, Reached (system cfg) s → ¬ LeavesLate s a → step cfg s a = some t →
      ∃ as u, replay (system cfg) t as = some u ∧ u.frame.stale = true :=
  ⟨fun _ reached => (reached_outlived reached).2.untouched,
    fun _ _ _ reached early taken => left_early_touched (reached_inv reached) early taken⟩

def blockingTask : Config Nat Empty where
  kind := .task
  way := .blockingGet
  body := .value 0 7

def untilReady : List (Act Empty) := [.complete, .complete, .complete, .complete]

def destroyRun : List (Act Empty) := [.consume, .consume, .consume, .consume]

def lateRun : List (Act Empty) := untilReady ++ .complete :: destroyRun

def late : State Nat Empty := (replay (system blockingTask) (initial blockingTask) lateRun).get rfl

theorem outlives_when_late_blocking :
    late.consumer = .finished (.returned (some 7)) ∧ late.frame.stale = false := by
  have allowed : ReplaysUnder (system blockingTask) LeavesLate (initial blockingTask) lateRun :=
    ⟨nofun, nofun, nofun, nofun, nofun, nofun, fun _ => by decide, nofun, nofun, trivial⟩
  have reached : ReachedUnder (system blockingTask) LeavesLate late :=
    (ReachedUnder.start rfl).replay lateRun allowed (Option.some_get _).symm
  exact ⟨rfl, (outlives_when_late blockingTask).1 late reached⟩

/-- m_ready is set, the caller reads the value and destroys the frame, then it is notified. -/
theorem blocking_get_stale :
    ¬ ∀ s, Reached (system blockingTask) s → s.frame.stale = false := by
  intro untouched
  have reached : Reached (system blockingTask)
      ((replay (system blockingTask) (initial blockingTask)
        (untilReady ++ destroyRun ++ [.complete])).get rfl) :=
    (Reached.start rfl).replay _ (Option.some_get _).symm
  cases untouched _ reached

end Pot.Task
