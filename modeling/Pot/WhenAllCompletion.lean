import Pot.WhenAll

/-! A combinator completes after its tasks when no await of its loop throws while a later task is
under way; otherwise the loop is left early, and the vector of tasks goes out of scope with it. -/
namespace Pot.WhenAll
open Transition

variable {V E : Type}

inductive Steps (cfg : Config V E) (s : State V E) : Act → State V E → Prop where
  | task {i u} (inside : i < s.size)
    (taken : Task.step (cfg.task i) (s.tasks i) .complete = some u) :
    Steps cfg s (.task i) (s.setTask i u)
  | next {v} (at_loop : s.range.phase = .body) (inside : s.pos < s.size)
    (awaited : (s.tasks s.pos).consumer = .finished (.returned v)) :
    Steps cfg s .range { s with pos := s.pos + 1 }
  | leave {x} (at_loop : s.range.phase = .body) (inside : s.pos < s.size)
    (awaited : (s.tasks s.pos).consumer = .finished (.threw x)) :
    Steps cfg s .range { s with range := { s.range with phase := .ended (.exception x) } }
  | await {u} (at_loop : s.range.phase = .body)
    (taken : Task.step (cfg.task s.pos) (s.tasks s.pos) .consume = some u) :
    Steps cfg s .range (s.setTask s.pos u)
  | last (at_loop : s.range.phase = .body) (outside : s.size ≤ s.pos) :
    Steps cfg s .range { s with range := { s.range with phase := .ended .returnVoid } }
  | rangeEnds {j} (taken : s.range.complete = some j) : Steps cfg s .range { s with range := j }
  | callRange (at_call : s.container.phase = .body) (uncalled : s.range.phase = .uncalled) :
    Steps cfg s .container { s with range := { s.range with phase := .body } }
  | awaitRange {j} (at_await : s.container.phase = .body) (called : s.range.phase ≠ .uncalled)
    (taken : s.range.consume = some j) : Steps cfg s .container { s with range := j }
  | rangeAwaited {o} (at_await : s.container.phase = .body)
    (awaited : s.range.co.consumer = .finished o) :
    Steps cfg s .container
      { s with container := { s.container with phase := .ended (ending rethrow o) } }
  | containerEnds {j} (taken : s.container.complete = some j) :
    Steps cfg s .container { s with container := j }
  | create (at_create : s.caller.phase = .body) (more : s.size < cfg.combinator.tasks) :
    Steps cfg s .caller { s with size := s.size + 1 }
  | callContainer (at_call : s.caller.phase = .body) (full : cfg.combinator.tasks ≤ s.size)
    (uncalled : s.container.phase = .uncalled) :
    Steps cfg s .caller { s with container := { s.container with phase := .body } }
  | awaitContainer {j} (at_await : s.caller.phase = .body) (called : s.container.phase ≠ .uncalled)
    (taken : s.container.consume = some j) : Steps cfg s .caller { s with container := j }
  | containerAwaited {o} (at_await : s.caller.phase = .body)
    (awaited : s.container.co.consumer = .finished o) :
    Steps cfg s .caller
      { s.destroyed with caller := { s.caller with phase := .ended (ending rethrow o) } }
  | callerEnds {j} (taken : s.caller.complete = some j) : Steps cfg s .caller { s with caller := j }

theorem range_cases {cfg : Config V E} {s t : State V E} (taken : rangeStep cfg s = some t) :
    Steps cfg s .range t := by
  unfold rangeStep at taken
  split at taken
  · cases taken
  · split at taken
    · split at taken
      · cases taken
        exact .next ‹_› ‹_› ‹_›
      · cases taken
        exact .leave ‹_› ‹_› ‹_›
      · obtain ⟨u, hu, rfl⟩ := Option.map_eq_some_iff.mp taken
        exact .await ‹_› hu
    · cases taken
      exact .last ‹_› (Nat.le_of_not_lt ‹_›)
  · obtain ⟨j, hj, rfl⟩ := Option.map_eq_some_iff.mp taken
    exact .rangeEnds hj

theorem container_cases {cfg : Config V E} {s t : State V E} (taken : containerStep s = some t) :
    Steps cfg s .container t := by
  unfold containerStep at taken
  split at taken
  · cases taken
  · split at taken
    · cases taken
      exact .callRange ‹_› ‹_›
    · cases taken
      exact .rangeAwaited ‹_› ‹_›
    · obtain ⟨j, hj, rfl⟩ := Option.map_eq_some_iff.mp taken
      exact .awaitRange ‹_› ‹_› hj
  · obtain ⟨j, hj, rfl⟩ := Option.map_eq_some_iff.mp taken
    exact .containerEnds hj

theorem caller_cases {cfg : Config V E} {s t : State V E} (taken : callerStep cfg s = some t) :
    Steps cfg s .caller t := by
  unfold callerStep at taken
  split at taken
  · cases taken
  · split at taken
    · cases taken
      exact .create ‹_› ‹_›
    · split at taken
      · cases taken
        exact .callContainer ‹_› (Nat.le_of_not_lt ‹_›) ‹_›
      · cases taken
        exact .containerAwaited ‹_› ‹_›
      · obtain ⟨j, hj, rfl⟩ := Option.map_eq_some_iff.mp taken
        exact .awaitContainer ‹_› ‹_› hj
  · obtain ⟨j, hj, rfl⟩ := Option.map_eq_some_iff.mp taken
    exact .callerEnds hj

theorem step_cases {cfg : Config V E} {s t : State V E} {a : Act} (taken : step cfg s a = some t) :
    Steps cfg s a t := by
  cases a with
  | task i =>
    simp only [step] at taken
    split at taken
    · obtain ⟨u, hu, rfl⟩ := Option.map_eq_some_iff.mp taken
      exact .task ‹_› hu
    · cases taken
  | range => exact range_cases taken
  | container => exact container_cases taken
  | caller => exact caller_cases taken

/-- The coroutine and the co_await on it are in a state of Pot.Task, at the start of the body as
long as the body has not ended. -/
structure Joined (j : Join E) : Prop where
  inv : Task.Inv j.task j.co
  handed : Task.Handed j.co
  inside : (∀ r, j.phase ≠ .ended r) → j.co.frame.coro = .running 0

theorem initial_joined (phase : Phase E) : Joined (.initial phase) := by
  refine ⟨?_, ⟨rfl, nofun, trivial, rfl⟩, fun _ => rfl⟩
  have start := Task.initial_inv (Join.initial phase).task
  exact start

theorem Joined.goto {j : Join E} (h : Joined j) (running : ∀ r, j.phase ≠ .ended r)
    (phase : Phase E) : Joined { j with phase } := by
  have inside := h.inside running
  refine ⟨⟨⟨fun early => ?_, h.inv.frame.done, h.inv.frame.ready, h.inv.frame.sentinel,
    h.inv.frame.prev⟩, ?_, h.inv.started⟩, h.handed, fun _ => inside⟩
  · rw [inside] at early
    exact absurd early (by decide)
  · exact h.inv.consumer

theorem Joined.step {j : Join E} (h : Joined j) {a : Task.Act (Task.Thrown E)}
    {co : Task.State Empty (Task.Thrown E)} (taken : Task.step j.task j.co a = some co)
    (inside : (∀ r, j.phase ≠ .ended r) → co.frame.coro = .running 0) : Joined { j with co } :=
  ⟨Task.step_inv h.inv taken, Task.step_handed h.inv h.handed rfl taken, inside⟩

theorem task_done {cfg : Task.Config V E} {s t : Task.State V E} {a : Task.Act E}
    (h : Task.Inv cfg s) (taken : Task.step cfg s a = some t) (done : s.frame.done = true) :
    t.frame.done = true := by
  cases Task.step_cases h taken with
  | complete step => cases step <;> first | exact done | rfl
  | consume move =>
    generalize s.consumer = c at move
    cases move <;> exact done
  | _ => exact done

theorem consume_coro {cfg : Task.Config V E} {s t : Task.State V E} (kind : cfg.kind = .task)
    (way : cfg.way = .coAwait) (h : Task.Inv cfg s) (taken : Task.step cfg s .consume = some t) :
    t.frame.coro = s.frame.coro := by
  cases Task.step_cases h taken with
  | consume move =>
    have place := h.consumer
    generalize s.consumer = c at move place
    cases move with
    | transfer => cases kind.symm.trans place.2.2.2.2.1
    | resume => exact absurd way place.2.2.2.1
    | _ => rfl

theorem Joined.complete {j k : Join E} (h : Joined j) (taken : j.complete = some k) :
    Joined k ∧ k.phase = j.phase ∧ (j.co.frame.done = true → k.co.frame.done = true) := by
  unfold Join.complete at taken
  split at taken
  · rename_i r ended
    obtain ⟨co, hco, rfl⟩ := Option.map_eq_some_iff.mp taken
    refine ⟨h.step hco fun running => absurd ended (running r), rfl, ?_⟩
    exact task_done h.inv hco
  · cases taken

theorem Joined.consume {j k : Join E} (h : Joined j) (taken : j.consume = some k) :
    Joined k ∧ k.phase = j.phase ∧ (j.co.frame.done = true → k.co.frame.done = true) := by
  obtain ⟨co, hco, rfl⟩ := Option.map_eq_some_iff.mp taken
  exact ⟨h.step hco fun running => (consume_coro rfl rfl h.inv hco).trans (h.inside running), rfl,
    task_done h.inv hco⟩

theorem Joined.ended_of_done {j : Join E} (h : Joined j) (done : j.co.frame.done = true) :
    ∃ r, j.phase = .ended r := by
  by_contra running
  have early := h.inv.frame.done
  rw [done, h.inside fun r ended => running ⟨r, ended⟩] at early
  exact absurd early (by decide)

/-- By the time a co_await has ended, the coroutine it waited for is done. -/
theorem done_of_finished {cfg : Task.Config V E} {s : Task.State V E} {o : Task.Outcome V E}
    (inv : Task.Inv cfg s) (handed : Task.Handed s) (finished : s.consumer = .finished o) :
    s.frame.done = true := by
  rw [inv.frame.done]
  exact decide_eq_true (handed.late (by rw [finished]; rfl))

theorem done_of_dead {cfg : Task.Config V E} {s : Task.State V E} (inv : Task.Inv cfg s)
    (handed : Task.Handed s) (dead : s.frame.alive = false) : s.frame.done = true := by
  have place := inv.consumer
  cases hc : s.consumer with
  | finished o => exact done_of_finished inv handed hc
  | _ =>
    rw [hc] at place
    cases place.1.symm.trans dead

structure Coroutines (s : State V E) : Prop where
  range : Joined s.range
  container : Joined s.container
  caller : Joined s.caller

theorem not_ended {j : Join E} (running : j.phase = .body ∨ j.phase = .uncalled) :
    ∀ r, j.phase ≠ .ended r := by
  intro r ended
  rcases running with at_pc | at_pc <;> cases at_pc.symm.trans ended

theorem step_coroutines {cfg : Config V E} {s t : State V E} {a : Act} (h : Coroutines s)
    (taken : step cfg s a = some t) : Coroutines t := by
  obtain ⟨range, container, caller⟩ := h
  cases step_cases taken with
  | task | next | await | create => exact ⟨range, container, caller⟩
  | leave at_loop | last at_loop =>
    exact ⟨range.goto (not_ended (.inl at_loop)) _, container, caller⟩
  | callRange _ uncalled => exact ⟨range.goto (not_ended (.inr uncalled)) _, container, caller⟩
  | rangeEnds hj => exact ⟨(range.complete hj).1, container, caller⟩
  | awaitRange _ _ hj => exact ⟨(range.consume hj).1, container, caller⟩
  | rangeAwaited at_await => exact ⟨range, container.goto (not_ended (.inl at_await)) _, caller⟩
  | containerEnds hj => exact ⟨range, (container.complete hj).1, caller⟩
  | callContainer _ _ uncalled =>
    exact ⟨range, container.goto (not_ended (.inr uncalled)) _, caller⟩
  | awaitContainer _ _ hj => exact ⟨range, (container.consume hj).1, caller⟩
  | containerAwaited at_await => exact ⟨range, container, caller.goto (not_ended (.inl at_await)) _⟩
  | callerEnds hj => exact ⟨range, container, (caller.complete hj).1⟩

theorem initial_coroutines (cfg : Config V E) : Coroutines (initial cfg) :=
  ⟨initial_joined _, initial_joined _, initial_joined _⟩

theorem reached_coroutines {cfg : Config V E} {s : State V E} (reached : Reached (system cfg) s) :
    Coroutines s :=
  reached.invariant (I := Coroutines) (fun s (eq : s = initial cfg) => eq ▸ initial_coroutines cfg)
    (fun _ _ _ hi taken => step_coroutines hi taken)

/-- What holds of the tasks and the coroutines while the later ones wait for the earlier. -/
structure Chained (cfg : Config V E) (s : State V E) : Prop where
  joins : Coroutines s
  tasks : (∀ r, s.caller.phase ≠ .ended r) →
    ∀ i, Task.Inv (cfg.task i) (s.tasks i) ∧ Task.Handed (s.tasks i)
  frames : ∀ i, Task.FrameOk (cfg.body i) (s.tasks i).frame
  full : s.size = cfg.combinator.tasks ∨ s.range.phase = .uncalled ∧ s.container.phase = .uncalled
  bound : s.size ≤ cfg.combinator.tasks
  passed : ∀ i, i < s.pos → (s.tasks i).frame.done = true
  left : ∀ r, s.range.phase = .ended r → ∀ i, i < s.size → (s.tasks i).frame.done = true
  awaitedRange : ∀ r, s.container.phase = .ended r → s.range.co.frame.done = true
  awaitedContainer : ∀ r, s.caller.phase = .ended r → s.container.co.frame.done = true

def State.thrown (s : State V E) : Bool :=
  match s.range.phase, (s.tasks s.pos).consumer with
  | .body, .finished (.threw _) => s.pos < s.size
  | _, _ => false

/-- An await of the loop throws only when every later task has completed. -/
def LeavesLast (s : State V E) : Act → Prop
  | .range => s.thrown = true → ∀ j, j < s.size → s.pos < j → (s.tasks j).frame.done = true
  | _ => True

instance (s : State V E) : (a : Act) → Decidable (LeavesLast s a)
  | .range => inferInstanceAs (Decidable (_ → _))
  | .task _ | .container | .caller => .isTrue trivial

theorem thrown_iff {s : State V E} : s.thrown = true ↔
    s.range.phase = .body ∧ s.pos < s.size ∧
      ∃ x, (s.tasks s.pos).consumer = .finished (.threw x) := by
  simp only [State.thrown]
  split
  · rename_i at_loop awaited
    simp [at_loop, awaited]
  · rename_i other
    simp only [Bool.false_eq_true, false_iff]
    rintro ⟨at_loop, -, x, awaited⟩
    exact other x at_loop awaited

theorem initial_chained (cfg : Config V E) : Chained cfg (initial cfg) where
  joins := initial_coroutines cfg
  tasks _ i := ⟨Task.initial_inv (cfg.task i), rfl, nofun, trivial, rfl⟩
  frames i := (Task.initial_inv (cfg.task i)).frame
  full := by
    simp only [initial, Join.initial]
    cases cfg.combinator with
    | range | container => exact .inl rfl
    | parsections | parfor => exact .inr ⟨rfl, rfl⟩
  bound := by
    simp only [initial]
    cases cfg.combinator with
    | range | container => exact Nat.le_refl _
    | parsections | parfor => exact Nat.zero_le _
  passed _ hi := absurd hi (Nat.not_lt_zero _)
  left r ended := by
    simp only [initial, Join.initial] at ended
    split at ended <;> cases ended
  awaitedRange r ended := by
    simp only [initial, Join.initial] at ended
    split at ended <;> cases ended
  awaitedContainer r ended := by
    simp only [initial, Join.initial] at ended
    split at ended <;> cases ended

theorem Chained.range_ended {cfg : Config V E} {s : State V E} (h : Chained cfg s)
    {r : Result E} (ended : s.caller.phase = .ended r) : ∃ r, s.range.phase = .ended r := by
  obtain ⟨r', ended'⟩ := h.joins.container.ended_of_done (h.awaitedContainer r ended)
  exact h.joins.range.ended_of_done (h.awaitedRange r' ended')

theorem Chained.called {cfg : Config V E} {s : State V E} (h : Chained cfg s)
    (called : s.range.phase ≠ .uncalled) : s.size = cfg.combinator.tasks :=
  h.full.resolve_right fun none => called none.1

theorem Chained.filled {cfg : Config V E} {s : State V E} (h : Chained cfg s)
    (called : s.container.phase = .body) : s.size = cfg.combinator.tasks :=
  h.full.resolve_right fun none => by cases called.symm.trans none.2

theorem Chained.setTask {cfg : Config V E} {s : State V E} (h : Chained cfg s) {i : Nat}
    {u : Task.State V E} (frame : Task.FrameOk (cfg.body i) u.frame)
    (done : (s.tasks i).frame.done = true → u.frame.done = true)
    (awaits : (∀ r, s.caller.phase ≠ .ended r) → Task.Inv (cfg.task i) u ∧ Task.Handed u) :
    Chained cfg (s.setTask i u) := by
  have kept : ∀ j, (s.tasks j).frame.done = true → ((s.setTask i u).tasks j).frame.done = true := by
    intro j before
    by_cases same : j = i
    · subst same
      simpa [State.setTask] using done before
    · simpa [State.setTask, Function.update_of_ne same] using before
  refine ⟨⟨h.joins.range, h.joins.container, h.joins.caller⟩, fun running j => ?_, fun j => ?_,
    h.full, h.bound, fun j hj => kept j (h.passed j hj), fun r ended j hj => kept j (h.left r ended j hj),
    h.awaitedRange, h.awaitedContainer⟩
  · by_cases same : j = i
    · subst same
      simpa [State.setTask] using awaits running
    · simpa [State.setTask, Function.update_of_ne same] using h.tasks running j
  · by_cases same : j = i
    · subst same
      simpa [State.setTask] using frame
    · simpa [State.setTask, Function.update_of_ne same] using h.frames j

theorem Chained.setRange {cfg : Config V E} {s : State V E} (h : Chained cfg s) {j : Join E}
    (step : Joined j ∧ j.phase = s.range.phase ∧
      (s.range.co.frame.done = true → j.co.frame.done = true)) :
    Chained cfg { s with range := j } := by
  obtain ⟨joined, same, done⟩ := step
  exact ⟨⟨joined, h.joins.container, h.joins.caller⟩, h.tasks, h.frames, by rw [same]; exact h.full,
    h.bound, h.passed, by rw [same]; exact h.left, fun r ended => done (h.awaitedRange r ended),
    h.awaitedContainer⟩

theorem Chained.setContainer {cfg : Config V E} {s : State V E} (h : Chained cfg s) {j : Join E}
    (step : Joined j ∧ j.phase = s.container.phase ∧
      (s.container.co.frame.done = true → j.co.frame.done = true)) :
    Chained cfg { s with container := j } := by
  obtain ⟨joined, same, done⟩ := step
  exact ⟨⟨h.joins.range, joined, h.joins.caller⟩, h.tasks, h.frames, by rw [same]; exact h.full,
    h.bound, h.passed, h.left, by rw [same]; exact h.awaitedRange,
    fun r ended => done (h.awaitedContainer r ended)⟩

theorem step_chained {cfg : Config V E} {s t : State V E} {a : Act} (h : Chained cfg s)
    (ok : LeavesLast s a) (taken : step cfg s a = some t) : Chained cfg t := by
  have looping : s.range.phase = .body → ∀ r, s.caller.phase ≠ .ended r := by
    intro at_loop r ended
    obtain ⟨r', ended'⟩ := h.range_ended ended
    cases at_loop.symm.trans ended'
  have joins := step_coroutines h.joins taken
  cases step_cases taken with
  | @task i u inside hu =>
    obtain ⟨⟨g, signal⟩, hg, rfl⟩ := Option.map_eq_some_iff.mp hu
    have completes := Task.complete_cases hg
    refine h.setTask (Task.complete_frame (h.frames i) completes) (fun done => ?_) fun running => ?_
    · cases completes <;> first | exact done | rfl
    · obtain ⟨inv, handed⟩ := h.tasks running i
      exact ⟨Task.step_inv inv hu, Task.step_handed inv handed rfl hu⟩
  | await at_loop hu =>
    obtain ⟨inv, handed⟩ := h.tasks (looping at_loop) s.pos
    have inv' := Task.step_inv inv hu
    exact h.setTask inv'.frame (task_done inv hu) fun _ => ⟨inv', Task.step_handed inv handed rfl hu⟩
  | next at_loop inside awaited =>
    obtain ⟨inv, handed⟩ := h.tasks (looping at_loop) s.pos
    refine ⟨joins, h.tasks, h.frames, h.full, h.bound, fun i hi => ?_, h.left,
      h.awaitedRange, h.awaitedContainer⟩
    rcases Nat.lt_or_eq_of_le (Nat.le_of_lt_succ hi) with earlier | rfl
    · exact h.passed i earlier
    · exact done_of_finished inv handed awaited
  | @leave x at_loop inside awaited =>
    obtain ⟨inv, handed⟩ := h.tasks (looping at_loop) s.pos
    have full := h.called (by rw [at_loop]; exact nofun)
    refine ⟨joins, h.tasks, h.frames, .inl full,
      h.bound, h.passed, fun _ _ i hi => ?_, h.awaitedRange, h.awaitedContainer⟩
    rcases Nat.lt_trichotomy i s.pos with earlier | rfl | later
    · exact h.passed i earlier
    · exact done_of_finished inv handed awaited
    · exact ok (thrown_iff.mpr ⟨at_loop, inside, x, awaited⟩) i hi later
  | last at_loop outside =>
    have full := h.called (by rw [at_loop]; exact nofun)
    exact ⟨joins, h.tasks, h.frames, .inl full, h.bound, h.passed,
      fun _ _ i hi => h.passed i (Nat.lt_of_lt_of_le hi outside), h.awaitedRange,
      h.awaitedContainer⟩
  | rangeEnds hj => exact h.setRange (h.joins.range.complete hj)
  | awaitRange at_await called hj => exact h.setRange (h.joins.range.consume hj)
  | callRange at_call uncalled =>
    exact ⟨joins, h.tasks, h.frames, .inl (h.filled at_call), h.bound, h.passed, nofun,
      h.awaitedRange, h.awaitedContainer⟩
  | rangeAwaited at_await awaited =>
    have done := done_of_finished h.joins.range.inv h.joins.range.handed awaited
    exact ⟨joins, h.tasks, h.frames, .inl (h.filled at_await), h.bound, h.passed, h.left,
      fun _ _ => done, h.awaitedContainer⟩
  | containerEnds hj => exact h.setContainer (h.joins.container.complete hj)
  | create at_create more =>
    obtain short | none := h.full
    · exact absurd more (by omega)
    · exact ⟨joins, h.tasks, h.frames, .inr none, more, h.passed,
        fun r ended => absurd ended (not_ended (.inr none.1) r), h.awaitedRange,
        h.awaitedContainer⟩
  | callContainer at_call full uncalled =>
    exact ⟨joins, h.tasks, h.frames, .inl (Nat.le_antisymm h.bound full), h.bound, h.passed,
      h.left, nofun, h.awaitedContainer⟩
  | awaitContainer at_await called hj => exact h.setContainer (h.joins.container.consume hj)
  | containerAwaited at_await awaited =>
    have done := done_of_finished h.joins.container.inv h.joins.container.handed awaited
    refine ⟨joins, fun running => absurd rfl (running _), fun i => ?_, h.full, h.bound, h.passed,
      h.left, h.awaitedRange, fun _ _ => done⟩
    exact ⟨(h.frames i).data, (h.frames i).done, (h.frames i).ready, (h.frames i).sentinel,
      (h.frames i).prev⟩
  | callerEnds hj =>
    obtain ⟨-, same, done⟩ := h.joins.caller.complete hj
    exact ⟨joins, by rw [same]; exact h.tasks, h.frames, h.full, h.bound, h.passed, h.left,
      h.awaitedRange, by rw [same]; exact h.awaitedContainer⟩

theorem reached_chained {cfg : Config V E} {s : State V E}
    (reached : ReachedUnder (system cfg) LeavesLast s) : Chained cfg s :=
  reached.invariant (I := Chained cfg) (fun s (eq : s = initial cfg) => eq ▸ initial_chained cfg)
    (fun _ _ _ hi ok taken => step_chained hi ok taken)

theorem Chained.completed {cfg : Config V E} {s : State V E} (h : Chained cfg s)
    (completed : s.completed cfg.combinator = true) {i : Nat} (task : i < cfg.combinator.tasks) :
    (s.tasks i).frame.done = true := by
  have range : ∃ r, s.range.phase = .ended r := by
    unfold State.completed at completed
    split at completed
    · exact h.joins.range.ended_of_done completed
    · obtain ⟨r, ended⟩ := h.joins.container.ended_of_done completed
      exact h.joins.range.ended_of_done (h.awaitedRange r ended)
    all_goals
      obtain ⟨r, ended⟩ := h.joins.caller.ended_of_done completed
      exact h.range_ended ended
  obtain ⟨r, ended⟩ := range
  exact h.left r ended i (h.called (by rw [ended]; exact nofun) ▸ task)

theorem Chained.destroyed {cfg : Config V E} {s : State V E} (h : Chained cfg s) {i : Nat}
    (created : i < s.size) (dead : (s.tasks i).frame.alive = false) :
    (s.tasks i).frame.done = true := by
  cases hp : s.caller.phase with
  | ended r =>
    obtain ⟨r', ended⟩ := h.range_ended hp
    exact h.left r' ended i created
  | uncalled | body =>
    obtain ⟨inv, handed⟩ := h.tasks (by rw [hp]; exact nofun) i
    exact done_of_dead inv handed dead

theorem Joined.finishes {j : Join E} {r : Result E} (at_end : j.co.frame.coro = .running 0) :
    ∃ k l, Join.complete { j with phase := .ended r } = some k ∧ k.complete = some l ∧
      k.phase = .ended r ∧ l.co.frame.done = true := by
  simp [Join.complete, Task.step, Task.Frame.complete, at_end, Task.Frame.goto]

theorem left_early {cfg : Config V E} {s t : State V E} {a : Act} (reached : Reached (system cfg) s)
    (early : ¬ LeavesLast s a) (taken : step cfg s a = some t) :
    ∃ as u i, replay (system cfg) t as = some u ∧ u.range.co.frame.done = true ∧ i < u.size ∧
      (u.tasks i).frame.done = false := by
  cases a with
  | range =>
    simp only [LeavesLast, Classical.not_forall] at early
    obtain ⟨thrown, j, hj, later, running⟩ := early
    obtain ⟨at_loop, inside, x, awaited⟩ := thrown_iff.mp thrown
    have left : t = { s with range := { s.range with phase := .ended (.exception x) } } := by
      simpa [step, rangeStep, at_loop, inside, awaited] using taken.symm
    subst left
    have start := (reached_coroutines reached).range.inside (not_ended (.inl at_loop))
    obtain ⟨k, l, first, second, ended, done⟩ := Joined.finishes (r := .exception x) start
    refine ⟨[.range, .range], { s with range := l }, j, ?_, done, hj, Bool.eq_false_iff.mpr running⟩
    have one : (system cfg).step { s with range := { s.range with phase := .ended (.exception x) } }
        .range = some { s with range := k } := congrArg (Option.map _) first
    have two : (system cfg).step { s with range := k } .range = some { s with range := l } := by
      simp only [system, step, rangeStep, ended, second, Option.map_some]
    rw [replay_cons one, replay_cons two]
    rfl
  | _ => exact absurd trivial early

/-- when_all, parsections and parfor: with every await that throws being the last one under way,
the coroutine completes after its tasks and no frame goes before its task; and a loop that is left
earlier can complete with a task under way. -/
theorem completes_last (cfg : Config V E) :
    (∀ s, ReachedUnder (system cfg) LeavesLast s →
      (s.completed cfg.combinator = true →
        ∀ i, i < cfg.combinator.tasks → (s.tasks i).frame.done = true) ∧
      ∀ i, i < s.size → (s.tasks i).frame.alive = false → (s.tasks i).frame.done = true) ∧
    ∀ s a t, Reached (system cfg) s → ¬ LeavesLast s a → step cfg s a = some t →
      ∃ as u i, replay (system cfg) t as = some u ∧ u.range.co.frame.done = true ∧ i < u.size ∧
        (u.tasks i).frame.done = false :=
  ⟨fun _ reached => ⟨fun completed _ task => (reached_chained reached).completed completed task,
      fun _ created dead => (reached_chained reached).destroyed created dead⟩,
    fun _ _ _ reached early taken => left_early reached early taken⟩

def twoSections (failing : Nat) : Config Empty Nat where
  combinator := .parsections 2
  body i :=
    { isVoid := true
      suspensions := 1
      result := if i = failing then .exception 7 else .returnVoid
      typed := ⟨fun _ => rfl, by intro v; split <;> exact nofun⟩ }

/-- parsections creates the sections, which wait in the pool, and calls when_all. -/
def callRun (sections : List Act) : List Act :=
  [.caller, .task 0, .caller, .task 1] ++ sections ++ [.caller, .container]

/-- The awaits above the loop, from its end to the end of parsections. -/
def unwindRun : List Act :=
  List.replicate 7 .range ++ List.replicate 13 .container ++ List.replicate 9 .caller

/-- Both sections have run before the first is awaited; the last one has thrown. -/
def sectionsRun : List Act :=
  callRun (List.replicate 7 (.task 0) ++ List.replicate 7 (.task 1)) ++ List.replicate 13 .range ++
    unwindRun

def sections : State Empty Nat :=
  (replay (system (twoSections 1)) (initial (twoSections 1)) sectionsRun).get (by decide +kernel)

theorem completes_last_sections :
    sections.completed (.parsections 2) = true ∧ (sections.tasks 0).frame.done = true ∧
      (sections.tasks 1).frame.done = true := by
  have allowed : ReplaysUnder (system (twoSections 1)) LeavesLast (initial (twoSections 1))
      sectionsRun := by decide +kernel
  have reached : ReachedUnder (system (twoSections 1)) LeavesLast sections :=
    (ReachedUnder.start rfl).replay sectionsRun allowed (Option.some_get _).symm
  have completed : sections.completed (.parsections 2) = true := by decide +kernel
  have last := ((completes_last (twoSections 1)).1 sections reached).1 completed
  exact ⟨completed, last 0 (by decide), last 1 (by decide)⟩

/-- The first section throws while the second is queued. -/
def failedRun : List Act :=
  callRun (List.replicate 7 (.task 0)) ++ List.replicate 6 .range ++ unwindRun

def failed : State Empty Nat :=
  (replay (system (twoSections 0)) (initial (twoSections 0)) failedRun).get (by decide +kernel)

/-- parsections completes, and the frame of the queued section has been destroyed. -/
theorem early_failure :
    ¬ ∀ s, Reached (system (twoSections 0)) s →
      (s.completed (.parsections 2) = true → ∀ i, i < 2 → (s.tasks i).frame.done = true) ∧
      ∀ i, i < s.size → (s.tasks i).frame.alive = false → (s.tasks i).frame.done = true := by
  intro completes
  have reached : Reached (system (twoSections 0)) failed :=
    (Reached.start rfl).replay failedRun (Option.some_get _).symm
  have queued : (failed.tasks 1).frame.done = false := by decide +kernel
  have completed : failed.completed (.parsections 2) = true := by decide +kernel
  cases queued.symm.trans ((completes failed reached).1 completed 1 (by decide))

end Pot.WhenAll
