import Mathlib.Algebra.Order.BigOperators.Group.Finset
import Pot.TaskDelivery
import Pot.WhenAllCompletion

/-! The outcome of when_all over a range, with the completion of a task as one event: the loop
meets a task before, during or after that event, and what it ends with depends on the list alone. -/
namespace Pot.WhenAll
open Transition

variable {V E : Type}

/-- From the end of the body to the final suspension in one step: the result is stored, m_awaiter
exchanged, m_ready set, and the awaiter resumed. -/
def completion (cfg : Task.Config V E) (s : Task.State V E) : Option (Task.State V E) :=
  match s.frame.coro with
  | .running 0 => replay (Task.system cfg) s (List.replicate 6 .complete)
  | _ => Task.step cfg s .complete

def atomicStep (cfg : Config V E) (s : State V E) : Act → Option (State V E)
  | .task i =>
    if i < s.size then (completion (cfg.task i) (s.tasks i)).map (s.setTask i) else none
  | a => step cfg s a

def atomicSystem (cfg : Config V E) : System (State V E) Act where
  start s := s = initial cfg
  step := atomicStep cfg

/-- when_all(begin, end) over tasks with these bodies. -/
def rangeOf (bodies : List (Task.Body V E)) : Config V E where
  combinator := .range bodies.length
  body i := bodies.getD i ⟨true, 0, .returnVoid, fun _ => rfl, nofun⟩

def failure : Task.Result V E → Option E
  | .exception e => some e
  | _ => none

/-- The first failure of the list, as an exception of when_all. -/
def firstFailure (bodies : List (Task.Body V E)) : Result E :=
  match bodies.findSome? fun body => failure body.result with
  | some e => .exception (.user e)
  | none => .returnVoid

/-- The task of when_all holds this result for whoever awaits it. -/
def State.gives (s : State V E) (r : Result E) : Prop :=
  s.range.phase = .ended r ∧ s.range.co.frame.m_data = r.data ∧ s.range.co.frame.m_ready = true

theorem completion_replays {cfg : Task.Config V E} {s t : Task.State V E}
    (taken : completion cfg s = some t) :
    ∃ n, replay (Task.system cfg) s (List.replicate (n + 1) .complete) = some t := by
  unfold completion at taken
  split at taken
  · exact ⟨5, taken⟩
  · refine ⟨0, ?_⟩
    rw [List.replicate_one, replay_cons taken]
    rfl

/-- Before its completion or after it, and never on the way. -/
def Settled : Task.Coro → Prop
  | .running _ | .suspended _ | .finalSuspended => True
  | _ => False

/-- A task of the range with the co_await on it: what the consumer ends with is the task's own
outcome, since it never waits between the accesses of the completion. -/
structure Awaited (cfg : Task.Config V E) (s : Task.State V E) : Prop where
  inv : Task.Inv cfg s
  handed : Task.Handed s
  delivers : Task.Delivers cfg.body s.frame s.consumer
  settled : Settled s.frame.coro

theorem completes_awaited {cfg : Task.Config V E} (way : cfg.way = .coAwait) (n : Nat)
    {s t : Task.State V E} (inv : Task.Inv cfg s) (handed : Task.Handed s)
    (delivers : Task.Delivers cfg.body s.frame s.consumer)
    (run : replay (Task.system cfg) s (List.replicate n .complete) = some t) :
    Task.Inv cfg t ∧ Task.Handed t ∧ Task.Delivers cfg.body t.frame t.consumer ∧
      t.left cfg + n ≤ s.left cfg := by
  induction n generalizing s with
  | zero => cases run; exact ⟨inv, handed, delivers, Nat.le_refl _⟩
  | succ n ih =>
    rw [List.replicate_succ] at run
    simp only [replay, Option.bind_eq_some_iff] at run
    obtain ⟨u, taken, rest⟩ := run
    have hu : Task.step cfg s .complete = some u := taken
    have lowers := Task.step_left inv hu (.inr ⟨handed.unarmed, way⟩)
    have ok : Task.WaitOk s .complete := trivial
    obtain ⟨inv', handed', delivers', bound⟩ := ih (Task.step_inv inv hu)
      (Task.step_handed inv handed way hu) (Task.step_delivers inv delivers ok hu) rest
    exact ⟨inv', handed', delivers', by omega⟩

theorem completion_final {cfg : Task.Config V E} {s t : Task.State V E}
    (at_end : s.frame.coro = .running 0)
    (run : replay (Task.system cfg) s (List.replicate 6 .complete) = some t) :
    t.frame.coro = .finalSuspended := by
  obtain ⟨f, c, log⟩ := s
  obtain ⟨m_ready, m_awaiter, m_data, steal, done, alive, coro, stale⟩ := f
  cases at_end
  cases m_awaiter <;>
    simp [List.replicate, replay, Task.system, Task.step, Task.Frame.complete, Task.Frame.goto,
      Task.Frame.touch] at run
  all_goals rw [← run]

theorem completion_settled {cfg : Task.Config V E} {s t : Task.State V E}
    (h : Settled s.frame.coro) (taken : completion cfg s = some t) : Settled t.frame.coro := by
  unfold completion at taken
  split at taken
  · rw [completion_final ‹_› taken]
    trivial
  · rename_i under_way
    obtain ⟨⟨g, signal⟩, hg, rfl⟩ := Option.map_eq_some_iff.mp taken
    cases Task.complete_cases hg with
    | suspend | wake | noop | handOff => trivial
    | store at_end => exact absurd at_end under_way
    | finish at_pc | exchange at_pc | ready at_pc | notify at_pc => rw [at_pc] at h; exact h.elim

theorem Awaited.completes {cfg : Task.Config V E} (way : cfg.way = .coAwait)
    {s t : Task.State V E} (h : Awaited cfg s) (taken : completion cfg s = some t) :
    Awaited cfg t ∧ t.left cfg < s.left cfg := by
  obtain ⟨n, run⟩ := completion_replays taken
  obtain ⟨inv, handed, delivers, bound⟩ :=
    completes_awaited way (n + 1) h.inv h.handed h.delivers run
  exact ⟨⟨inv, handed, delivers, completion_settled h.settled taken⟩, by omega⟩

theorem Awaited.ready {cfg : Task.Config V E} {s : Task.State V E} (h : Awaited cfg s)
    (entered : s.consumer.entered = true) : s.frame.m_ready = true := by
  have late := h.handed.late entered
  have settled := h.settled
  rw [h.inv.frame.ready]
  generalize s.frame.coro = c at late settled
  cases c with
  | finalSuspended => rfl
  | running | suspended => exact absurd late (by simp [Task.Coro.rank])
  | _ => exact settled.elim

theorem Awaited.consume {cfg : Task.Config V E} (kind : cfg.kind = .task)
    (way : cfg.way = .coAwait) {s t : Task.State V E} (h : Awaited cfg s)
    (taken : Task.step cfg s .consume = some t) : Awaited cfg t ∧ t.left cfg < s.left cfg := by
  have waits : Task.WaitOk s .consume := fun at_wait => .inl (h.ready (by rw [at_wait]; rfl))
  have same := consume_coro kind way h.inv taken
  exact ⟨⟨Task.step_inv h.inv taken, Task.step_handed h.inv h.handed way taken,
    Task.step_delivers h.inv h.delivers waits taken, same ▸ h.settled⟩,
    Task.step_left h.inv taken (.inr ⟨h.handed.unarmed, way⟩)⟩

theorem initial_awaited {cfg : Task.Config V E} (kind : cfg.kind = .task) :
    Awaited cfg (Task.initial cfg) := by
  refine ⟨Task.initial_inv cfg, ⟨rfl, nofun, trivial, rfl⟩, trivial, ?_⟩
  simp only [Task.initial, Task.initialFrame, kind]
  trivial

/-- The tasks before `pos` have been awaited without a throw. -/
structure Looping (bodies : List (Task.Body V E)) (s : State V E) : Prop where
  tasks : ∀ i, Awaited ((rangeOf bodies).task i) (s.tasks i)
  size : s.size = bodies.length
  bound : s.pos ≤ bodies.length
  called : s.range.phase ≠ .uncalled
  alone : s.container.phase = .uncalled ∧ s.caller.phase = .uncalled
  passed : ∀ body ∈ bodies.take s.pos, failure body.result = none
  ended : ∀ r, s.range.phase = .ended r → r = firstFailure bodies

theorem initial_looping (bodies : List (Task.Body V E)) :
    Looping bodies (initial (rangeOf bodies)) where
  tasks _ := initial_awaited rfl
  size := rfl
  bound := Nat.zero_le _
  called := nofun
  alone := ⟨rfl, rfl⟩
  passed _ mem := by cases mem
  ended _ := nofun

theorem firstFailure_none {bodies : List (Task.Body V E)}
    (succeed : ∀ body ∈ bodies, failure body.result = none) :
    firstFailure bodies = .returnVoid := by
  rw [firstFailure, List.findSome?_eq_none_iff.mpr succeed]

theorem firstFailure_at {bodies : List (Task.Body V E)} {i : Nat} (inside : i < bodies.length)
    {e : E} (fails : failure bodies[i].result = some e)
    (before : ∀ body ∈ bodies.take i, failure body.result = none) :
    firstFailure bodies = .exception (.user e) := by
  have split : bodies = bodies.take i ++ bodies[i] :: bodies.drop (i + 1) := by simp
  have found : (bodies.findSome? fun body => failure body.result) = some e := by
    rw [split, List.findSome?_append, List.findSome?_eq_none_iff.mpr before, Option.none_or,
      List.findSome?_cons_of_isSome (by simp [fails]), fails]
  rw [firstFailure, found]

theorem outcome_returned {V E : Type} {r : Task.Result V E} {v : Option V}
    (h : .returned v = r.outcome) : failure r = none := by
  cases r with
  | exception => cases h
  | returnVoid | value => rfl

theorem outcome_threw {V E : Type} {r : Task.Result V E} {x : Task.Thrown E}
    (h : .threw x = r.outcome) : ∃ e, failure r = some e ∧ x = .user e := by
  cases r with
  | exception e => cases h; exact ⟨e, rfl, rfl⟩
  | returnVoid | value => cases h

theorem Looping.setTask {bodies : List (Task.Body V E)} {s : State V E} (h : Looping bodies s)
    {i : Nat} {u : Task.State V E} (awaited : Awaited ((rangeOf bodies).task i) u) :
    Looping bodies (s.setTask i u) := by
  refine ⟨fun j => ?_, h.size, h.bound, h.called, h.alone, h.passed, h.ended⟩
  by_cases same : j = i
  · subst same
    simpa [State.setTask] using awaited
  · simpa [State.setTask, Function.update_of_ne same] using h.tasks j

theorem body_at {bodies : List (Task.Body V E)} {i : Nat} (inside : i < bodies.length) :
    (rangeOf bodies).body i = bodies[i] := by
  simp [rangeOf, inside]

theorem atomic_cases {cfg : Config V E} {s t : State V E} {a : Act}
    (taken : atomicStep cfg s a = some t) :
    (∃ i u, a = .task i ∧ i < s.size ∧ completion (cfg.task i) (s.tasks i) = some u ∧
      t = s.setTask i u) ∨ (∀ i, a ≠ .task i) ∧ Steps cfg s a t := by
  cases a with
  | task i =>
    simp only [atomicStep] at taken
    split at taken
    · obtain ⟨u, hu, rfl⟩ := Option.map_eq_some_iff.mp taken
      exact .inl ⟨i, u, rfl, ‹_›, hu, rfl⟩
    · cases taken
  | range => exact .inr ⟨nofun, range_cases taken⟩
  | container => exact .inr ⟨nofun, container_cases taken⟩
  | caller => exact .inr ⟨nofun, caller_cases taken⟩

theorem complete_phase {j k : Join E} (taken : j.complete = some k) : k.phase = j.phase := by
  unfold Join.complete at taken
  split at taken
  · obtain ⟨co, -, rfl⟩ := Option.map_eq_some_iff.mp taken
    rfl
  · cases taken

theorem complete_lowers {j k : Join E} (taken : j.complete = some k) :
    ∃ r, j.phase = .ended r ∧ k.co.frame.coro.left 0 < j.co.frame.coro.left 0 := by
  unfold Join.complete at taken
  split at taken
  · rename_i r ended
    obtain ⟨co, hco, rfl⟩ := Option.map_eq_some_iff.mp taken
    obtain ⟨⟨g, signal⟩, hg, rfl⟩ := Option.map_eq_some_iff.mp hco
    exact ⟨r, ended, Task.complete_left 0 (Task.complete_cases hg)⟩
  · cases taken

/-- Steps of one task, among the steps of the whole. -/
theorem replay_task {cfg : Config V E} {s : State V E} {i : Nat} (inside : i < s.size) (n : Nat)
    {u : Task.State V E}
    (run : replay (Task.system (cfg.task i)) (s.tasks i) (List.replicate n .complete) = some u) :
    replay (system cfg) s (List.replicate n (.task i)) = some (s.setTask i u) := by
  induction n generalizing s with
  | zero =>
    cases run
    simp [replay, State.setTask]
  | succ n ih =>
    rw [List.replicate_succ] at run ⊢
    simp only [replay, Option.bind_eq_some_iff] at run
    obtain ⟨v, hv, rest⟩ := run
    have first : (system cfg).step s (.task i) = some (s.setTask i v) := by
      have hv' : Task.step (cfg.task i) (s.tasks i) .complete = some v := hv
      simp [system, step, inside, hv']
    have here : (s.setTask i v).tasks i = v := by simp [State.setTask]
    rw [replay_cons first, ih (s := s.setTask i v) inside (by rw [here]; exact rest)]
    simp [State.setTask]

theorem atomic_looping {bodies : List (Task.Body V E)} {s t : State V E} {a : Act}
    (h : Looping bodies s) (taken : atomicStep (rangeOf bodies) s a = some t) :
    Looping bodies t := by
  obtain ⟨containerAlone, callerAlone⟩ := h.alone
  rcases atomic_cases taken with ⟨i, u, rfl, inside, hu, rfl⟩ | ⟨other, step⟩
  · exact h.setTask ((h.tasks i).completes rfl hu).1
  · have finished : ∀ o, (s.tasks s.pos).consumer = .finished o → s.pos < s.size →
        ∃ inside : s.pos < bodies.length, o = bodies[s.pos].result.outcome := by
      intro o done inside
      have good := (h.tasks s.pos).delivers
      rw [done] at good
      have inside' := h.size ▸ inside
      exact ⟨inside', body_at inside' ▸ good⟩
    cases step with
    | @task i => exact absurd rfl (other i)
    | await at_loop hu => exact h.setTask ((h.tasks s.pos).consume rfl rfl hu).1
    | @next v at_loop inside awaited =>
      obtain ⟨inside', good⟩ := finished _ awaited inside
      refine ⟨h.tasks, h.size, inside', h.called, h.alone, fun body mem => ?_, h.ended⟩
      rw [List.take_add_one, List.mem_append] at mem
      rcases mem with earlier | here
      · exact h.passed body earlier
      · rw [List.getElem?_eq_getElem inside', Option.toList_some, List.mem_singleton] at here
        exact here ▸ outcome_returned good
    | @leave x at_loop inside awaited =>
      obtain ⟨inside', good⟩ := finished _ awaited inside
      obtain ⟨e, fails, rfl⟩ := outcome_threw good
      refine ⟨h.tasks, h.size, h.bound, nofun, h.alone, h.passed, fun r ended => ?_⟩
      rw [firstFailure_at inside' fails h.passed]
      cases ended
      rfl
    | last at_loop outside =>
      refine ⟨h.tasks, h.size, h.bound, nofun, h.alone, h.passed, fun r ended => ?_⟩
      have all : bodies.take s.pos = bodies := List.take_of_length_le (h.size ▸ outside)
      rw [firstFailure_none fun body mem => h.passed body (all.symm ▸ mem)]
      cases ended
      rfl
    | rangeEnds hj =>
      have same := complete_phase hj
      exact ⟨h.tasks, h.size, h.bound, same ▸ h.called, h.alone, h.passed,
        fun r ended => h.ended r (same ▸ ended)⟩
    | callRange at_pc | awaitRange at_pc | rangeAwaited at_pc =>
      cases at_pc.symm.trans containerAlone
    | create at_pc | callContainer at_pc | awaitContainer at_pc | containerAwaited at_pc =>
      cases at_pc.symm.trans callerAlone
    | containerEnds hj => simp [Join.complete, containerAlone] at hj
    | callerEnds hj => simp [Join.complete, callerAlone] at hj

/-- What a run of when_all can still do. -/
def State.left (cfg : Config V E) (s : State V E) : Nat :=
  ∑ i ∈ Finset.range s.size, (s.tasks i).left (cfg.task i) + (s.size - s.pos) +
    match s.range.phase with
    | .uncalled => 0
    | .body => 9
    | .ended _ => s.range.co.frame.coro.left 0

theorem setTask_left {cfg : Config V E} {s : State V E} {i : Nat} (inside : i < s.size)
    {u : Task.State V E} (lowers : u.left (cfg.task i) < (s.tasks i).left (cfg.task i)) :
    (s.setTask i u).left cfg < s.left cfg := by
  have sum : ∑ j ∈ Finset.range s.size, ((s.setTask i u).tasks j).left (cfg.task j) <
      ∑ j ∈ Finset.range s.size, (s.tasks j).left (cfg.task j) := by
    refine Finset.sum_lt_sum (fun j _ => ?_) ⟨i, Finset.mem_range.mpr inside, ?_⟩
    · by_cases same : j = i
      · subst same
        simpa [State.setTask] using Nat.le_of_lt lowers
      · simp [State.setTask, Function.update_of_ne same]
    · simpa [State.setTask] using lowers
  simp only [State.left, State.setTask] at sum ⊢
  omega

theorem awaits_inside {cfg : Config V E} {s t : State V E} (taken : rangeStep cfg s = some t)
    (looping : t.range.phase = .body) (kept : s.range.phase = .body) : s.pos < s.size := by
  by_contra outside
  simp only [rangeStep, kept, if_neg outside, Option.some.injEq] at taken
  subst taken
  cases looping

theorem atomic_left {bodies : List (Task.Body V E)} {s t : State V E} {a : Act}
    (h : Looping bodies s) (joined : Joined s.range)
    (taken : atomicStep (rangeOf bodies) s a = some t) :
    t.left (rangeOf bodies) < s.left (rangeOf bodies) := by
  obtain ⟨containerAlone, callerAlone⟩ := h.alone
  rcases atomic_cases taken with ⟨i, u, rfl, inside, hu, rfl⟩ | ⟨other, step⟩
  · exact setTask_left inside ((h.tasks i).completes rfl hu).2
  · cases step with
    | @task i => exact absurd rfl (other i)
    | await at_loop hu =>
      exact setTask_left (awaits_inside taken at_loop at_loop)
        ((h.tasks s.pos).consume rfl rfl hu).2
    | next at_loop inside =>
      simp only [State.left, at_loop]
      omega
    | leave at_loop | last at_loop =>
      have start := joined.inside (not_ended (.inl at_loop))
      simp [State.left, at_loop, start, Task.Coro.left]
    | @rangeEnds j hj =>
      obtain ⟨r, ended, lowers⟩ := complete_lowers hj
      simp only [State.left, complete_phase hj, ended]
      omega
    | callRange at_pc | awaitRange at_pc | rangeAwaited at_pc =>
      cases at_pc.symm.trans containerAlone
    | create at_pc | callContainer at_pc | awaitContainer at_pc | containerAwaited at_pc =>
      cases at_pc.symm.trans callerAlone
    | containerEnds hj => simp [Join.complete, containerAlone] at hj
    | callerEnds hj => simp [Join.complete, callerAlone] at hj

/-- Atomic completions only leave out interleavings. -/
theorem atomic_coarsens (cfg : Config V E) : Coarsens (atomicSystem cfg) (system cfg) := by
  refine ⟨fun _ start => start, fun s a t taken => ?_⟩
  rcases atomic_cases taken with ⟨i, u, rfl, inside, hu, rfl⟩ | ⟨other, -⟩
  · obtain ⟨n, run⟩ := completion_replays hu
    exact ⟨List.replicate (n + 1) (.task i), replay_task inside (n + 1) run⟩
  · have same : step cfg s a = some t := by
      cases a with
      | task i => exact absurd rfl (other i)
      | range | container | caller => exact taken
    have one : (system cfg).step s a = some t := same
    exact ⟨[a], by rw [replay_cons one]; rfl⟩

theorem reached_looping {bodies : List (Task.Body V E)} {s : State V E}
    (reached : Reached (atomicSystem (rangeOf bodies)) s) : Looping bodies s ∧ Joined s.range := by
  refine ⟨reached.invariant (I := Looping bodies) (fun s start => ?_)
    (fun _ _ _ hi taken => atomic_looping hi taken),
    (reached_coroutines ((atomic_coarsens _).reached reached)).range⟩
  cases start
  exact initial_looping bodies

theorem Awaited.final {cfg : Task.Config V E} {s : Task.State V E} (h : Awaited cfg s)
    (stuck : completion cfg s = none) : s.frame.coro = .finalSuspended := by
  obtain ⟨inv, -, -, settled⟩ := h
  have frame := inv.frame
  obtain ⟨f, c, log⟩ := s
  obtain ⟨m_ready, m_awaiter, m_data, steal, done, alive, coro, stale⟩ := f
  simp only at settled frame
  cases coro with
  | running k =>
    cases k with
    | zero =>
      have untouched := frame.sentinel
      cases m_awaiter with
      | sentinel => exact absurd (untouched.mp rfl) (by simp [Task.Coro.rank])
      | null | consumer =>
        simp [completion, List.replicate, replay, Task.system, Task.step, Task.Frame.complete,
          Task.Frame.goto, Task.Frame.touch] at stuck
    | succ k => simp [completion, Task.step, Task.Frame.complete] at stuck
  | suspended k => simp [completion, Task.step, Task.Frame.complete] at stuck
  | finalSuspended => rfl
  | _ => exact settled.elim

theorem Awaited.finishes {cfg : Task.Config V E} {s : Task.State V E} (h : Awaited cfg s)
    (completed : completion cfg s = none) (stuck : Task.step cfg s .consume = none) :
    ∃ o, s.consumer = .finished o := by
  have final := h.final completed
  refine (Task.idle_finished h.inv fun a quiet => ?_).2
  cases a with
  | complete => simp [Task.step, Task.Frame.complete, final]
  | consume => exact stuck
  | steal r =>
    cases hc : s.consumer <;> simp [Task.step, Task.consumeSteal, hc, h.handed.unarmed]
  | wake => exact absurd rfl quiet

theorem Looping.terminal {bodies : List (Task.Body V E)} {s : State V E} (h : Looping bodies s)
    (joined : Joined s.range) (terminal : Terminal (atomicSystem (rangeOf bodies)) s) :
    s.gives (firstFailure bodies) := by
  have idle : rangeStep (rangeOf bodies) s = none := terminal .range
  cases hp : s.range.phase with
  | uncalled => exact absurd hp h.called
  | body =>
    by_cases inside : s.pos < s.size
    · have awaited := h.tasks s.pos
      -- the task has come to its end, so nobody is left suspended on it
      have stuck : completion ((rangeOf bodies).task s.pos) (s.tasks s.pos) = none := by
        have none := terminal (.task s.pos)
        simpa [atomicSystem, atomicStep, inside] using none
      simp only [rangeStep, hp, inside, if_true] at idle
      split at idle
      · cases idle
      · cases idle
      · rename_i returns throws
        obtain ⟨o, done⟩ := awaited.finishes stuck (Option.map_eq_none_iff.mp idle)
        cases o with
        | returned v => exact (returns v done).elim
        | threw x => exact (throws x done).elim
    · simp [rangeStep, hp, inside] at idle
  | ended r =>
    have same := h.ended r hp
    subst same
    refine ⟨hp, ?_⟩
    have stuck : s.range.co.frame.complete s.range.task.body = none := by
      simpa [rangeStep, hp, Join.complete, Task.step] using idle
    have final : s.range.co.frame.coro = .finalSuspended := by
      rcases Task.complete_none stuck with at_init | at_transfer | final
      · cases (joined.inv.started at_init).1
      · exact absurd (by rw [at_transfer]; rfl) joined.inv.frame.prev
      · exact final
    have stored := joined.inv.frame.data (by rw [final]; decide)
    have ready := joined.inv.frame.ready
    rw [final] at ready
    refine ⟨?_, ready⟩
    rw [stored]
    simp only [Join.task, Join.result, hp]

/-- All runs of when_all over one list, whatever the order of the completions among themselves and
between the awaits, end with one result: success when no task fails, and otherwise the exception
of the failing task that comes first in the list. None of them goes on for ever. -/
theorem outcome_of_list (bodies : List (Task.Body V E)) :
    ∃ r : Result E,
      (r = .returnVoid ↔ ∀ body ∈ bodies, failure body.result = none) ∧
      (∀ i (inside : i < bodies.length) e, failure bodies[i].result = some e →
        (∀ body ∈ bodies.take i, failure body.result = none) → r = .exception (.user e)) ∧
      ∀ as s, replay (atomicSystem (rangeOf bodies)) (initial (rangeOf bodies)) as = some s →
        as.length ≤ (initial (rangeOf bodies)).left (rangeOf bodies) ∧
        (∀ r', s.range.phase = .ended r' → r' = r) ∧
        (Terminal (atomicSystem (rangeOf bodies)) s → s.gives r) := by
  refine ⟨firstFailure bodies, ⟨fun success body mem => ?_, firstFailure_none⟩,
    fun i inside e fails before => firstFailure_at inside fails before, fun as s run => ?_⟩
  · cases found : bodies.findSome? fun body => failure body.result with
    | none => exact List.findSome?_eq_none_iff.mp found body mem
    | some e => simp [firstFailure, found] at success
  · have reached : Reached (atomicSystem (rangeOf bodies)) s := (Reached.start rfl).replay as run
    obtain ⟨looping, joined⟩ := reached_looping reached
    refine ⟨?_, looping.ended, looping.terminal joined⟩
    have bound := replay_bounded (atomicSystem (rangeOf bodies))
      (fun s => s.left (rangeOf bodies)) (fun _ _ _ before taken => before.next taken)
      (fun _ _ _ before taken => atomic_left (reached_looping before).1 (reached_looping before).2
        taken) (.start rfl) as run
    omega

end Pot.WhenAll
