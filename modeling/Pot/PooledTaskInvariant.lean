import Pot.PooledTask

/-! Who is to resume do_run: a suspension is owed one resume(), by the pool or by what the
coroutine waits for, and every run ends. -/
namespace Pot.PooledTask
open Transition Pot.Task

variable {V E : Type}

/-- Some thread is in resume(). -/
def Coro.active : Coro → Bool
  | .running _ | .emplaced | .exchanged | .finalSuspend => true
  | _ => false

def Coro.complete : Coro → Bool
  | .exchanged | .finalSuspend | .finished => true
  | _ => false

def Coro.stored : Coro → Bool
  | .emplaced | .exchanged | .finalSuspend | .finished => true
  | _ => false

/-- Where the coroutine stands is what has been resumed. -/
def State.Logged (cfg : Config V E) (s : State V E) : Prop :=
  match s.coro with
  | .suspended k => k ≤ cfg.body.suspensions ∧ s.resumed = List.range k
  | .running k => k ≤ cfg.body.suspensions ∧ s.resumed = List.range (k + 1)
  | .emplaced | .exchanged | .finalSuspend | .finished =>
    s.resumed = List.range (cfg.body.suspensions + 1)
  | .threw => False
  | .undefined => ∃ k, cfg.expected k < s.resumed.count k

/-- Whoever has resumed the coroutine is still in resume(). -/
def State.Held (s : State V E) : Prop :=
  (s.runner = .worker → s.job = .resuming) ∧ (s.runner = .consumer → s.consumer = .resuming)

structure Inv (cfg : Config V E) (s : State V E) : Prop where
  logged : s.Logged cfg
  ready : s.coro ≠ .undefined → s.m_ready = s.coro.complete
  data : s.coro.stored = true → s.m_data = cfg.body.result.data
  held : s.coro.active = true → s.Held

/-- A coroutine that is suspended is owed a resume(). -/
def Coro.waiting : Coro → Nat
  | .suspended _ => 1
  | _ => 0

def Job.resumers : Job → Nat
  | .queued | .popped => 1
  | .resuming | .returned => 0

def Consumer.resumers : Consumer V E → Nat
  | .resume => 1
  | _ => 0

/-- The calls of resume() that are still to come. -/
def State.resumers (s : State V E) : Nat := s.job.resumers + s.pending + s.consumer.resumers

section Moves
variable {cfg : Config V E} {s t : State V E} {a : Act}

theorem resume_cases (cfg : Config V E) (s : State V E) (runner : Runner) :
    (∃ k, s.coro = .suspended k ∧ s.resume cfg runner =
      { s with coro := .running k, runner, resumed := s.resumed ++ [k] }) ∨
    (s.coro.waiting = 0 ∧ s.resume cfg runner =
      { s with coro := .undefined,
               resumed := s.resumed ++ [s.coro.last cfg.body.suspensions] }) := by
  unfold State.resume
  cases s.coro with
  | suspended k => exact .inl ⟨k, rfl, rfl⟩
  | _ => exact .inr ⟨rfl, rfl⟩

/-- A resume() that meets no suspension is the second one of the last, or one of the final. -/
theorem last_exceeds (logged : s.Logged cfg) (defined : s.coro ≠ .undefined)
    (awake : s.coro.waiting = 0) : ∃ k, cfg.expected k <
      (s.resumed ++ [s.coro.last cfg.body.suspensions]).count k := by
  have twice : ∀ k, (List.range (k + 1) ++ [k]).count k = 2 := fun k => by
    rw [List.count_append, List.count_range, if_pos (Nat.lt_succ_self k), List.count_singleton_self]
  have once : ∀ k, k ≤ cfg.body.suspensions → cfg.expected k = 1 := fun k inside => if_pos inside
  unfold State.Logged at logged
  cases at_coro : s.coro with
  | suspended k => rw [at_coro] at awake; cases awake
  | undefined => exact absurd at_coro defined
  | threw => rw [at_coro] at logged; exact logged.elim
  | running k =>
    rw [at_coro] at logged
    refine ⟨k, ?_⟩
    rw [logged.2, once k logged.1, Coro.last, twice]
    exact Nat.lt_succ_self 1
  | emplaced | exchanged =>
    rw [at_coro] at logged
    refine ⟨cfg.body.suspensions, ?_⟩
    rw [logged, once _ (Nat.le_refl _), Coro.last, twice]
    exact Nat.lt_succ_self 1
  | finalSuspend | finished =>
    refine ⟨cfg.body.suspensions + 1, ?_⟩
    rw [Config.expected, if_neg (Nat.not_succ_le_self _), Coro.last, List.count_append,
      List.count_singleton_self]
    exact Nat.succ_pos _

theorem resume_inv (logged : s.Logged cfg) (defined : s.coro ≠ .undefined)
    (ready : s.m_ready = s.coro.complete) {runner : Runner}
    (held : (runner = .worker → s.job = .resuming) ∧
      (runner = .consumer → s.consumer = .resuming)) : Inv cfg (s.resume cfg runner) := by
  rcases resume_cases cfg s runner with ⟨k, at_coro, same⟩ | ⟨awake, same⟩
  · rw [State.Logged, at_coro] at logged
    rw [at_coro] at ready
    rw [same]
    refine ⟨⟨logged.1, ?_⟩, fun _ => ready, nofun, fun _ => held⟩
    rw [logged.2, List.range_succ]
  · rw [same]
    exact ⟨last_exceeds logged defined awake, fun defined => absurd rfl defined, nofun, nofun⟩

theorem consumer_inv (h : Inv cfg s) (free : s.consumer ≠ .resuming) {c : Consumer V E}
    {registered : Bool} {entries : List (Bool × Data V E)} : Inv cfg
      { s with m_continuation := registered, consumer := c, entries } :=
  ⟨h.logged, h.ready, h.data, fun active =>
    ⟨(h.held active).1, fun mine => absurd ((h.held active).2 mine) free⟩⟩

theorem step_inv (h : Inv cfg s) (taken : step cfg s a = some t) : Inv cfg t := by
  obtain ⟨defined, move⟩ := step_cases taken
  have ready := h.ready defined
  have logged := h.logged
  cases move with
  | pop at_job =>
    refine ⟨h.logged, h.ready, h.data, fun active => ⟨fun mine => ?_, (h.held active).2⟩⟩
    have busy := (h.held active).1 mine
    rw [at_job] at busy
    cases busy
  | work at_job =>
    exact resume_inv (s := { s with job := .resuming }) h.logged defined ready
      ⟨fun _ => rfl, nofun⟩
  | awaited some =>
    exact resume_inv (s := { s with pending := s.pending - 1 }) h.logged defined ready
      ⟨nofun, nofun⟩
  | resume at_resume =>
    exact resume_inv (s := { s with consumer := .resuming }) h.logged defined ready
      ⟨nofun, fun _ => rfl⟩
  | ready at_c | early at_c | await_ready at_c | await_suspend at_c | store at_c | done at_c
  | not_done at_c | get at_c =>
    exact consumer_inv h (by rw [at_c]; nofun)
  | suspend at_coro more =>
    rw [State.Logged, at_coro] at logged
    rw [at_coro] at ready
    exact ⟨⟨more, logged.2⟩, fun _ => ready, nofun, nofun⟩
  | emplace at_coro last =>
    rw [State.Logged, at_coro] at logged
    rw [at_coro] at ready
    have whole : s.resumed = List.range (cfg.body.suspensions + 1) := by
      rw [logged.2, Nat.le_antisymm logged.1 last]
    exact ⟨whole, fun _ => ready, fun _ => rfl, fun _ => h.held (at_coro ▸ rfl)⟩
  | again at_coro twice =>
    rw [at_coro, twice] at ready
    cases ready
  | exchange at_coro =>
    rw [State.Logged, at_coro] at logged
    exact ⟨logged, fun _ => rfl, fun _ => h.data (at_coro ▸ rfl), fun _ => h.held (at_coro ▸ rfl)⟩
  | final_suspend at_coro =>
    rw [State.Logged, at_coro] at logged
    rw [at_coro] at ready
    exact ⟨logged, fun _ => ready, fun _ => h.data (at_coro ▸ rfl),
      fun _ => h.held (at_coro ▸ rfl)⟩
  | transfer at_coro | finish at_coro =>
    rw [State.Logged, at_coro] at logged
    rw [at_coro] at ready
    exact ⟨logged, fun _ => ready, fun _ => h.data (at_coro ▸ rfl), nofun⟩

/-- Each suspension is owed one resume(), and there are `extra` more. -/
structure State.Owed (extra : Nat) (s : State V E) : Prop where
  defined : extra = 0 → s.coro ≠ .undefined
  due : s.coro ≠ .undefined → s.resumers = s.coro.waiting + extra

variable {extra : Nat}

theorem resume_owed {runner : Runner} (due : s.resumers + 1 = s.coro.waiting + extra) :
    (s.resume cfg runner).Owed extra := by
  rcases resume_cases cfg s runner with ⟨k, at_coro, same⟩ | ⟨awake, same⟩
  · rw [at_coro, Coro.waiting, Nat.add_comm 1] at due
    rw [same]
    exact ⟨nofun, fun _ => (Nat.succ.inj due).trans (Nat.zero_add extra).symm⟩
  · rw [awake] at due
    rw [same]
    exact ⟨fun none => by omega, fun defined => absurd rfl defined⟩

theorem returns_resumers (held : s.Held) : (s.returns cfg).resumers = s.resumers := by
  obtain ⟨worker, consumer⟩ := held
  simp only [State.resumers, State.returns]
  cases mine : s.runner with
  | worker => rw [worker mine]; rfl
  | consumer => rw [consumer mine]; cases cfg.way <;> rfl
  | other => rfl

theorem step_owed (h : Inv cfg s) (owed : s.Owed extra)
    (kept : s.consumer.resumers = 0 → t.consumer.resumers = 0) (taken : step cfg s a = some t) :
    t.Owed extra := by
  obtain ⟨defined, move⟩ := step_cases taken
  have due := owed.due defined
  have same : ∀ {u : State V E}, u.coro ≠ .undefined → u.resumers = s.resumers →
      u.coro.waiting = s.coro.waiting → u.Owed extra := fun known count waits =>
    ⟨fun _ => known, fun _ => by rw [count, waits, due]⟩
  unfold State.resumers at due
  cases move with
  | pop at_job =>
    refine same defined ?_ rfl
    simp only [State.resumers, at_job, Job.resumers]
  | work at_job =>
    refine resume_owed ?_
    rw [at_job, Job.resumers] at due
    simp only [State.resumers, Job.resumers]
    omega
  | awaited some =>
    refine resume_owed ?_
    simp only [State.resumers]
    omega
  | resume at_resume =>
    refine resume_owed ?_
    rw [at_resume, Consumer.resumers] at due
    simp only [State.resumers, Consumer.resumers]
    omega
  | ready at_c | await_ready at_c | await_suspend at_c | store at_c | done at_c | get at_c =>
    refine same defined ?_ rfl
    simp only [State.resumers, State.enter, at_c, Consumer.resumers]
  | early at_c | not_done at_c =>
    rw [at_c] at kept
    cases kept rfl
  | suspend at_coro more =>
    simp only [at_coro, Coro.waiting] at due
    refine ⟨nofun, fun _ => Eq.trans (returns_resumers ?_) ?_⟩
    · exact h.held (at_coro ▸ rfl)
    · simp only [State.resumers, State.returns, Coro.waiting]
      omega
  | emplace at_coro | exchange at_coro | final_suspend at_coro =>
    exact same nofun rfl (by rw [at_coro]; rfl)
  | again at_coro | transfer at_coro | finish at_coro =>
    refine same nofun (returns_resumers (h.held (at_coro ▸ rfl))) ?_
    rw [at_coro]
    rfl
structure Stuck (cfg : Config V E) (s : State V E) : Prop where
  worker : work cfg s = none
  pending : s.pending = 0
  consumer : consume cfg s = none
  coroutine : complete cfg s = none

theorem terminal_stuck (defined : s.coro ≠ .undefined) (terminal : Terminal (system cfg) s) :
    Stuck cfg s where
  worker := by simpa [system, step, defined] using terminal .worker
  pending := by simpa [system, step, defined] using terminal .awaited
  consumer := by simpa [system, step, defined] using terminal .consumer
  coroutine := by simpa [system, step, defined] using terminal .coroutine

theorem stuck_resumers (stuck : Stuck cfg s) : s.resumers = 0 := by
  obtain ⟨worker, pending, consumer, -⟩ := stuck
  rw [State.resumers, pending]
  unfold work at worker
  unfold consume at consumer
  cases at_job : s.job <;> rw [at_job] at worker <;> try cases worker
  all_goals
    cases at_c : s.consumer <;> rw [at_c] at consumer <;> first | rfl | cases consumer

/-- A bound for the steps to come. -/
def Coro.steps (suspensions : Nat) : Coro → Nat
  | .suspended k => 3 * (suspensions - k) + 5
  | .running k => 3 * (suspensions - k) + 4
  | .emplaced => 3
  | .exchanged => 2
  | .finalSuspend => 1
  | .finished | .threw | .undefined => 0

def Job.steps : Job → Nat
  | .queued => 2
  | .popped => 1
  | .resuming | .returned => 0

def Consumer.steps : Consumer V E → Nat
  | .look => 6
  | .store => 5
  | .check => 4
  | .resume => 3
  | .resuming => 2
  | .wait => 1
  | .finished _ | .left => 0

def State.steps (cfg : Config V E) (s : State V E) : Nat :=
  s.coro.steps cfg.body.suspensions + s.job.steps + s.pending + s.consumer.steps

theorem resume_steps {runner : Runner} : (s.resume cfg runner).steps cfg ≤ s.steps cfg := by
  rcases resume_cases cfg s runner with ⟨k, at_coro, same⟩ | ⟨-, same⟩
  · rw [same]
    simp only [State.steps, at_coro, Coro.steps]
    omega
  · rw [same]
    simp only [State.steps, Coro.steps]
    omega

theorem returns_steps (held : s.Held) : (s.returns cfg).steps cfg ≤ s.steps cfg := by
  obtain ⟨worker, consumer⟩ := held
  have job : (s.returns cfg).job.steps ≤ s.job.steps := by
    simp only [State.returns]
    split
    · exact Nat.zero_le _
    · exact Nat.le_refl _
  have mine : (s.returns cfg).consumer.steps ≤ s.consumer.steps := by
    simp only [State.returns]
    split
    · rw [consumer ‹_›]
      cases cfg.way
      · exact Nat.le_succ 1
      · exact Nat.zero_le 2
    · exact Nat.le_refl _
  simp only [State.steps] at job mine ⊢
  exact Nat.add_le_add (Nat.add_le_add (Nat.add_le_add (Nat.le_refl _) job) (Nat.le_refl _)) mine

theorem step_steps (h : Inv cfg s) (taken : step cfg s a = some t) :
    t.steps cfg < s.steps cfg := by
  obtain ⟨-, move⟩ := step_cases taken
  cases move with
  | pop at_job => simp only [State.steps, at_job, Job.steps]; omega
  | work at_job =>
    refine Nat.lt_of_le_of_lt resume_steps ?_
    simp only [State.steps, at_job, Job.steps]
    omega
  | awaited some =>
    refine Nat.lt_of_le_of_lt resume_steps ?_
    simp only [State.steps]
    omega
  | resume at_c =>
    refine Nat.lt_of_le_of_lt resume_steps ?_
    simp only [State.steps, at_c, Consumer.steps]
    omega
  | ready at_c | early at_c | await_ready at_c | await_suspend at_c | store at_c | done at_c
  | not_done at_c | get at_c =>
    simp only [State.steps, State.enter, at_c, Consumer.steps]
    omega
  | suspend at_coro more =>
    refine Nat.lt_of_le_of_lt (returns_steps ?_) ?_
    · exact h.held (at_coro ▸ rfl)
    · simp only [State.steps, at_coro, Coro.steps]
      omega
  | emplace at_coro | exchange at_coro | final_suspend at_coro =>
    simp only [State.steps, at_coro, Coro.steps]
    omega
  | again at_coro | transfer at_coro | finish at_coro =>
    refine Nat.lt_of_le_of_lt (returns_steps ?_) ?_
    · exact h.held (at_coro ▸ rfl)
    · simp only [State.steps, State.enter, at_coro, Coro.steps]
      omega

end Moves

end Pot.PooledTask
