import Pot.ExecutorsInvariant
import Pot.ExecutorsLedger
import Pot.ExecutorsThreads

/-! What has been executed when shutdown() returns. m_tasks is drained by the worker_loops that
the threads have come to; a thread that leaves its own loop first drains nothing. -/
namespace Pot.Executors
open Transition

variable {Sid Kid : Type} {n : Nat}

theorem runStep_cases {cls : ThreadClass} {s u : cls.State} (called : cls.runStep s = some u) :
    ∃ a, (a ≠ .worker ∧ a ≠ .stop) ∧ cls.step s a = some u := by
  rw [ThreadClass.runStep, Option.or_eq_some_iff] at called
  rcases called with called | ⟨_, called⟩
  · exact ⟨_, ⟨by simp, by simp⟩, called⟩
  · exact ⟨_, ⟨by simp, by simp⟩, called⟩

theorem joinStep_cases {cls : ThreadClass} {s u : cls.State} (called : cls.joinStep s = some u) :
    ∃ a, a ≠ .worker ∧ cls.step s a = some u := by
  rw [ThreadClass.joinStep, Option.or_eq_some_iff] at called
  rcases called with called | ⟨_, called⟩
  · exact ⟨_, by simp, called⟩
  · exact ⟨_, by simp, called⟩

def Constructor.past : Constructor → Nat → Bool
  | .create k, i | .run k, i => i < k
  | .done, _ => true

/-- The threads of a pool, with the worker_loops in them and the destructors on them. -/
structure Threads {cfg : Config} (laws : cfg.cls.Laws) (s : State cfg.cls Sid Kid n) : Prop where
  component : ∀ i, Reached cfg.cls.system (s.thread i)
  entered : ∀ i, laws.entered (s.thread i) ∨ cfg.cls.running (s.thread i) = true → s.loop i ≠ .idle
  resting : ∀ i, cfg.cls.running (s.thread i) = false → s.loop i = .idle ∨ s.loop i = .returned
  ran : ∀ i : Fin n, s.constructor.past i = true → cfg.cls.ran (s.thread i) = true
  built : ∀ k, s.shutdown k ≠ .idle → s.constructor = .done
  joins : ∀ k i, s.shutdown k = .join i → ∀ j : Fin n, j < i → cfg.cls.joined (s.thread j) = true
  returned : ∀ k, s.shutdown k = .returned → ∀ j, cfg.cls.joined (s.thread j) = true
  asked : ∀ i, laws.asked (s.thread i) → s.m_stop = true ∧ s.constructor = .done

section Moves
variable {cfg : Config} {laws : cfg.cls.Laws} {s t : State cfg.cls Sid Kid n}

theorem Threads.thread (h : Threads laws s) {i : Fin n} {a : Thread.Act Unit} {u : cfg.cls.State}
    (called : cfg.cls.step (s.thread i) a = some u)
    (same : t.thread = Function.update s.thread i u ∧ t.constructor = s.constructor ∧
      t.shutdown = s.shutdown ∧ t.m_stop = s.m_stop)
    (others : ∀ j, j ≠ i → t.loop j = s.loop j)
    (entered : laws.entered u ∨ cfg.cls.running u = true → t.loop i ≠ .idle)
    (resting : cfg.cls.running u = false → t.loop i = .idle ∨ t.loop i = .returned)
    (asked : laws.asked u → s.m_stop = true ∧ s.constructor = .done) : Threads laws t := by
  obtain ⟨thread, constructor, shutdown, stop⟩ := same
  have joined : ∀ j, cfg.cls.joined (s.thread j) = true → cfg.cls.joined (t.thread j) = true := by
    intro j before
    rw [thread, Function.update_apply]
    split
    · exact laws.joined_step called (‹j = i› ▸ before)
    · exact before
  refine ⟨fun j => ?_, fun j hj => ?_, fun j hj => ?_, fun j past => ?_, fun k busy => ?_,
    fun k m at_pc j before => ?_, fun k at_pc j => ?_, fun j hj => ?_⟩
  · rw [thread, Function.update_apply]
    split
    · exact (h.component i).next called
    · exact h.component j
  · rw [thread, Function.update_apply] at hj
    split at hj
    · exact ‹j = i› ▸ entered hj
    · rw [others j ‹_›]
      exact h.entered j hj
  · rw [thread, Function.update_apply] at hj
    split at hj
    · exact ‹j = i› ▸ resting hj
    · rw [others j ‹_›]
      exact h.resting j hj
  · have before := h.ran j (constructor ▸ past)
    rw [thread, Function.update_apply]
    split
    · exact laws.ran_step called (‹j = i› ▸ before)
    · exact before
  · rw [constructor]
    exact h.built k (shutdown ▸ busy)
  · exact joined j (h.joins k m (shutdown ▸ at_pc) j before)
  · exact joined j (h.returned k (shutdown ▸ at_pc) j)
  · rw [stop, constructor]
    rw [thread, Function.update_apply] at hj
    split at hj
    · exact asked hj
    · exact h.asked j hj

theorem Threads.call (h : Threads laws s) {i : Fin n} {a : Thread.Act Unit} {u : cfg.cls.State}
    (called : cfg.cls.step (s.thread i) a = some u) (other : a ≠ .worker)
    (asked : a = .stop → s.m_stop = true ∧ s.constructor = .done) :
    Threads laws (s.setThread i u) := by
  have running := laws.running_step called other
  refine h.thread called ⟨rfl, rfl, rfl, rfl⟩ (fun _ _ => rfl) (fun hu => ?_) (fun hu => ?_)
    (fun hu => ?_)
  · refine h.entered i ?_
    rw [← running]
    exact hu.elim (fun entered => (laws.entered_step called entered)) .inr
  · exact h.resting i (running ▸ hu)
  · rcases laws.asked_step called hu with before | ⟨stop, _⟩
    · exact h.asked i before
    · exact asked stop

theorem Threads.goto (h : Threads laws s) {i : Fin n} {p : Loop Sid}
    (busy : cfg.cls.running (s.thread i) = true) (some : p ≠ .idle)
    (loop : t.loop = Function.update s.loop i p)
    (same : t.thread = s.thread ∧ t.constructor = s.constructor ∧ t.shutdown = s.shutdown ∧
      t.m_stop = s.m_stop) : Threads laws t := by
  obtain ⟨thread, constructor, shutdown, stop⟩ := same
  refine ⟨thread ▸ h.component, fun j hj => ?_, fun j hj => ?_, by rw [thread, constructor]; exact h.ran,
    by rw [constructor, shutdown]; exact h.built, by rw [thread, shutdown]; exact h.joins,
    by rw [thread, shutdown]; exact h.returned, by rw [thread, stop, constructor]; exact h.asked⟩
  · rw [loop, Function.update_apply]
    split
    · exact some
    · exact h.entered j (thread ▸ hj)
  · rw [thread] at hj
    rw [loop, Function.update_apply]
    split
    · rw [‹j = i›, busy] at hj
      cases hj
    · exact h.resting j hj

theorem Threads.blocked (h : Threads laws s) {i : Fin n} (blocked : s.loop i = .blocked) :
    cfg.cls.running (s.thread i) = true := by
  by_contra off
  rcases h.resting i (Bool.not_eq_true _ ▸ off) with at_pc | at_pc
  · cases blocked.symm.trans at_pc
  · cases blocked.symm.trans at_pc

theorem loop_threads {i : Fin n} (h : Threads laws s) (busy : cfg.cls.running (s.thread i) = true)
    (step : LoopSteps cfg s i t) : Threads laws t := by
  cases step with
  | nothing => exact h.goto busy (by split <;> simp) rfl ⟨rfl, rfl, rfl, rfl⟩
  | _ => exact h.goto busy (by simp) rfl ⟨rfl, rfl, rfl, rfl⟩

theorem Threads.setShutdown [DecidableEq Kid] (h : Threads laws s) {k : Kid} {p : Shutdown}
    (shutdown : t.shutdown = Function.update s.shutdown k p) (built : s.constructor = .done)
    (joins : ∀ i, p = .join i → ∀ j : Fin n, j < i → cfg.cls.joined (s.thread j) = true)
    (returned : p = .returned → ∀ j, cfg.cls.joined (s.thread j) = true)
    (same : t.thread = s.thread ∧ t.constructor = s.constructor ∧ t.loop = s.loop)
    (stop : s.m_stop = true → t.m_stop = true) : Threads laws t := by
  obtain ⟨thread, constructor, loop⟩ := same
  refine ⟨thread ▸ h.component, by rw [thread, loop]; exact h.entered,
    by rw [thread, loop]; exact h.resting, by rw [thread, constructor]; exact h.ran,
    fun _ _ => constructor.trans built, fun m i at_pc => ?_, fun m at_pc => ?_, fun i asked => ?_⟩
  · rw [shutdown, Function.update_apply] at at_pc
    rw [thread]
    split at at_pc
    · exact joins i at_pc
    · exact h.joins m i at_pc
  · rw [shutdown, Function.update_apply] at at_pc
    rw [thread]
    split at at_pc
    · exact returned at_pc
    · exact h.returned m at_pc
  · rw [thread] at asked
    exact ⟨stop (h.asked i asked).1, constructor.trans built⟩

theorem Threads.construct (h : Threads laws s) {c : Constructor} (building : s.constructor ≠ .done)
    (past : ∀ i : Fin n, c.past i = true → cfg.cls.ran (s.thread i) = true) :
    Threads laws { s with constructor := c } :=
  ⟨h.component, h.entered, h.resting, past, fun k busy => absurd (h.built k busy) building,
    h.joins, h.returned, fun i asked => absurd (h.asked i asked).2 building⟩

end Moves

section Steps
variable [DecidableEq Sid] [DecidableEq Kid] {cfg : Config} {laws : cfg.cls.Laws}
  {s t : State cfg.cls Sid Kid n} {a : Act Sid Kid n}

theorem step_threads (guarded : Guarded s) (h : Threads laws s) (taken : step cfg s a = some t) :
    Threads laws t := by
  cases step_cases taken with
  | @create k at_pc more =>
    refine h.construct (by simp [at_pc]) fun i past => h.ran i ?_
    rw [at_pc]
    exact past
  | @created k at_pc all =>
    refine h.construct (by simp [at_pc]) fun i _ => h.ran i ?_
    rw [at_pc]
    exact decide_eq_true (Nat.lt_of_lt_of_le i.isLt all)
  | @ran i at_pc ran =>
    refine h.construct (by simp [at_pc]) fun j past => ?_
    rcases Nat.lt_succ_iff_lt_or_eq.mp (of_decide_eq_true past) with before | last
    · exact h.ran j (by rw [at_pc]; exact decide_eq_true before)
    · rw [Fin.ext last]
      exact ran
  | run _ called =>
    obtain ⟨a, ⟨other, noStop⟩, called⟩ := runStep_cases called
    exact h.call called other fun stop => absurd stop noStop
  | @join k u i at_pc called =>
    obtain ⟨a, other, called⟩ := joinStep_cases called
    refine h.call called other fun _ => ⟨guarded.stopped k (by rw [at_pc]; rfl), h.built k ?_⟩
    rw [at_pc]
    simp
  | wakeThread called => exact h.call called (by simp) (by simp)
  | @enter i u free worker now =>
    refine h.thread worker ⟨rfl, rfl, rfl, rfl⟩ (fun j other => Function.update_of_ne other ..)
      (fun _ => ?_) (fun off => ?_) (fun asked => ?_)
    · simp [State.goto]
    · cases now.symm.trans off
    · exact h.asked i ((laws.asked_step worker asked).resolve_right (by simp))
  | @thread i u free worker now =>
    have out : s.loop i = .idle ∨ s.loop i = .returned := free.elim (h.resting i) .inr
    refine h.thread worker ⟨rfl, rfl, rfl, rfl⟩ (fun _ _ => rfl) (fun hu => ?_) (fun _ => out)
      (fun asked => h.asked i ((laws.asked_step worker asked).resolve_right (by simp)))
    rcases hu with entered | busy
    · exact h.entered i (laws.entered_step worker entered |>.imp_right fun busy => by
        cases now.symm.trans busy)
    · cases now.symm.trans busy
  | loop busy step => exact loop_threads h busy step
  | wakeLoop blocked => exact h.goto (h.blocked blocked) (by simp) rfl ⟨rfl, rfl, rfl, rfl⟩
  | notifyOne _ blocked => exact h.goto (h.blocked blocked) (by simp) rfl ⟨rfl, rfl, rfl, rfl⟩
  | execute | lock | refuse | accept | emplace | unlock | throw | notifyNone =>
    exact ⟨h.component, h.entered, h.resting, h.ran, h.built, h.joins, h.returned, h.asked⟩
  | shutdown _ built => exact h.setShutdown rfl built (by simp) (by simp) ⟨rfl, rfl, rfl⟩ id
  | @stopLock k at_pc | @found k at_pc | @first k at_pc | @stopUnlock k at_pc
  | @unlockReturn k at_pc =>
    exact h.setShutdown rfl (h.built k (by simp [at_pc])) (by simp) (by simp) ⟨rfl, rfl, rfl⟩ id
  | @set k at_pc =>
    exact h.setShutdown rfl (h.built k (by simp [at_pc])) (by simp) (by simp) ⟨rfl, rfl, rfl⟩
      fun _ => rfl
  | @joined k i at_pc joined =>
    refine h.setShutdown rfl (h.built k (by simp [at_pc])) (fun m eq j before => ?_) (by simp)
      ⟨rfl, rfl, rfl⟩ id
    cases eq
    rcases Nat.lt_succ_iff_lt_or_eq.mp before with earlier | last
    · exact h.joins k i at_pc j earlier
    · rw [Fin.ext last]
      exact joined
  | @cleared k i at_pc all =>
    exact h.setShutdown rfl (h.built k (by simp [at_pc])) (by simp)
      (fun _ j => h.joins k i at_pc j (Nat.lt_of_lt_of_le j.isLt all)) ⟨rfl, rfl, rfl⟩ id
  | @notifyAll k at_pc =>
    have woken : Threads laws { s with loop := fun i => (s.loop i).unblock } := by
      refine ⟨h.component, fun i hi => ?_, fun i hi => ?_, h.ran, h.built, h.joins, h.returned,
        h.asked⟩
      · have some := h.entered i hi
        cases hl : s.loop i <;> simp_all [Loop.unblock]
      · exact (h.resting i hi).imp (fun eq => by simp [eq, Loop.unblock])
          fun eq => by simp [eq, Loop.unblock]
    refine woken.setShutdown rfl (h.built k (by simp [at_pc])) (fun m eq j before => ?_) (by simp)
      ⟨rfl, rfl, rfl⟩ id
    cases eq
    exact absurd before (Nat.not_lt_zero _)

end Steps

/-- Everything that holds of a pool whatever the threads do. -/
structure Inv {cfg : Config} (laws : cfg.cls.Laws) (s : State cfg.cls Sid Kid n) [DecidableEq Sid] :
    Prop where
  exclusive : Exclusive s
  guarded : Guarded s
  ledger : Ledger s
  threads : Threads laws s

/-- When shutdown() sets the stop flag of the last thread, this thread is not at the check that
leaves its own loop with its worker_loop still queued; unless m_tasks is empty by then. -/
def TakesInTime (cfg : Config) (s : State cfg.cls Sid Kid n) : Act Sid Kid n → Prop
  | .stop k => ∀ i : Fin n, i + 1 = n → s.shutdown k = .join i →
      cfg.cls.stopping (s.thread i) = true → cfg.cls.late (s.thread i) = false ∨ s.m_tasks = []
  | _ => True

/-- Once the last thread has been asked to stop, m_tasks is empty or it will be drained there. -/
def Served {cfg : Config} (laws : cfg.cls.Laws) (s : State cfg.cls Sid Kid n) : Prop :=
  ∀ i : Fin n, i + 1 = n → laws.asked (s.thread i) → s.m_tasks = [] ∨ laws.safe (s.thread i)

/-- No thread comes to its worker_loop any more. -/
def Deserted {cfg : Config} (laws : cfg.cls.Laws) (s : State cfg.cls Sid Kid n) : Prop :=
  ∀ i, laws.gone (s.thread i) ∨ cfg.cls.joined (s.thread i) = true

/-- A call throws and its function does not run, or its function runs once at most; when the
shutdown() that set m_stop returns, the queue is empty and what was accepted has been run, an empty
function skipped; and no front() meets an empty queue. -/
structure Settled (cfg : Config) [DecidableEq Sid] (s : State cfg.cls Sid Kid n) : Prop where
  refused : ∀ sid what, s.call sid = .threw what →
    what = "Executor " ++ cfg.m_name ++ " is stopped." ∧ s.executed.count sid = 0
  once : ∀ sid, s.executed.count sid ≤ 1
  drained : ∀ k, s.shutdown k = .returned → s.m_tasks = [] ∧
    ∀ sid callable, (s.call sid).accepted = some callable →
      s.executed.count sid = callable.toNat ∧ s.skipped.count sid = (!callable).toNat
  defined : ∀ i, s.loop i ≠ .undefined

section Joined
variable [DecidableEq Sid] {cfg : Config} {laws : cfg.cls.Laws} {s : State cfg.cls Sid Kid n}

theorem joined_all (h : Inv laws s) {k : Kid} (returned : s.shutdown k = .returned) (i : Fin n) :
    s.loop i = .idle ∨ s.loop i = .returned :=
  h.threads.resting i
    (laws.joined_idle (h.threads.component i) (h.threads.returned k returned i)).2

/-- The last thread to be destroyed has drained the queue, unless it was empty before. -/
theorem emptied (h : Inv laws s) (served : Served laws s) {i : Fin n} (last : i + 1 = n) {k : Kid}
    (returned : s.shutdown k = .returned) : s.m_tasks = [] := by
  have component := h.threads.component i
  have joined := h.threads.returned k returned i
  have asked := (laws.joined_idle component joined).1
  refine (served i last asked).elim id fun safe => ?_
  have ran := h.threads.ran i (by rw [(h.threads.asked i asked).2]; rfl)
  have entered := h.threads.entered i (.inl (laws.safe_joined component ran safe joined))
  have left := (joined_all h returned i).resolve_left entered
  have ok := h.guarded.loops i
  rw [left] at ok
  exact ok.2

end Joined

section Runs
variable [DecidableEq Sid] [DecidableEq Kid] {cfg : Config} {laws : cfg.cls.Laws}
  {s t : State cfg.cls Sid Kid n} {a : Act Sid Kid n}

theorem step_inv (h : Inv laws s) (taken : step cfg s a = some t) : Inv laws t := by
  refine ⟨step_exclusive h.exclusive taken, step_guarded h.exclusive h.guarded taken,
    step_ledger (fun i free => ?_) h.ledger taken, step_threads h.guarded h.threads taken⟩
  rcases free.elim (h.threads.resting i) .inr with at_pc | at_pc <;> rw [at_pc] <;> rfl

theorem reached_inv (laws : cfg.cls.Laws) (reached : Reached (system cfg Sid Kid n) s) :
    Inv laws s := by
  refine Reached.invariant (I := fun s : State cfg.cls Sid Kid n => Inv laws s) ?_
    (fun _ a _ h taken => step_inv (a := a) h taken) reached
  rintro _ rfl
  obtain ⟨entered, asked, running⟩ := laws.fresh
  refine ⟨?_, ⟨?_, ?_, fun _ => trivial⟩, ⟨fun sid => ?_, ?_, ?_, ?_, ?_, ?_⟩, ?_⟩
  · rintro (i | sid | k) entered <;> cases entered
  · exact fun _ _ at_pc => by cases at_pc
  · exact fun _ past => by cases past
  · have none : Tally.total (Loop.holds sid) (initial cfg.cls Sid Kid n).loop = 0 :=
      Tally.total_eq_zero.mpr fun _ => rfl
    rw [none]
    rfl
  · exact fun _ hx => by cases hx
  · exact fun _ _ hx => by cases hx
  · exact fun _ _ hx => by cases hx
  · exact fun _ hx => by cases hx
  · exact fun _ hx => by cases hx
  · refine ⟨fun _ => .start rfl, fun i hi => ?_, fun _ _ => .inl rfl, fun i past => ?_,
      fun k busy => absurd rfl busy, fun _ _ at_pc => (by cases at_pc), fun _ at_pc => (by cases at_pc),
      fun _ hi => absurd hi asked⟩
    · rcases hi with hi | hi
      · exact absurd hi entered
      · cases running.symm.trans hi
    · exact absurd (of_decide_eq_true (show decide (i.val < 0) = true from past)) (Nat.not_lt_zero _)

theorem step_served (h : Inv laws s) (served : Served laws s) (inTime : TakesInTime cfg s a)
    (taken : step cfg s a = some t) : Served laws t := by
  have closed : ∀ {i}, laws.asked (s.thread i) → s.m_stop = true := fun asked =>
    (h.threads.asked _ asked).1
  have ran : ∀ {i}, laws.asked (s.thread i) → cfg.cls.ran (s.thread i) = true := fun asked =>
    h.threads.ran _ (by rw [(h.threads.asked _ asked).2]; rfl)
  -- a thread takes a step that is no stop, or the last one was asked before
  have moved : ∀ {i : Fin n} {b u}, cfg.cls.step (s.thread i) b = some u →
      (b = .stop → cfg.cls.stopping (s.thread i) = true → i + 1 = n →
        s.m_tasks = [] ∨ cfg.cls.late (s.thread i) = false ∧ cfg.cls.ran (s.thread i) = true) →
      Served laws (s.setThread i u) := by
    intro i b u called fresh j last asked
    simp only [State.setThread, Function.update_apply] at asked ⊢
    split at asked
    · subst j
      rw [if_pos rfl]
      rcases laws.asked_step called asked with before | ⟨stop, stopping⟩
      · exact (served i last before).imp_right fun safe =>
          laws.safe_step (h.threads.component i) (ran before) safe called
      · refine (fresh stop stopping last).imp_right fun ⟨late, ran⟩ => ?_
        exact laws.safe_stop (h.threads.component i) ran late stopping (stop ▸ called)
    · rw [if_neg ‹_›]
      exact served j last asked
  cases step_cases taken with
  | run _ called =>
    obtain ⟨b, ⟨_, noStop⟩, called⟩ := runStep_cases called
    exact moved called fun stop => absurd stop noStop
  | @join k u i at_pc called =>
    obtain ⟨b, _, called⟩ := joinStep_cases called
    refine moved called fun _ stopping last => ?_
    have built := h.threads.built k (by rw [at_pc]; simp)
    exact (inTime i last at_pc stopping).symm.imp_right fun late =>
      ⟨late, h.threads.ran i (by rw [built]; rfl)⟩
  | wakeThread called => exact moved called (by simp)
  | thread _ called => exact moved called (by simp)
  | enter _ called => exact moved called (by simp)
  | emplace at_pc =>
    intro i last asked
    cases (h.guarded.opened _ _ at_pc).symm.trans (closed asked)
  | loop _ step =>
    cases step with
    | take _ tasks =>
      intro i last asked
      refine .inr ((served i last asked).resolve_left fun empty => ?_)
      cases tasks.symm.trans empty
    | _ => exact served
  | _ => exact served

theorem under_served (laws : cfg.cls.Laws) (reached : ReachedUnder (system cfg Sid Kid n) (TakesInTime cfg) s) :
    Served laws s := by
  induction reached with
  | start eq =>
    cases eq
    exact fun _ _ asked => absurd asked laws.fresh.2.1
  | next before inTime taken ih => exact step_served (reached_inv laws before.reached) ih inTime taken

theorem step_threw (h : ∀ sid what, s.call sid = .threw what →
      what = "Executor " ++ cfg.m_name ++ " is stopped.") (taken : step cfg s a = some t) :
    ∀ sid what, t.call sid = .threw what → what = "Executor " ++ cfg.m_name ++ " is stopped." := by
  have moved : ∀ {d : Sid} {p : Call}, (∀ what, p = .threw what →
      what = "Executor " ++ cfg.m_name ++ " is stopped.") → ∀ sid what,
      Function.update s.call d p sid = .threw what →
      what = "Executor " ++ cfg.m_name ++ " is stopped." := by
    intro d p fresh sid what threw
    rw [Function.update_apply] at threw
    split at threw
    · exact fresh what threw
    · exact h sid what threw
  cases step_cases taken with
  | throw => exact moved fun what eq => by cases eq; rfl
  | execute | lock | refuse | accept | emplace | unlock | notifyOne | notifyNone =>
    exact moved fun what eq => by cases eq
  | loop _ step => cases step <;> exact h
  | _ => exact h

theorem reached_threw (reached : Reached (system cfg Sid Kid n) s) (sid : Sid) (what : String)
    (threw : s.call sid = .threw what) : what = "Executor " ++ cfg.m_name ++ " is stopped." := by
  refine Reached.invariant (I := fun s : State cfg.cls Sid Kid n => ∀ sid what,
    s.call sid = .threw what → what = "Executor " ++ cfg.m_name ++ " is stopped.") ?_
    (fun _ a _ h taken => step_threw (a := a) h taken) reached sid what threw
  rintro _ rfl _ _ threw
  cases threw

theorem settled_of_served (reached : Reached (system cfg Sid Kid n) s) (served : Served laws s)
    (positive : 0 < n) : Settled cfg s := by
  have h := reached_inv laws reached
  have place := h.ledger.place
  refine ⟨fun sid what threw => ⟨reached_threw reached sid what threw, ?_⟩, fun sid => ?_,
    fun k returned => ?_, fun i undefined => ?_⟩
  · have none := place sid
    rw [threw] at none
    simp only [Call.accepted, Option.isSome_none, Bool.toNat_false, State.outside] at none
    omega
  · have one := place sid
    have bound := Bool.toNat_le (s.call sid).accepted.isSome
    simp only [State.outside] at one
    omega
  · have empty := emptied h served (i := ⟨n - 1, by omega⟩) (Nat.sub_add_cancel positive) returned
    refine ⟨empty, fun sid callable accepted => ?_⟩
    have free : Tally.total (Loop.holds sid) s.loop = 0 := Tally.total_eq_zero.mpr fun i => by
      rcases joined_all h returned i with at_pc | at_pc <;> rw [at_pc] <;> rfl
    have one := place sid
    rw [free, accepted] at one
    simp only [State.outside, empty, List.map_nil, List.sum_nil, Option.isSome_some,
      Bool.toNat_true] at one
    cases callable with
    | true =>
      have kept : s.skipped.count sid = 0 := List.count_eq_zero.mpr fun mem => by
        cases accepted.symm.trans (h.ledger.skipped sid mem)
      exact ⟨by rw [Bool.toNat_true]; omega, kept⟩
    | false =>
      have kept : s.executed.count sid = 0 := List.count_eq_zero.mpr fun mem => by
        cases accepted.symm.trans (h.ledger.executed sid mem)
      exact ⟨kept, by rw [Bool.not_false, Bool.toNat_true]; omega⟩
  · have ok := h.guarded.loops i
    rw [undefined] at ok
    exact ok

theorem step_deserted (h : Inv laws s) (deserted : Deserted laws s) {x : Item Sid}
    (left : x ∈ s.m_tasks) (taken : step cfg s a = some t) :
    Deserted laws t ∧ x ∈ t.m_tasks := by
  have off : ∀ i, cfg.cls.running (s.thread i) = false := fun i =>
    (deserted i).elim laws.gone_idle fun joined =>
      (laws.joined_idle (h.threads.component i) joined).2
  have moved : ∀ {i : Fin n} {b u}, cfg.cls.step (s.thread i) b = some u →
      Deserted laws (s.setThread i u) := by
    intro i b u called j
    simp only [State.setThread, Function.update_apply]
    split
    · exact (deserted i).imp (fun gone => laws.gone_step gone called) (laws.joined_step called)
    · exact deserted j
  cases step_cases taken with
  | run _ called =>
    obtain ⟨b, _, called⟩ := runStep_cases called
    exact ⟨moved called, left⟩
  | join _ called =>
    obtain ⟨b, _, called⟩ := joinStep_cases called
    exact ⟨moved called, left⟩
  | wakeThread called => exact ⟨moved called, left⟩
  | thread _ called => exact ⟨moved called, left⟩
  | enter _ called => exact ⟨moved called, left⟩
  | loop busy => cases (off _).symm.trans busy
  | emplace => exact ⟨deserted, List.mem_append_left _ left⟩
  | _ => exact ⟨deserted, left⟩

/-- The last thread leaves without its worker_loop while functions are queued. -/
theorem late_deserted (h : Inv laws s) (late : ¬ TakesInTime cfg s a) (taken : step cfg s a = some t) :
    Deserted laws t ∧ ∃ x, x ∈ t.m_tasks := by
  cases a with
  | stop k =>
    simp only [TakesInTime, not_forall, not_or, Bool.not_eq_false] at late
    obtain ⟨i, last, at_pc, stopping, late, some⟩ := late
    have before : ∀ j : Fin n, j ≠ i → cfg.cls.joined (s.thread j) = true := fun j other =>
      h.threads.joins k i at_pc j (by have := Fin.val_ne_of_ne other; omega)
    obtain ⟨x, hx⟩ := List.exists_mem_of_ne_nil _ some
    simp only [step, stopStep, at_pc, Fin.is_lt, dif_pos] at taken
    split at taken
    · rename_i done
      cases taken
      refine ⟨fun j => .inr ?_, x, hx⟩
      by_cases same : j = i
      · exact same ▸ done
      · exact before j same
    · obtain ⟨u, called, rfl⟩ := Option.map_eq_some_iff.mp taken
      rw [ThreadClass.joinStep, laws.stopping_join stopping, Option.none_or] at called
      refine ⟨fun j => ?_, x, hx⟩
      simp only [State.setThread, Function.update_apply]
      split
      · exact .inl (laws.gone_stop late stopping called)
      · exact .inr (before j ‹_›)
  | _ => exact absurd trivial late

theorem never_run (reached : Reached (system cfg Sid Kid n) s) (deserted : Deserted laws s)
    {x : Item Sid} (left : x ∈ s.m_tasks) (as : List (Act Sid Kid n))
    (run : replay (system cfg Sid Kid n) s as = some t) :
    (t.call x.call).accepted.isSome = true ∧ t.executed.count x.call = 0 ∧
      t.skipped.count x.call = 0 := by
  have kept : ∀ (s : State cfg.cls Sid Kid n) a t,
      (Reached (system cfg Sid Kid n) s ∧ Deserted laws s ∧ x ∈ s.m_tasks) →
      (system cfg Sid Kid n).step s a = some t →
      Reached (system cfg Sid Kid n) t ∧ Deserted laws t ∧ x ∈ t.m_tasks := by
    rintro s a t ⟨reached, deserted, left⟩ taken
    exact ⟨reached.next taken, step_deserted (a := a) (reached_inv laws reached) deserted left taken⟩
  obtain ⟨reached, -, left⟩ := replay_invariant kept ⟨reached, deserted, left⟩ as run
  have h := reached_inv laws reached
  have accepted := h.ledger.queued x left
  have one := h.ledger.place x.call
  have here : 1 ≤ (t.m_tasks.map (Item.counts x.call)).sum := by
    have mine : Item.counts x.call x = 1 := if_pos rfl
    exact mine ▸ List.le_sum_of_mem (List.mem_map_of_mem left)
  rw [accepted] at one
  simp only [State.outside, Option.isSome_some, Bool.toNat_true] at one
  exact ⟨by rw [accepted]; rfl, by omega, by omega⟩

/-- A pool on either kind of thread: in the runs that take the worker_loop in time every call is
settled; and after a step that does not, an accepted function is never run, whatever follows. -/
theorem runs_accepted (laws : cfg.cls.Laws) (positive : 0 < n) :
    (∀ s, ReachedUnder (system cfg Sid Kid n) (TakesInTime cfg) s → Settled cfg s) ∧
    ∀ s t a as u, Reached (system cfg Sid Kid n) s → ¬ TakesInTime cfg s a → step cfg s a = some t →
      replay (system cfg Sid Kid n) t as = some u →
      ∃ sid, (u.call sid).accepted.isSome = true ∧ u.executed.count sid = 0 ∧
        u.skipped.count sid = 0 := by
  constructor
  · exact fun s reached => settled_of_served reached.reached (under_served laws reached) positive
  · intro s t a as u reached late taken run
    obtain ⟨deserted, x, left⟩ := late_deserted (reached_inv laws reached) late taken
    exact ⟨x.call, never_run (reached.next (a := a) taken) deserted left as run⟩

end Runs

instance (cfg : Config) [DecidableEq Sid] (s : State cfg.cls Sid Kid n) :
    (a : Act Sid Kid n) → Decidable (TakesInTime cfg s a)
  | .stop k => decidable_of_iff (∀ i : Fin n, i + 1 = n → s.shutdown k = .join i →
      cfg.cls.stopping (s.thread i) = true → cfg.cls.late (s.thread i) = false ∨
        s.m_tasks.isEmpty = true) (by simp only [TakesInTime, List.isEmpty_iff])
  | .construct | .execute _ _ | .call _ | .notifyOne _ _ | .worker _ | .wake _ | .shutdown _ =>
    isTrue trivial

/-- thread_pool_executor_gq, whose threads leave at a while test. -/
theorem gq_runs_accepted (name : String) (Sid Kid : Type) [DecidableEq Sid] [DecidableEq Kid]
    (n : Nat) (positive : 0 < n) :
    (∀ s, ReachedUnder (system (thread_pool_executor_gq name) Sid Kid n)
      (TakesInTime (thread_pool_executor_gq name)) s → Settled (thread_pool_executor_gq name) s) ∧
    ∀ s t a as u, Reached (system (thread_pool_executor_gq name) Sid Kid n) s →
      ¬ TakesInTime (thread_pool_executor_gq name) s a →
      step (thread_pool_executor_gq name) s a = some t →
      replay (system (thread_pool_executor_gq name) Sid Kid n) t as = some u →
      ∃ sid, (u.call sid).accepted.isSome = true ∧ u.executed.count sid = 0 ∧
        u.skipped.count sid = 0 :=
  runs_accepted Thread.singleLaws positive

def construction : List (Act Unit Unit 1) := List.replicate 8 .construct

def submission : List (Act Unit Unit 1) :=
  .execute () true :: List.replicate 4 (.call ()) ++ [.notifyOne () none]

def work (k : Nat) : List (Act Unit Unit 1) := List.replicate k (.worker (Fin.last 0))

def closing : List (Act Unit Unit 1) := .shutdown () :: List.replicate 5 (.stop ())

def joining (k : Nat) : List (Act Unit Unit 1) := List.replicate k (.stop ())

def gqRun : List (Act Unit Unit 1) :=
  construction ++ work 5 ++ submission ++ work 5 ++ closing ++ work 5 ++ joining 3 ++ work 1 ++
    joining 3

def gqInitial : State pot_thread Unit Unit 1 := initial pot_thread Unit Unit 1

def gqClosed : State pot_thread Unit Unit 1 :=
  (replay (system (thread_pool_executor_gq "pool") Unit Unit 1) gqInitial gqRun).get rfl

theorem gq_runs_accepted_closed :
    gqClosed.shutdown () = .returned ∧ gqClosed.executed = [()] ∧
      Settled (thread_pool_executor_gq "pool") gqClosed := by
  have reached : ReachedUnder (system (thread_pool_executor_gq "pool") Unit Unit 1)
      (TakesInTime (thread_pool_executor_gq "pool")) gqClosed :=
    ReachedUnder.replay (.start rfl) gqRun (by decide) (Option.some_get _).symm
  exact ⟨rfl, rfl, (gq_runs_accepted "pool" Unit Unit 1 (by decide)).1 gqClosed reached⟩

/-- shutdown() comes before the thread's first while test. -/
def gqAtOnce : List (Act Unit Unit 1) :=
  construction ++ submission ++ closing ++ joining 3 ++ work 1 ++ joining 3

theorem gq_drops : ¬ ∀ s, Reached (system (thread_pool_executor_gq "pool") Unit Unit 1) s →
    Settled (thread_pool_executor_gq "pool") s := by
  intro always
  have reached : Reached (system (thread_pool_executor_gq "pool") Unit Unit 1)
      ((replay (system (thread_pool_executor_gq "pool") Unit Unit 1) gqInitial gqAtOnce).get rfl) :=
    Reached.replay (.start rfl) gqAtOnce (Option.some_get _).symm
  cases ((always _ reached).drained () rfl).1

/-- thread_pool_executor_lfgq, whose threads look at the flag after a pop that found nothing. -/
theorem lfgq_runs_accepted (name : String) (Sid Kid : Type) [DecidableEq Sid] [DecidableEq Kid]
    (n : Nat) (positive : 0 < n) :
    (∀ s, ReachedUnder (system (thread_pool_executor_lfgq name) Sid Kid n)
      (TakesInTime (thread_pool_executor_lfgq name)) s → Settled (thread_pool_executor_lfgq name) s) ∧
    ∀ s t a as u, Reached (system (thread_pool_executor_lfgq name) Sid Kid n) s →
      ¬ TakesInTime (thread_pool_executor_lfgq name) s a →
      step (thread_pool_executor_lfgq name) s a = some t →
      replay (system (thread_pool_executor_lfgq name) Sid Kid n) t as = some u →
      ∃ sid, (u.call sid).accepted.isSome = true ∧ u.executed.count sid = 0 ∧
        u.skipped.count sid = 0 :=
  runs_accepted ThreadLf.singleLaws positive

def lfgqRun : List (Act Unit Unit 1) :=
  construction ++ work 1 ++ submission ++ work 5 ++ closing ++ work 5 ++ joining 4 ++ work 2 ++
    joining 3

def lfgqInitial : State pot_thread_lf Unit Unit 1 := initial pot_thread_lf Unit Unit 1

def lfgqClosed : State pot_thread_lf Unit Unit 1 :=
  (replay (system (thread_pool_executor_lfgq "pool") Unit Unit 1) lfgqInitial lfgqRun).get rfl

theorem lfgq_runs_accepted_closed :
    lfgqClosed.shutdown () = .returned ∧ lfgqClosed.executed = [()] ∧
      Settled (thread_pool_executor_lfgq "pool") lfgqClosed := by
  have reached : ReachedUnder (system (thread_pool_executor_lfgq "pool") Unit Unit 1)
      (TakesInTime (thread_pool_executor_lfgq "pool")) lfgqClosed :=
    ReachedUnder.replay (.start rfl) lfgqRun (by decide) (Option.some_get _).symm
  exact ⟨rfl, rfl, (lfgq_runs_accepted "pool" Unit Unit 1 (by decide)).1 lfgqClosed reached⟩

/-- The thread's first pop comes before run(), and its look at the flag after request_stop(). -/
def lfgqBetween : List (Act Unit Unit 1) :=
  [.construct] ++ work 1 ++ List.replicate 7 .construct ++ submission ++ closing ++ joining 4 ++
    work 1 ++ joining 3

theorem lfgq_drops : ¬ ∀ s, Reached (system (thread_pool_executor_lfgq "pool") Unit Unit 1) s →
    Settled (thread_pool_executor_lfgq "pool") s := by
  intro always
  have reached : Reached (system (thread_pool_executor_lfgq "pool") Unit Unit 1)
      ((replay (system (thread_pool_executor_lfgq "pool") Unit Unit 1) lfgqInitial lfgqBetween).get
        rfl) :=
    Reached.replay (.start rfl) lfgqBetween (Option.some_get _).symm
  cases ((always _ reached).drained () rfl).1

end Pot.Executors
