import Pot.SandboxViews

/-! No lost wake-up: nobody sleeps on a notifier while its container has a task or its pool has
been stopped, unless somebody is about to wake it. -/
namespace Pot.Sandbox
open Transition EventCount

variable {Sid Kid : Type} {n : Nat}

def Shutdown.notifying (contexts : Nat) : Shutdown → Prop
  | .requestStop _ | .notifyAll _ => True
  | .fetchAdd k => k < contexts
  | _ => False

/-- derived_execute is between the publication of its function in context `c` and the end of
its notify_one. -/
def Call.notifying (c : Fin n) (call : Call n) : Prop := call = .fetchAdd c ∨ call = .notify c

variable [NeZero n]

theorem shutdown_ok {cfg : Config} {s t : State Sid Kid n} (ok : ShutdownOk cfg s s.shutdown)
    (step : ShutdownSteps cfg s t) : ShutdownOk cfg t t.shutdown := by
  cases step with
  | exchange at_pc =>
    rw [at_pc] at ok
    exact ⟨ok.1, rfl, fun i hi => absurd hi (Nat.not_lt_zero _)⟩
  | refused at_pc stopped =>
    rw [at_pc] at ok
    cases ok.2.1.symm.trans stopped
  | @request k at_pc inside =>
    rw [at_pc] at ok
    refine ⟨ok.1, ok.2.1, fun i hi => ?_⟩
    simp only [Function.update_apply]
    split
    · rfl
    · rename_i other
      exact ok.2.2 i (Nat.lt_of_le_of_ne (Nat.le_of_lt_succ hi) fun eq => other (Fin.ext eq))
  | @requested k at_pc outside =>
    rw [at_pc] at ok
    exact ⟨ok.1, ok.2.1, fun i => ok.2.2 i (Nat.lt_of_lt_of_le i.2 outside)⟩
  | fetchAdd at_pc inside =>
    rw [at_pc] at ok
    exact ⟨ok.1, ok.2.1, ok.2.2, inside⟩
  | counted at_pc | join at_pc => rw [at_pc] at ok; exact ok
  | notifyAll at_pc => rw [at_pc] at ok; exact ⟨ok.1, ok.2.1, ok.2.2.1⟩
  | clear at_pc => rw [at_pc] at ok; exact ok.2

structure Watched (cfg : Config) (s : State Sid Kid n) : Prop where
  tasks : ∀ i, Good (taskView cfg s (cfg.home i))
  stops : ∀ i, Good (stopView cfg s (cfg.home i))
  shutdown : ShutdownOk cfg s s.shutdown

theorem home_context (cfg : Config) (i : Fin n) : cfg.home i < cfg.contexts n := by
  simp only [Config.home, Config.contexts]
  split
  · exact i.2
  · exact Nat.zero_lt_one

instance (cfg : Config) (i : Fin n) : Nonempty (cfg.Waits (cfg.home i)) := ⟨⟨i, rfl⟩⟩

theorem initial_watched (cfg : Config) : Watched cfg (initial Sid Kid n) := by
  have away : ∀ (i : Fin n) (x : View (cfg.Waits (cfg.home i))), (∀ w, x.waiter w = .away) →
      Good x := fun i x none => by
    refine ⟨fun w v hv => ?_, fun w v hv => ?_, fun all => ?_⟩
    · rw [none w] at hv; cases hv
    · rw [none w] at hv; cases hv
    · obtain ⟨v, hv⟩ := all ⟨i, rfl⟩
      cases (none _).symm.trans hv
  exact ⟨fun i => away i _ fun _ => rfl, fun i => away i _ fun _ => rfl, rfl, rfl, fun _ => rfl⟩

/-- Somebody of a context is awake, or about to be woken, while there is something to do. -/
theorem nothing_to_do {cfg : Config} {s : State Sid Kid n} (h : Watched cfg s) (i : Fin n)
    (blocked : ∀ j, cfg.home j = cfg.home i → ∃ v, s.worker j = .blocked v)
    (calls : ∀ sid, ¬ (s.call sid).notifying (cfg.home i))
    (shutdown : ¬ s.shutdown.notifying (cfg.contexts n)) :
    ¬ Available (s.ctx (cfg.home i)).tasks ∧ s.m_stop = false ∧ ∀ j, s.stop_requested j = false := by
  have quiet : ¬ s.rings (cfg.home i) := by
    rintro (⟨sid, told⟩ | told)
    · exact calls sid (.inr told)
    · rw [told] at shutdown
      exact shutdown trivial
  have paid : ¬ s.shutdown.owes (cfg.home i) := by
    intro owes
    have context := home_context cfg i
    cases hs : s.shutdown with
    | requestStop k => rw [hs] at shutdown; exact shutdown trivial
    | notifyAll k => rw [hs] at shutdown; exact shutdown trivial
    | fetchAdd k =>
      rw [hs] at shutdown owes
      exact shutdown (Nat.lt_of_le_of_lt owes context)
    | _ => rw [hs] at owes; exact owes
  have tasks := (h.tasks i).idle
    (fun j => (blocked j j.2).imp fun v hv => (seeksTask_asleep _ v).mpr hv)
    (fun ⟨sid, owes⟩ => calls sid (.inl owes)) quiet
  have stops := (h.stops i).idle
    (fun j => (blocked j j.2).imp fun v hv => (seeksStop_asleep _ v).mpr hv) paid quiet
  obtain ⟨j, running⟩ := stops
  refine ⟨tasks.choose_spec, ?_⟩
  have ok := h.shutdown
  cases hs : s.shutdown with
  | idle | exchange => rw [hs] at ok; exact ok.2
  | requestStop k | notifyAll k => rw [hs] at shutdown; exact absurd trivial shutdown
  | fetchAdd k | join k => rw [hs] at ok; exact absurd (ok.2.2 j) running
  | returned => rw [hs] at ok; exact absurd (ok.2 j) running

variable [DecidableEq Sid] [DecidableEq Kid]

theorem step_keeps {cfg : Config} {s t : State Sid Kid n} {a : Act Sid Kid n}
    (step : Steps cfg s a t) (other : a ≠ .shutdown) (running : a ≠ .stop) :
    t.size = s.size ∧ t.m_stop = s.m_stop ∧ t.stop_requested = s.stop_requested ∧
      t.shutdown = s.shutdown := by
  cases step with
  | call step => cases step <;> exact ⟨rfl, rfl, rfl, rfl⟩
  | worker step =>
    cases step with
    | popOwn | steal => simp only [State.take]; split <;> exact ⟨rfl, rfl, rfl, rfl⟩
    | _ => exact ⟨rfl, rfl, rfl, rfl⟩
  | thief step => cases step <;> exact ⟨rfl, rfl, rfl, rfl⟩
  | shutdown => exact absurd rfl other
  | stop => exact absurd rfl running
  | _ => exact ⟨rfl, rfl, rfl, rfl⟩

theorem step_shutdownOk {cfg : Config} {s t : State Sid Kid n} {a : Act Sid Kid n}
    (ok : ShutdownOk cfg s s.shutdown) (taken : step cfg s a = some t) :
    ShutdownOk cfg t t.shutdown := by
  have steps := step_cases taken
  by_cases called : a = .shutdown
  · subst called
    cases steps with
    | shutdown at_pc =>
      rw [at_pc] at ok
      exact ok
  · by_cases stopping : a = .stop
    · subst stopping
      cases steps with
      | stop step => exact shutdown_ok ok step
    · obtain ⟨size, m_stop, requested, same⟩ := step_keeps steps called stopping
      rw [same]
      exact shutdownOk_of_keeps ok size m_stop requested

theorem step_views {cfg : Config} {s t : State Sid Kid n} {a : Act Sid Kid n} (h : Watched cfg s)
    (ok : NothingBehind cfg s a) (taken : step cfg s a = some t) (i : Fin n) :
    Step (taskView cfg s (cfg.home i)) (taskView cfg t (cfg.home i)) ∧
      Step (stopView cfg s (cfg.home i)) (stopView cfg t (cfg.home i)) := by
  cases step_cases taken with
  | @submit sid callable runs at_pc =>
    exact ⟨view_post (fun _ _ => rfl) rfl (.imp_left (call_kept _ (by simp [at_pc])))
        (fun _ => .inl) (call_kept _ (by simp [at_pc])),
      view_post (fun _ _ => rfl) rfl (.imp_left (call_kept _ (by simp [at_pc]))) (fun _ => .inl) id⟩
  | call step => exact call_views step
  | @notifyOne sid idx woken at_pc wakes =>
    refine notify_views idx woken wakes rfl rfl rfl (call_kept _ (by simp [at_pc])) id fun other => ?_
    exact .imp_left (call_kept _ (by simpa [at_pc] using Ne.symm other))
  | worker step => exact ⟨worker_taskView step ok, worker_stopView step⟩
  | @wake j v at_pc =>
    exact ⟨view_turn rfl rfl id (fun _ => .inl) id fun _ => by rw [at_pc]; exact .wake,
      view_turn rfl rfl id (fun _ => .inl) id fun _ => by rw [at_pc]; exact .wake⟩
  | trySteal =>
    exact ⟨view_post (fun _ _ => rfl) rfl id (fun _ => .inl) id,
      view_post (fun _ _ => rfl) rfl id (fun _ => .inl) id⟩
  | @thief k t step =>
    cases step with
    | steal at_pc popped =>
      exact ⟨view_post (fun _ _ => rfl) (setTasks_notifier ..) id
          (fun _ some => .inl (setTasks_available popped some)) id,
        view_post (fun _ _ => rfl) (setTasks_notifier ..) id (fun _ => .inl) id⟩
    | _ =>
      exact ⟨view_post (fun _ _ => rfl) rfl id (fun _ => .inl) id,
        view_post (fun _ _ => rfl) rfl id (fun _ => .inl) id⟩
  | shutdown at_pc =>
    have rings : s.rings (cfg.home i) → State.rings { s with
        shutdown := .exchange, before := fun sid => (s.call sid).hasReturned } (cfg.home i) :=
      .imp_right fun h => nomatch at_pc.symm.trans h
    exact ⟨view_post (fun _ _ => rfl) rfl rings (fun _ => .inl) id,
      view_post (fun _ _ => rfl) rfl rings (fun _ => .inl) (by simp [at_pc, Shutdown.owes])⟩
  | stop step => exact shutdown_views h.shutdown (home_context cfg i) step

theorem step_watched {cfg : Config} {s t : State Sid Kid n} {a : Act Sid Kid n} (h : Watched cfg s)
    (ok : NothingBehind cfg s a) (taken : step cfg s a = some t) : Watched cfg t :=
  ⟨fun i => (step_views h ok taken i).1.good (h.tasks i),
    fun i => (step_views h ok taken i).2.good (h.stops i), step_shutdownOk h.shutdown taken⟩

theorem reached_watched {cfg : Config} {s : State Sid Kid n}
    (reached : ReachedUnder (system cfg Sid Kid n) (NothingBehind cfg) s) : Watched cfg s :=
  reached.invariant (I := Watched cfg)
    (fun s (eq : s = initial Sid Kid n) => eq ▸ initial_watched cfg)
    (fun _ _ _ hi ok taken => step_watched hi ok taken)

/-- What holds of every function on its way in holds of every queued one. -/
theorem step_items {cfg : Config} {s t : State Sid Kid n} {a : Act Sid Kid n} (P : Item Sid → Prop)
    (h : ∀ c, ∀ x ∈ (s.ctx c).tasks, P x)
    (new : ∀ sid idx callable runs sequence, s.call sid = .insert idx callable runs →
      P ⟨sid, callable, runs, sequence, cfg.pool.container ≠ .lfqueue⟩)
    (published : ∀ x, P x → P { x with published := true }) (taken : step cfg s a = some t) :
    ∀ c, ∀ x ∈ (t.ctx c).tasks, P x := by
  intro c x hx
  cases task_cases taken c with
  | keep tasks => exact h c x (tasks ▸ hx)
  | pop popped => exact h c x ((pop_eq_some.mp popped).1 ▸ List.mem_cons_of_mem _ hx)
  | insert at_pc _ tasks =>
    rw [tasks] at hx
    rcases List.mem_cons.mp ((emplace_perm _ _ _).mem_iff.mp hx) with rfl | old
    · exact new _ _ _ _ _ at_pc
    · exact h c x old
  | publish _ tasks =>
    rw [tasks] at hx
    obtain ⟨y, hy, rfl⟩ := List.mem_map.mp hx
    split
    · exact published y (h c y hy)
    · exact h c y hy

theorem reached_published {cfg : Config} {s : State Sid Kid n}
    (locked : cfg.pool.container ≠ .lfqueue) (reached : Reached (system cfg Sid Kid n) s) :
    ∀ c, ∀ x ∈ (s.ctx c).tasks, x.published = true :=
  Reached.invariant (I := fun s => ∀ c, ∀ x ∈ (s.ctx c).tasks, x.published = true)
    (fun s (eq : s = initial Sid Kid n) => by rw [eq]; exact fun _ _ hx => nomatch hx)
    (fun _ _ _ hi taken => step_items _ hi (fun _ _ _ _ _ _ => decide_eq_true locked)
      (fun _ _ => rfl) taken) reached

def SubmitsCallable (_ : State Sid Kid n) : Act Sid Kid n → Prop
  | .submit _ callable _ => callable = true
  | _ => True

def Call.callable : Call n → Bool
  | .loadStop callable _ | .index callable _ | .insert _ callable _ => callable
  | _ => true

theorem step_callable {cfg : Config} {s t : State Sid Kid n} {a : Act Sid Kid n}
    (h : ∀ sid, (s.call sid).callable = true) (ok : SubmitsCallable s a)
    (taken : step cfg s a = some t) : ∀ sid, (t.call sid).callable = true := by
  have moved : ∀ {sid : Sid} {q : Call n}, q.callable = true →
      ∀ d, (Function.update s.call sid q d).callable = true := by
    intro sid q hq d
    simp only [Function.update_apply]
    split
    · exact hq
    · exact h d
  cases step_cases taken with
  | submit => exact moved ok
  | @call sid t step =>
    have before := h sid
    cases step with
    | full => exact h
    | global at_pc | round at_pc | index at_pc => rw [at_pc] at before; exact moved before
    | _ => exact moved rfl
  | notifyOne => exact moved rfl
  | worker step =>
    cases step with
    | popOwn | steal => rw [(take_keeps ..).1]; exact h
    | _ => exact h
  | thief step => cases step <;> exact h
  | stop step => cases step <;> exact h
  | _ => exact h

theorem behind_of_callable {cfg : Config} {s : State Sid Kid n}
    (reached : ReachedUnder (system cfg Sid Kid n) SubmitsCallable s) :
    ReachedUnder (system cfg Sid Kid n) (NothingBehind cfg) s ∧
      (∀ sid, (s.call sid).callable = true) ∧ ∀ c, ∀ x ∈ (s.ctx c).tasks, x.callable = true := by
  induction reached with
  | start h =>
    cases h
    exact ⟨.start rfl, fun _ => rfl, fun _ _ hx => nomatch hx⟩
  | @next s a t _ ok taken ih =>
    obtain ⟨before, calls, items⟩ := ih
    refine ⟨before.next ?_ taken, step_callable calls ok taken,
      step_items _ items (fun sid _ _ _ _ at_pc => ?_) (fun _ h => h) taken⟩
    · cases a with
      | worker i busy =>
        intro v task rest _ hpop empty
        have callable := items _ task ((pop_eq_some.mp hpop).1 ▸ List.mem_cons_self)
        cases callable.symm.trans empty
      | _ => trivial
    · have callable := calls sid
      rw [at_pc] at callable
      exact callable

/-- thread_pool_executor_gq: not all workers sleep with a task queued or the pool stopped, once
every call that queued one, or stopped it, has notified. -/
theorem gq_no_lost_wakeup {cfg : Config} (pool : cfg.pool = .gq) {s : State Sid Kid n}
    (reached : ReachedUnder (system cfg Sid Kid n) (NothingBehind cfg) s) :
    ¬ ((∀ i, ∃ v, s.worker i = .blocked v) ∧ (∀ sid c, ¬ (s.call sid).notifying c) ∧
      ¬ s.shutdown.notifying (cfg.contexts n) ∧
      ((s.ctx 0).tasks ≠ [] ∨ s.m_stop = true ∨ ∃ i, s.stop_requested i = true)) := by
  rintro ⟨blocked, calls, shutdown, something⟩
  have shared : ∀ i : Fin n, cfg.home i = 0 := fun i => by simp [Config.home, pool, Pool.isLocal]
  obtain ⟨tasks, running, unrequested⟩ := nothing_to_do (reached_watched reached) (0 : Fin n)
    (fun j _ => blocked j) (fun sid => calls sid _) shutdown
  rcases something with queued | stopped | ⟨i, requested⟩
  · obtain ⟨x, rest, hx⟩ := List.exists_cons_of_ne_nil queued
    have published := reached_published (by simp [pool, Pool.container]) reached.reached 0 x
      (hx ▸ List.mem_cons_self)
    rw [shared 0, hx] at tasks
    exact tasks (available_cons.mpr published)
  · cases running.symm.trans stopped
  · cases (unrequested i).symm.trans requested

/-- thread_pool_executor_lqlf_steal_seq: no worker sleeps while the next ticket of its own queue
is published, once the calls that target it, and shutdown, have notified. -/
theorem lqlf_no_stranded_task {cfg : Config} (pool : cfg.pool = .lqlfStealSeq) {s : State Sid Kid n}
    (reached : ReachedUnder (system cfg Sid Kid n) (NothingBehind cfg) s) (i : Fin n) :
    ¬ ((∃ v, s.worker i = .blocked v) ∧ (∀ sid, ¬ (s.call sid).notifying i) ∧
      ¬ s.shutdown.notifying (cfg.contexts n) ∧
      ∃ x rest, (s.ctx i).tasks = x :: rest ∧ x.published = true) := by
  rintro ⟨blocked, calls, shutdown, x, rest, hx, published⟩
  have own : ∀ j : Fin n, cfg.home j = j := fun j => by simp [Config.home, pool, Pool.isLocal]
  have tasks := (nothing_to_do (reached_watched reached) i
    (fun j same => by rw [own j, own i] at same; exact same ▸ blocked)
    (fun sid => (own i).symm ▸ calls sid) shutdown).1
  rw [own i, hx] at tasks
  exact tasks (available_cons.mpr published)

def submission (sid : Bool) (callable : Bool) (accesses : Nat) : List (Act Bool Empty 1) :=
  .submit sid callable 0 :: List.replicate accesses (.call sid) ++ [.notifyOne sid fun _ => false]

def work (accesses : Nat) : List (Act Bool Empty 1) := List.replicate accesses (.worker 0 false)

def workRun (accesses : Nat) : List (Act Bool Empty 1) := submission true true accesses ++ work 9

def emptyFirst (accesses : Nat) : List (Act Bool Empty 1) :=
  submission false false accesses ++ submission true true accesses ++ work 5

def gqSystem : System (State Bool Empty 1) (Act Bool Empty 1) := system ⟨.gq, "pool"⟩ Bool Empty 1

def gqWorked : State Bool Empty 1 := (replay gqSystem (initial Bool Empty 1) (workRun 3)).get rfl

theorem gq_no_lost_wakeup_worked :
    gqWorked.executed = [true] ∧ gqWorked.worker 0 = .blocked 1 ∧ (gqWorked.ctx 0).tasks = [] := by
  have allowed : ReplaysUnder gqSystem SubmitsCallable (initial Bool Empty 1) (workRun 3) :=
    ⟨rfl, trivial, trivial, trivial, trivial, trivial, trivial, trivial, trivial, trivial, trivial,
      trivial, trivial, trivial, trivial⟩
  have reached : ReachedUnder gqSystem SubmitsCallable gqWorked :=
    (ReachedUnder.start rfl).replay _ allowed (Option.some_get _).symm
  refine ⟨rfl, rfl, ?_⟩
  by_contra queued
  refine gq_no_lost_wakeup rfl (behind_of_callable reached).1 ⟨fun i => ⟨1, ?_⟩, fun sid c => ?_, id,
    .inl queued⟩
  · cases Fin.fin_one_eq_zero i
    rfl
  · cases sid <;> rintro (h | h) <;> cases h

theorem gq_empty_function :
    ¬ ∀ s, Reached gqSystem s →
      ¬ ((∀ i, ∃ v, s.worker i = .blocked v) ∧ (∀ sid c, ¬ (s.call sid).notifying c) ∧
        ¬ s.shutdown.notifying (Config.contexts ⟨.gq, "pool"⟩ 1) ∧
        ((s.ctx 0).tasks ≠ [] ∨ s.m_stop = true ∨ ∃ i, s.stop_requested i = true)) := by
  intro wakes
  have reached : Reached gqSystem
      ((replay gqSystem (initial Bool Empty 1) (emptyFirst 3)).get rfl) :=
    (Reached.start rfl).replay _ (Option.some_get _).symm
  refine wakes _ reached ⟨fun i => ⟨2, ?_⟩, fun sid c => ?_, id, .inl (by decide)⟩
  · cases Fin.fin_one_eq_zero i
    rfl
  · cases sid <;> rintro (h | h) <;> cases h

def lqlfSystem : System (State Bool Empty 1) (Act Bool Empty 1) :=
  system ⟨.lqlfStealSeq, "pool"⟩ Bool Empty 1

def lqlfWorked : State Bool Empty 1 :=
  (replay lqlfSystem (initial Bool Empty 1) (workRun 5)).get rfl

theorem lqlf_no_stranded_task_worked :
    lqlfWorked.executed = [true] ∧ lqlfWorked.worker 0 = .blocked 1 ∧
      ¬ ∃ x rest, (lqlfWorked.ctx 0).tasks = x :: rest ∧ x.published = true := by
  have allowed : ReplaysUnder lqlfSystem SubmitsCallable (initial Bool Empty 1) (workRun 5) :=
    ⟨rfl, trivial, trivial, trivial, trivial, trivial, trivial, trivial, trivial, trivial, trivial,
      trivial, trivial, trivial, trivial, trivial, trivial⟩
  have reached : ReachedUnder lqlfSystem SubmitsCallable lqlfWorked :=
    (ReachedUnder.start rfl).replay _ allowed (Option.some_get _).symm
  refine ⟨rfl, rfl, fun published => ?_⟩
  refine lqlf_no_stranded_task rfl (behind_of_callable reached).1 0 ⟨⟨1, rfl⟩, fun sid => ?_, id,
    published⟩
  cases sid <;> rintro (h | h) <;> cases h

theorem lqlf_empty_function :
    ¬ ∀ s, Reached lqlfSystem s → ∀ i : Fin 1,
      ¬ ((∃ v, s.worker i = .blocked v) ∧ (∀ sid, ¬ (s.call sid).notifying i) ∧
        ¬ s.shutdown.notifying (Config.contexts ⟨.lqlfStealSeq, "pool"⟩ 1) ∧
        ∃ x rest, (s.ctx i).tasks = x :: rest ∧ x.published = true) := by
  intro wakes
  have reached : Reached lqlfSystem
      ((replay lqlfSystem (initial Bool Empty 1) (emptyFirst 5)).get rfl) :=
    (Reached.start rfl).replay _ (Option.some_get _).symm
  refine wakes _ reached 0 ⟨⟨2, rfl⟩, fun sid => ?_, id, _, _, rfl, rfl⟩
  cases sid <;> rintro (h | h) <;> cases h

end Pot.Sandbox
