import Pot.Sandbox

/-! The steps of the sandbox pools, listed once with what each finds and what it does. -/
namespace Pot.Sandbox
open Transition

variable {Sid Kid : Type} {n : Nat}

theorem emplace_perm (k : Container) (tasks : List (Item Sid)) (x : Item Sid) :
    (k.emplace tasks x).Perm (x :: tasks) := by
  cases k with
  | queue | lfqueue => exact List.perm_append_singleton x tasks
  | stack => exact List.Perm.refl _
  | deque =>
    simp only [Container.emplace]
    split
    · exact List.Perm.refl _
    · exact List.perm_append_singleton x tasks
  | pqueue => exact List.perm_orderedInsert _ x tasks

theorem pop_eq_some {tasks rest : List (Item Sid)} {x : Item Sid} :
    pop tasks = some (x, rest) ↔ tasks = x :: rest ∧ x.published = true := by
  cases tasks with
  | nil => simp [pop]
  | cons y ys =>
    simp only [pop, List.cons.injEq]
    split
    · simp only [Option.some.injEq, Prod.mk.injEq]
      constructor
      · rintro ⟨rfl, rfl⟩
        exact ⟨⟨rfl, rfl⟩, ‹_›⟩
      · exact fun h => h.1
    · rename_i unpublished
      simp only [reduceCtorEq, false_iff, not_and]
      rintro ⟨rfl, -⟩
      exact unpublished

@[simp] theorem publish_calls [DecidableEq Sid] (tasks : List (Item Sid)) (sid : Sid) :
    (publish tasks sid).map Item.call = tasks.map Item.call := by
  rw [publish, List.map_map]
  apply List.map_congr_left
  intro x _
  simp only [Function.comp]
  split <;> rfl

@[simp] theorem setTasks_notifier (s : State Sid Kid n) (d c : Fin n) (tasks : List (Item Sid)) :
    ((s.setTasks d tasks).ctx c).notifier = (s.ctx c).notifier := by
  simp only [State.setTasks, Function.update_apply]
  split
  · rename_i same
    rw [same]
  · rfl

@[simp] theorem setTasks_tasks (s : State Sid Kid n) (c : Fin n) (tasks : List (Item Sid)) :
    ((s.setTasks c tasks).ctx c).tasks = tasks := by
  simp only [State.setTasks, Function.update_self]

theorem setTasks_other (s : State Sid Kid n) {d c : Fin n} (different : c ≠ d)
    (tasks : List (Item Sid)) : (s.setTasks d tasks).ctx c = s.ctx c :=
  Function.update_of_ne different ..

@[simp] theorem advance_tasks (s : State Sid Kid n) (d c : Fin n) (k : Nat) :
    ((s.advance d k).ctx c).tasks = (s.ctx c).tasks := by
  simp only [State.advance, Function.update_apply]
  split
  · rename_i same
    rw [same]
  · rfl

theorem insert_notifier (cfg : Config) (s : State Sid Kid n) (sid : Sid) (idx c : Fin n)
    (callable : Bool) (runs : Nat) :
    ((insert cfg s sid idx callable runs).ctx c).notifier = (s.ctx c).notifier := by
  simp only [insert, Function.update_apply]
  split
  · rename_i same
    rw [same]
  · rfl

theorem take_worker (s : State Sid Kid n) (i d : Fin n) (x : Item Sid) (rest : List (Item Sid))
    (empty : Worker Sid n) : (s.take i d x rest empty).worker =
      Function.update s.worker i (if x.callable then .run x else empty) := by
  simp only [State.take]
  split <;> rfl

theorem take_ctx (s : State Sid Kid n) (i d : Fin n) (x : Item Sid) (rest : List (Item Sid))
    (empty : Worker Sid n) : (s.take i d x rest empty).ctx = (s.setTasks d rest).ctx := by
  simp only [State.take]
  split <;> rfl

theorem take_keeps (s : State Sid Kid n) (i d : Fin n) (x : Item Sid) (rest : List (Item Sid))
    (empty : Worker Sid n) : (s.take i d x rest empty).call = s.call ∧
      (s.take i d x rest empty).shutdown = s.shutdown ∧
      (s.take i d x rest empty).stop_requested = s.stop_requested := by
  simp only [State.take]
  split <;> exact ⟨rfl, rfl, rfl⟩

inductive ThiefSteps [DecidableEq Kid] (s : State Sid Kid n) (k : Kid) : State Sid Kid n → Prop where
  | nothing (at_pc : s.thief k = .scan []) : ThiefSteps s k (s.setThief k .idle)
  | skip {target more} (at_pc : s.thief k = .scan (target :: more)) :
    ThiefSteps s k (s.setThief k (.scan more))
  | steal {target more task rest} (at_pc : s.thief k = .scan (target :: more))
    (popped : pop (s.ctx target).tasks = some (task, rest)) :
    ThiefSteps s k ((s.setTasks target rest).setThief k (.run task))
  | run {task} (at_pc : s.thief k = .run task) (callable : task.callable = true) :
    ThiefSteps s k ({ s with executed := s.executed ++ [task.call] }.setThief k .idle)
  | badFunctionCall {task} (at_pc : s.thief k = .run task) (empty : task.callable = false) :
    ThiefSteps s k ({ s with dropped := s.dropped ++ [task.call] }.setThief k .idle)

theorem thief_cases [DecidableEq Kid] {s t : State Sid Kid n} {k : Kid}
    (taken : thiefStep s k (s.thief k) = some t) : ThiefSteps s k t := by
  cases hk : s.thief k with
  | idle => rw [hk] at taken; cases taken
  | scan targets =>
    rw [hk] at taken
    cases targets with
    | nil => cases taken; exact .nothing hk
    | cons target more =>
      simp only [thiefStep] at taken
      split at taken <;> cases taken
      · exact .steal hk ‹_›
      · exact .skip hk
  | run task =>
    rw [hk] at taken
    simp only [thiefStep] at taken
    split at taken <;> cases taken
    · exact .run hk ‹_›
    · exact .badFunctionCall hk (Bool.eq_false_iff.mpr ‹_›)

variable [NeZero n]

inductive WorkerSteps (cfg : Config) (s : State Sid Kid n) (i : Fin n) : State Sid Kid n → Prop where
  | stop (at_pc : s.worker i = .loop) (requested : s.stop_requested i = true) :
    WorkerSteps cfg s i (s.setWorker i .returned)
  | begin (at_pc : s.worker i = .loop) (running : s.stop_requested i = false) :
    WorkerSteps cfg s i (s.setWorker i .load)
  | load (at_pc : s.worker i = .load) :
    WorkerSteps cfg s i (s.setWorker i (.popOwn (s.ctx (cfg.home i)).notifier))
  | popNone {v} (at_pc : s.worker i = .popOwn v) (nothing : pop (s.ctx (cfg.home i)).tasks = none) :
    WorkerSteps cfg s i (s.setWorker i (.scanning v (cfg.targets i)))
  | popOwn {v task rest} (at_pc : s.worker i = .popOwn v)
    (popped : pop (s.ctx (cfg.home i)).tasks = some (task, rest)) :
    WorkerSteps cfg s i (s.take i (cfg.home i) task rest (.scanning v (cfg.targets i)))
  | skip {v target more} (at_pc : s.worker i = .scan v target more) :
    WorkerSteps cfg s i (s.setWorker i (.scanning v more))
  | steal {v target more task rest} (at_pc : s.worker i = .scan v target more)
    (popped : pop (s.ctx target).tasks = some (task, rest)) :
    WorkerSteps cfg s i (s.take i target task rest (.recheck v))
  | run {task} (at_pc : s.worker i = .run task) :
    WorkerSteps cfg s i ({ s with executed := s.executed ++ [task.call] }.setWorker i .loop)
  | leave {v} (at_pc : s.worker i = .recheck v) (requested : s.stop_requested i = true) :
    WorkerSteps cfg s i (s.setWorker i .returned)
  | stay {v} (at_pc : s.worker i = .recheck v) (running : s.stop_requested i = false) :
    WorkerSteps cfg s i (s.setWorker i (.wait v))
  | block {v} (at_pc : s.worker i = .wait v) (same : (s.ctx (cfg.home i)).notifier = v) :
    WorkerSteps cfg s i (s.setWorker i (.blocked v))
  | retry {v} (at_pc : s.worker i = .wait v) : WorkerSteps cfg s i (s.setWorker i .loop)

theorem worker_cases {cfg : Config} {s t : State Sid Kid n} {i : Fin n} {busy : Bool}
    (taken : workerStep cfg s i busy (s.worker i) = some t) : WorkerSteps cfg s i t := by
  cases hw : s.worker i with
  | loop =>
    rw [hw] at taken
    cases taken
    split
    · exact .stop hw ‹_›
    · exact .begin hw (Bool.eq_false_iff.mpr ‹_›)
  | load =>
    rw [hw] at taken
    cases taken
    exact .load hw
  | popOwn v =>
    rw [hw] at taken
    simp only [workerStep] at taken
    split at taken <;> cases taken
    · exact .popOwn hw ‹_›
    · exact .popNone hw ‹_›
  | scan v target more =>
    rw [hw] at taken
    simp only [workerStep] at taken
    split at taken
    · cases taken
      exact .skip hw
    · split at taken <;> cases taken
      · exact .steal hw ‹_›
      · exact .skip hw
  | run task =>
    rw [hw] at taken
    cases taken
    exact .run hw
  | recheck v =>
    rw [hw] at taken
    cases taken
    split
    · exact .leave hw ‹_›
    · exact .stay hw (Bool.eq_false_iff.mpr ‹_›)
  | wait v =>
    rw [hw] at taken
    cases taken
    split
    · exact .block hw ‹_›
    · exact .retry hw
  | blocked v | returned => rw [hw] at taken; cases taken

inductive ShutdownSteps (cfg : Config) (s : State Sid Kid n) : State Sid Kid n → Prop where
  | exchange (at_pc : s.shutdown = .exchange) (running : s.m_stop = false) :
    ShutdownSteps cfg s { s with m_stop := true, shutdown := .requestStop 0 }
  | refused (at_pc : s.shutdown = .exchange) (stopped : s.m_stop = true) :
    ShutdownSteps cfg s { s with m_stop := true, shutdown := .returned }
  | request {k} (at_pc : s.shutdown = .requestStop k) (inside : k < n) :
    ShutdownSteps cfg s { s with stop_requested := Function.update s.stop_requested ⟨k, inside⟩ true,
                                 shutdown := .requestStop (k + 1) }
  | requested {k} (at_pc : s.shutdown = .requestStop k) (outside : n ≤ k) :
    ShutdownSteps cfg s { s with shutdown := .fetchAdd 0 }
  | fetchAdd {k} (at_pc : s.shutdown = .fetchAdd k) (inside : k < cfg.contexts n) :
    ShutdownSteps cfg s { s.advance (Fin.ofNat n k) (if cfg.pool.isLocal then 1 else s.size) with
      shutdown := .notifyAll k }
  | counted {k} (at_pc : s.shutdown = .fetchAdd k) (outside : cfg.contexts n ≤ k) :
    ShutdownSteps cfg s { s with shutdown := .join 0 }
  | notifyAll {k} (at_pc : s.shutdown = .notifyAll k) :
    ShutdownSteps cfg s { s.notify cfg (Fin.ofNat n k) (fun _ => true) with
      shutdown := .fetchAdd (k + 1) }
  | join {k} (at_pc : s.shutdown = .join k) (inside : k < n)
    (joined : s.worker ⟨k, inside⟩ = .returned) :
    ShutdownSteps cfg s { s with shutdown := .join (k + 1) }
  | clear {k} (at_pc : s.shutdown = .join k) (outside : n ≤ k) :
    ShutdownSteps cfg s { s with size := 0, shutdown := .returned }

theorem shutdown_cases {cfg : Config} {s t : State Sid Kid n}
    (taken : shutdownStep cfg s s.shutdown = some t) : ShutdownSteps cfg s t := by
  cases hs : s.shutdown with
  | exchange =>
    rw [hs] at taken
    cases taken
    split
    · exact .refused hs ‹_›
    · exact .exchange hs (Bool.eq_false_iff.mpr ‹_›)
  | requestStop k =>
    rw [hs] at taken
    simp only [shutdownStep] at taken
    split at taken <;> cases taken
    · exact .request hs ‹_›
    · exact .requested hs (Nat.le_of_not_lt ‹_›)
  | fetchAdd k =>
    rw [hs] at taken
    simp only [shutdownStep] at taken
    split at taken <;> cases taken
    · exact .fetchAdd hs ‹_›
    · exact .counted hs (Nat.le_of_not_lt ‹_›)
  | notifyAll k =>
    rw [hs] at taken
    cases taken
    exact .notifyAll hs
  | join k =>
    rw [hs] at taken
    simp only [shutdownStep] at taken
    split at taken
    · split at taken <;> cases taken
      exact .join hs ‹_› ‹_›
    · cases taken
      exact .clear hs (Nat.le_of_not_lt ‹_›)
  | idle | returned => rw [hs] at taken; cases taken

variable [DecidableEq Sid]

inductive CallSteps (cfg : Config) (s : State Sid Kid n) (sid : Sid) : State Sid Kid n → Prop where
  | stopped {callable runs} (at_pc : s.call sid = .loadStop callable runs) (stop : s.m_stop = true) :
    CallSteps cfg s sid (s.setCall sid (.threw ("Executor " ++ cfg.m_name ++ " is stopped.")))
  | global {callable runs} (at_pc : s.call sid = .loadStop callable runs)
    (running : s.m_stop = false) (shared : cfg.pool.isLocal = false) :
    CallSteps cfg s sid (s.setCall sid (.insert 0 callable runs))
  | round {callable runs} (at_pc : s.call sid = .loadStop callable runs)
    (running : s.m_stop = false) : CallSteps cfg s sid (s.setCall sid (.index callable runs))
  | index {callable runs} (at_pc : s.call sid = .index callable runs) (some : s.size ≠ 0) :
    CallSteps cfg s sid ({ s with m_next_thread_idx := s.m_next_thread_idx + 1 }.setCall sid
      (.insert (Fin.ofNat n (s.m_next_thread_idx % s.size)) callable runs))
  | divide {callable runs} (at_pc : s.call sid = .index callable runs) (none : s.size = 0) :
    CallSteps cfg s sid ({ s with m_next_thread_idx := s.m_next_thread_idx + 1 }.setCall sid
      .divisionByZero)
  | claim {idx callable runs} (at_pc : s.call sid = .insert idx callable runs)
    (lockFree : cfg.pool.container = .lfqueue) (room : (s.ctx idx).tasks.length < Lfqueue.capacity) :
    CallSteps cfg s sid ((insert cfg s sid idx callable runs).setCall sid (.publish idx))
  | full {idx callable runs} (at_pc : s.call sid = .insert idx callable runs) :
    CallSteps cfg s sid s
  | emplace {idx callable runs} (at_pc : s.call sid = .insert idx callable runs)
    (locked : cfg.pool.container ≠ .lfqueue) :
    CallSteps cfg s sid ((insert cfg s sid idx callable runs).setCall sid (.fetchAdd idx))
  | publish {idx} (at_pc : s.call sid = .publish idx) :
    CallSteps cfg s sid ((s.setTasks idx (publish (s.ctx idx).tasks sid)).setCall sid (.fetchAdd idx))
  | fetchAdd {idx} (at_pc : s.call sid = .fetchAdd idx) :
    CallSteps cfg s sid ((s.advance idx 1).setCall sid (.notify idx))

theorem call_cases {cfg : Config} {s t : State Sid Kid n} {sid : Sid}
    (taken : callStep cfg s sid (s.call sid) = some t) : CallSteps cfg s sid t := by
  cases hc : s.call sid with
  | loadStop callable runs =>
    rw [hc] at taken
    cases taken
    split
    · exact .stopped hc ‹_›
    · split
      · exact .round hc (Bool.eq_false_iff.mpr ‹_›)
      · exact .global hc (Bool.eq_false_iff.mpr ‹_›) (Bool.eq_false_iff.mpr ‹_›)
  | index callable runs =>
    rw [hc] at taken
    cases taken
    split
    · exact .divide hc ‹_›
    · exact .index hc ‹_›
  | insert idx callable runs =>
    rw [hc] at taken
    simp only [callStep] at taken
    split at taken
    · split at taken <;> cases taken
      · exact .claim hc ‹_› ‹_›
      · exact .full hc
    · cases taken
      exact .emplace hc ‹_›
  | publish idx => rw [hc] at taken; cases taken; exact .publish hc
  | fetchAdd idx => rw [hc] at taken; cases taken; exact .fetchAdd hc
  | idle | notify | returned | threw | divisionByZero => rw [hc] at taken; cases taken

variable [DecidableEq Kid]

inductive Steps (cfg : Config) (s : State Sid Kid n) :
    Act Sid Kid n → State Sid Kid n → Prop where
  | submit {sid callable runs} (at_pc : s.call sid = .idle) :
    Steps cfg s (.submit sid callable runs) (s.setCall sid (.loadStop callable runs))
  | call {sid t} (step : CallSteps cfg s sid t) : Steps cfg s (.call sid) t
  | notifyOne {sid idx woken} (at_pc : s.call sid = .notify idx)
    (wakes : (∃ i, s.eligible cfg idx i ∧ woken i = true) ∨ ∀ i, ¬ s.eligible cfg idx i) :
    Steps cfg s (.notifyOne sid woken) ((s.notify cfg idx woken).setCall sid .returned)
  | worker {i busy t} (step : WorkerSteps cfg s i t) : Steps cfg s (.worker i busy) t
  | wake {i v} (at_pc : s.worker i = .blocked v) :
    Steps cfg s (.wake i) (s.setWorker i (.wait v))
  | trySteal {k} (at_pc : s.thief k = .idle) :
    Steps cfg s (.trySteal k) (s.setThief k (.scan (List.finRange n)))
  | thief {k t} (step : ThiefSteps s k t) : Steps cfg s (.thief k) t
  | shutdown (at_pc : s.shutdown = .idle) :
    Steps cfg s .shutdown { s with shutdown := .exchange,
                                   before := fun sid => (s.call sid).hasReturned }
  | stop {t} (step : ShutdownSteps cfg s t) : Steps cfg s .stop t

theorem step_cases {cfg : Config} {s t : State Sid Kid n} {a : Act Sid Kid n}
    (taken : step cfg s a = some t) : Steps cfg s a t := by
  cases a with
  | submit sid callable runs =>
    simp only [step] at taken
    split at taken <;> cases taken
    exact .submit ‹_›
  | call sid => exact .call (call_cases taken)
  | notifyOne sid woken =>
    simp only [step] at taken
    split at taken <;> try cases taken
    split at taken <;> cases taken
    exact .notifyOne ‹_› ‹_›
  | worker i busy => exact .worker (worker_cases taken)
  | wake i =>
    simp only [step] at taken
    split at taken <;> cases taken
    exact .wake ‹_›
  | trySteal k =>
    simp only [step] at taken
    split at taken <;> try cases taken
    split at taken <;> cases taken
    exact .trySteal ‹_›
  | thief k => exact .thief (thief_cases taken)
  | shutdown =>
    simp only [step] at taken
    split at taken <;> cases taken
    exact .shutdown ‹_›
  | stop => exact .stop (shutdown_cases taken)

/-- What a step does to the container of one context. -/
inductive TaskSteps (cfg : Config) (s t : State Sid Kid n) (c : Fin n) : Prop where
  | keep (tasks : (t.ctx c).tasks = (s.ctx c).tasks)
  | pop {task} (popped : pop (s.ctx c).tasks = some (task, (t.ctx c).tasks))
  | insert {sid callable runs} (at_pc : s.call sid = .insert c callable runs)
    (room : cfg.pool.container = .lfqueue → (s.ctx c).tasks.length < Lfqueue.capacity)
    (tasks : (t.ctx c).tasks = cfg.pool.container.emplace (s.ctx c).tasks
      ⟨sid, callable, runs, (s.ctx c).seq_counter, cfg.pool.container ≠ .lfqueue⟩)
    (after : t.call sid = .publish c ∨ t.call sid = .fetchAdd c)
  | publish {sid} (at_pc : s.call sid = .publish c)
    (tasks : (t.ctx c).tasks = publish (s.ctx c).tasks sid)

theorem task_cases {cfg : Config} {s t : State Sid Kid n} {a : Act Sid Kid n}
    (taken : step cfg s a = some t) (c : Fin n) : TaskSteps cfg s t c := by
  have taking : ∀ {d : Fin n} {task : Item Sid} {rest : List (Item Sid)},
      Sandbox.pop (s.ctx d).tasks = some (task, rest) → t.ctx = (s.setTasks d rest).ctx →
      TaskSteps cfg s t c := by
    intro d task rest popped ctx
    by_cases same : c = d
    · subst same
      have left : (t.ctx c).tasks = rest := by rw [ctx, setTasks_tasks]
      exact .pop (left ▸ popped)
    · exact .keep (by rw [ctx, setTasks_other s same])
  cases step_cases taken with
  | @call sid t step =>
    cases step with
    | @claim idx callable runs at_pc lockFree room =>
      by_cases same : c = idx
      · subst same
        refine .insert at_pc (fun _ => room) ?_ (.inl (Function.update_self ..))
        simp only [State.setCall, Sandbox.insert, Function.update_self]
      · exact .keep (by simp only [State.setCall, Sandbox.insert, Function.update_of_ne same])
    | @emplace idx callable runs at_pc locked =>
      by_cases same : c = idx
      · subst same
        refine .insert at_pc (fun lockFree => absurd lockFree locked) ?_
          (.inr (Function.update_self ..))
        simp only [State.setCall, Sandbox.insert, Function.update_self]
      · exact .keep (by simp only [State.setCall, Sandbox.insert, Function.update_of_ne same])
    | @publish idx at_pc =>
      by_cases same : c = idx
      · subst same
        exact .publish at_pc (setTasks_tasks ..)
      · exact .keep (congrArg Context.tasks (setTasks_other s same _))
    | fetchAdd => exact .keep (advance_tasks ..)
    | _ => exact .keep rfl
  | worker step =>
    cases step with
    | popOwn _ popped | steal _ popped => exact taking popped (take_ctx ..)
    | _ => exact .keep rfl
  | thief step =>
    cases step with
    | steal _ popped => exact taking popped rfl
    | _ => exact .keep rfl
  | stop step =>
    cases step with
    | fetchAdd => exact .keep (advance_tasks ..)
    | _ => exact .keep rfl
  | _ => exact .keep rfl

end Pot.Sandbox
