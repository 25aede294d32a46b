import Pot.Executors

/-! The steps of the pools, each with what it finds and what it does. -/
namespace Pot.Executors
open Transition

variable {Sid Kid : Type} {n : Nat}

inductive LoopSteps (cfg : Config) (s : State cfg.cls Sid Kid n) (i : Fin n) :
    State cfg.cls Sid Kid n → Prop where
  | acquire (at_pc : s.loop i = .lock ∨ s.loop i = .relock) (free : s.m_mutex = none) :
    LoopSteps cfg s i ({ s with m_mutex := some (.worker i) }.goto i .predicate)
  | holds (at_pc : s.loop i = .predicate) (some : s.m_stop = true ∨ s.m_tasks ≠ []) :
    LoopSteps cfg s i (s.goto i .take)
  | fails (at_pc : s.loop i = .predicate) (stop : s.m_stop = false) (tasks : s.m_tasks = []) :
    LoopSteps cfg s i (s.goto i .block)
  | block (at_pc : s.loop i = .block) :
    LoopSteps cfg s i ({ s with m_mutex := none }.goto i .blocked)
  | take {task rest} (at_pc : s.loop i = .take) (tasks : s.m_tasks = task :: rest) :
    LoopSteps cfg s i ({ s with m_tasks := rest }.goto i (.unlock (some task)))
  | drained (at_pc : s.loop i = .take) (tasks : s.m_tasks = []) (stop : s.m_stop = true) :
    LoopSteps cfg s i (s.goto i .leave)
  | nothing (at_pc : s.loop i = .take) (tasks : s.m_tasks = []) (stop : s.m_stop = false) :
    LoopSteps cfg s i (s.goto i (if cfg.asks then .unlock none else .undefined))
  | start {task} (at_pc : s.loop i = .unlock (some task)) (callable : task.callable = true) :
    LoopSteps cfg s i ({ s with m_mutex := none }.goto i (.run task))
  | skip {task} (at_pc : s.loop i = .unlock (some task)) (empty : task.callable = false) :
    LoopSteps cfg s i
      ({ s with m_mutex := none, skipped := s.skipped ++ [task.call] }.goto i .lock)
  | again (at_pc : s.loop i = .unlock none) :
    LoopSteps cfg s i ({ s with m_mutex := none }.goto i .lock)
  | finish {task} (at_pc : s.loop i = .run task) :
    LoopSteps cfg s i ({ s with executed := s.executed ++ [task.call] }.goto i .lock)
  | leave (at_pc : s.loop i = .leave) :
    LoopSteps cfg s i ({ s with m_mutex := none }.goto i .returned)

theorem loop_cases {cfg : Config} {s t : State cfg.cls Sid Kid n} {i : Fin n}
    (taken : loopStep cfg s i (s.loop i) = some t) : LoopSteps cfg s i t := by
  cases hi : s.loop i with
  | lock =>
    rw [hi] at taken
    simp only [loopStep] at taken
    split at taken <;> cases taken
    exact .acquire (.inl hi) ‹_›
  | relock =>
    rw [hi] at taken
    simp only [loopStep] at taken
    split at taken <;> cases taken
    exact .acquire (.inr hi) ‹_›
  | predicate =>
    rw [hi] at taken
    cases taken
    split
    · rename_i some
      refine .holds hi ?_
      rwa [Bool.or_eq_true, Bool.not_eq_true', List.isEmpty_eq_false_iff] at some
    · rename_i none
      rw [Bool.or_eq_true, not_or, Bool.not_eq_true, Bool.not_eq_true', Bool.not_eq_false,
        List.isEmpty_iff] at none
      exact .fails hi none.1 none.2
  | block => rw [hi] at taken; cases taken; exact .block hi
  | take =>
    rw [hi] at taken
    simp only [loopStep] at taken
    split at taken <;> cases taken
    · exact .take hi ‹_›
    · split
      · exact .drained hi ‹_› ‹_›
      · exact .nothing hi ‹_› (Bool.not_eq_true _ ▸ ‹_›)
  | unlock task =>
    rw [hi] at taken
    cases task with
    | none => cases taken; exact .again hi
    | some task =>
      simp only [loopStep] at taken
      split at taken <;> cases taken
      · exact .start hi ‹_›
      · exact .skip hi (Bool.not_eq_true _ ▸ ‹_›)
  | run task => rw [hi] at taken; cases taken; exact .finish hi
  | leave => rw [hi] at taken; cases taken; exact .leave hi
  | idle | blocked | returned | undefined => rw [hi] at taken; cases taken

theorem isBlocked_iff {p : Loop Sid} : p.isBlocked = true ↔ p = .blocked := by
  cases p <;> simp [Loop.isBlocked]

theorem isDone_iff {c : Constructor} : c.isDone = true ↔ c = .done := by
  cases c <;> simp [Constructor.isDone]

variable [DecidableEq Sid] [DecidableEq Kid]

inductive Steps (cfg : Config) (s : State cfg.cls Sid Kid n) :
    Act Sid Kid n → State cfg.cls Sid Kid n → Prop where
  | create {k} (at_pc : s.constructor = .create k) (more : k < n) :
    Steps cfg s .construct { s with constructor := .run k }
  | created {k} (at_pc : s.constructor = .create k) (all : n ≤ k) :
    Steps cfg s .construct { s with constructor := .done }
  | run {i : Fin n} {u} (at_pc : s.constructor = .run i)
    (called : cfg.cls.runStep (s.thread i) = some u) : Steps cfg s .construct (s.setThread i u)
  | ran {i : Fin n} (at_pc : s.constructor = .run i) (ran : cfg.cls.ran (s.thread i) = true) :
    Steps cfg s .construct { s with constructor := .create (i + 1) }
  | execute {sid callable} (at_pc : s.call sid = .idle) (built : s.constructor = .done) :
    Steps cfg s (.execute sid callable) (s.setCall sid (.lock callable))
  | lock {sid callable} (at_pc : s.call sid = .lock callable) (free : s.m_mutex = none) :
    Steps cfg s (.call sid) ({ s with m_mutex := some (.call sid) }.setCall sid (.check callable))
  | refuse {sid callable} (at_pc : s.call sid = .check callable) (stop : s.m_stop = true) :
    Steps cfg s (.call sid) (s.setCall sid .unlockThrow)
  | accept {sid callable} (at_pc : s.call sid = .check callable) (stop : s.m_stop = false) :
    Steps cfg s (.call sid) (s.setCall sid (.emplace callable))
  | emplace {sid callable} (at_pc : s.call sid = .emplace callable) : Steps cfg s (.call sid)
      ({ s with m_tasks := s.m_tasks ++ [Item.mk sid callable] }.setCall sid (.unlock callable))
  | unlock {sid callable} (at_pc : s.call sid = .unlock callable) :
    Steps cfg s (.call sid) ({ s with m_mutex := none }.setCall sid (.notifyOne callable))
  | throw {sid} (at_pc : s.call sid = .unlockThrow) :
    Steps cfg s (.call sid) ({ s with m_mutex := none }.setCall sid
      (.threw ("Executor " ++ cfg.m_name ++ " is stopped.")))
  | notifyOne {sid i callable} (at_pc : s.call sid = .notifyOne callable)
    (blocked : s.loop i = .blocked) :
    Steps cfg s (.notifyOne sid (some i)) ((s.goto i .relock).setCall sid (.returned callable))
  | notifyNone {sid callable} (at_pc : s.call sid = .notifyOne callable) :
    Steps cfg s (.notifyOne sid none) (s.setCall sid (.returned callable))
  | enter {i u} (free : cfg.cls.running (s.thread i) = false ∨ s.loop i = .returned)
    (worker : cfg.cls.step (s.thread i) .worker = some u) (now : cfg.cls.running u = true) :
    Steps cfg s (.worker i) ((s.setThread i u).goto i .lock)
  | thread {i u} (free : cfg.cls.running (s.thread i) = false ∨ s.loop i = .returned)
    (worker : cfg.cls.step (s.thread i) .worker = some u) (now : cfg.cls.running u = false) :
    Steps cfg s (.worker i) (s.setThread i u)
  | loop {i t} (busy : cfg.cls.running (s.thread i) = true) (step : LoopSteps cfg s i t) :
    Steps cfg s (.worker i) t
  | wakeLoop {i} (blocked : s.loop i = .blocked) : Steps cfg s (.wake i) (s.goto i .relock)
  | wakeThread {i u} (wake : cfg.cls.step (s.thread i) .wake = some u) :
    Steps cfg s (.wake i) (s.setThread i u)
  | shutdown {k} (at_pc : s.shutdown k = .idle) (built : s.constructor = .done) :
    Steps cfg s (.shutdown k) (s.setShutdown k .lock)
  | stopLock {k} (at_pc : s.shutdown k = .lock) (free : s.m_mutex = none) :
    Steps cfg s (.stop k) ({ s with m_mutex := some (.shutdown k) }.setShutdown k .check)
  | found {k} (at_pc : s.shutdown k = .check) (stop : s.m_stop = true) :
    Steps cfg s (.stop k) (s.setShutdown k .unlockReturn)
  | first {k} (at_pc : s.shutdown k = .check) (stop : s.m_stop = false) :
    Steps cfg s (.stop k) (s.setShutdown k .set)
  | set {k} (at_pc : s.shutdown k = .set) :
    Steps cfg s (.stop k) ({ s with m_stop := true }.setShutdown k .unlock)
  | stopUnlock {k} (at_pc : s.shutdown k = .unlock) :
    Steps cfg s (.stop k) ({ s with m_mutex := none }.setShutdown k .notifyAll)
  | notifyAll {k} (at_pc : s.shutdown k = .notifyAll) : Steps cfg s (.stop k)
      ({ s with loop := fun i => (s.loop i).unblock }.setShutdown k (.join 0))
  | join {k u} {i : Fin n} (at_pc : s.shutdown k = .join i)
    (called : cfg.cls.joinStep (s.thread i) = some u) : Steps cfg s (.stop k) (s.setThread i u)
  | joined {k} {i : Fin n} (at_pc : s.shutdown k = .join i)
    (joined : cfg.cls.joined (s.thread i) = true) :
    Steps cfg s (.stop k) (s.setShutdown k (.join (i + 1)))
  | cleared {k i} (at_pc : s.shutdown k = .join i) (all : n ≤ i) :
    Steps cfg s (.stop k) (s.setShutdown k .returned)
  | unlockReturn {k} (at_pc : s.shutdown k = .unlockReturn) :
    Steps cfg s (.stop k) ({ s with m_mutex := none }.setShutdown k .skipped)

theorem construct_cases {cfg : Config} {s t : State cfg.cls Sid Kid n}
    (taken : constructStep s s.constructor = some t) : Steps cfg s .construct t := by
  cases hc : s.constructor with
  | create k =>
    rw [hc] at taken
    cases taken
    split
    · exact .create hc ‹_›
    · exact .created hc (Nat.le_of_not_lt ‹_›)
  | run k =>
    rw [hc] at taken
    simp only [constructStep] at taken
    split at taken
    · rename_i h
      split at taken
      · cases taken
        exact .ran (i := ⟨k, h⟩) hc ‹_›
      · obtain ⟨u, called, rfl⟩ := Option.map_eq_some_iff.mp taken
        exact .run (i := ⟨k, h⟩) hc called
    · cases taken
  | done => rw [hc] at taken; cases taken

theorem call_cases {cfg : Config} {s t : State cfg.cls Sid Kid n} {sid : Sid}
    (taken : callStep cfg s sid (s.call sid) = some t) : Steps cfg s (.call sid) t := by
  cases hcall : s.call sid with
  | lock callable =>
    rw [hcall] at taken
    simp only [callStep] at taken
    split at taken <;> cases taken
    exact .lock hcall ‹_›
  | check callable =>
    rw [hcall] at taken
    cases taken
    split
    · exact .refuse hcall ‹_›
    · exact .accept hcall (Bool.not_eq_true _ ▸ ‹_›)
  | emplace callable => rw [hcall] at taken; cases taken; exact .emplace hcall
  | unlock callable => rw [hcall] at taken; cases taken; exact .unlock hcall
  | unlockThrow => rw [hcall] at taken; cases taken; exact .throw hcall
  | idle | notifyOne | returned | threw => rw [hcall] at taken; cases taken

theorem thread_cases {cfg : Config} {s t : State cfg.cls Sid Kid n} {i : Fin n}
    (free : cfg.cls.running (s.thread i) = false ∨ s.loop i = .returned)
    (taken : threadStep s i = some t) : Steps cfg s (.worker i) t := by
  obtain ⟨u, worker, rfl⟩ := Option.map_eq_some_iff.mp taken
  split
  · exact .enter free worker ‹_›
  · exact .thread free worker (Bool.not_eq_true _ ▸ ‹_›)

theorem worker_cases {cfg : Config} {s t : State cfg.cls Sid Kid n} {i : Fin n}
    (taken : workerStep cfg s i = some t) : Steps cfg s (.worker i) t := by
  unfold workerStep at taken
  split at taken
  · split at taken
    · exact thread_cases (.inr ‹_›) taken
    · exact .loop ‹_› (loop_cases taken)
  · exact thread_cases (.inl (Bool.not_eq_true _ ▸ ‹_›)) taken

theorem stop_cases {cfg : Config} {s t : State cfg.cls Sid Kid n} {k : Kid}
    (taken : stopStep s k (s.shutdown k) = some t) : Steps cfg s (.stop k) t := by
  cases hk : s.shutdown k with
  | lock =>
    rw [hk] at taken
    simp only [stopStep] at taken
    split at taken <;> cases taken
    exact .stopLock hk ‹_›
  | check =>
    rw [hk] at taken
    cases taken
    split
    · exact .found hk ‹_›
    · exact .first hk (Bool.not_eq_true _ ▸ ‹_›)
  | set => rw [hk] at taken; cases taken; exact .set hk
  | unlock => rw [hk] at taken; cases taken; exact .stopUnlock hk
  | notifyAll => rw [hk] at taken; cases taken; exact .notifyAll hk
  | join i =>
    rw [hk] at taken
    simp only [stopStep] at taken
    split at taken
    · rename_i h
      split at taken
      · cases taken
        exact .joined (i := ⟨i, h⟩) hk ‹_›
      · obtain ⟨u, called, rfl⟩ := Option.map_eq_some_iff.mp taken
        exact .join (i := ⟨i, h⟩) hk called
    · cases taken
      exact .cleared hk (Nat.le_of_not_lt ‹_›)
  | unlockReturn => rw [hk] at taken; cases taken; exact .unlockReturn hk
  | idle | returned | skipped => rw [hk] at taken; cases taken

theorem step_cases {cfg : Config} {s t : State cfg.cls Sid Kid n} {a : Act Sid Kid n}
    (taken : step cfg s a = some t) : Steps cfg s a t := by
  cases a with
  | construct => exact construct_cases taken
  | execute sid callable =>
    simp only [step] at taken
    split at taken
    · split at taken <;> cases taken
      exact .execute ‹_› (isDone_iff.mp ‹_›)
    · cases taken
  | call sid => exact call_cases taken
  | notifyOne sid woken =>
    simp only [step] at taken
    split at taken
    · split at taken
      · split at taken <;> cases taken
        exact .notifyOne ‹_› (isBlocked_iff.mp ‹_›)
      · split at taken <;> cases taken
        exact .notifyNone ‹_›
    · cases taken
  | worker i =>
    simp only [step] at taken
    split at taken
    · exact worker_cases taken
    · cases taken
  | wake i =>
    simp only [step] at taken
    split at taken
    · cases taken
      exact .wakeLoop (isBlocked_iff.mp ‹_›)
    · obtain ⟨u, wake, rfl⟩ := Option.map_eq_some_iff.mp taken
      exact .wakeThread wake
  | shutdown k =>
    simp only [step] at taken
    split at taken
    · split at taken <;> cases taken
      exact .shutdown ‹_› (isDone_iff.mp ‹_›)
    · cases taken
  | stop k => exact stop_cases taken

end Pot.Executors
