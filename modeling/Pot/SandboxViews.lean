import Pot.SandboxSteps
import Pot.EventCount

/-! Each context of a pool is an event count in two ways: its workers look for a task in the
container, and for the stop flag of their thread. Every step of the pool is a step of both
views. -/
namespace Pot.Sandbox
open Transition EventCount

variable {Sid Kid : Type} {n : Nat}

def Available (tasks : List (Item Sid)) : Prop := ∃ x rest, pop tasks = some (x, rest)

theorem available_cons {x : Item Sid} {rest : List (Item Sid)} :
    Available (x :: rest) ↔ x.published = true := by
  simp only [Available, pop_eq_some]
  constructor
  · rintro ⟨y, ys, same, published⟩
    cases same
    exact published
  · exact fun published => ⟨x, rest, rfl, published⟩

theorem not_available_of_pop {tasks : List (Item Sid)} (nothing : pop tasks = none) :
    ¬ Available tasks := by
  rintro ⟨x, rest, popped⟩
  cases nothing.symm.trans popped

theorem available_append {tasks : List (Item Sid)} {x : Item Sid} (unpublished : x.published = false)
    (h : Available (tasks ++ [x])) : Available tasks := by
  cases tasks with
  | nil => exact absurd (available_cons.mp h) (by simp [unpublished])
  | cons y ys => exact available_cons.mpr (available_cons.mp h)

theorem setTasks_available {s : State Sid Kid n} {d c : Fin n} {x : Item Sid}
    {rest : List (Item Sid)} (popped : pop (s.ctx d).tasks = some (x, rest))
    (h : Available ((s.setTasks d rest).ctx c).tasks) : Available (s.ctx c).tasks := by
  simp only [State.setTasks, Function.update_apply] at h
  split at h
  · rename_i same
    exact ⟨x, rest, same ▸ popped⟩
  · exact h

def Worker.seeksTask : Worker Sid n → Waiter
  | .popOwn v => .loaded v
  | .scan v _ _ | .recheck v | .wait v => .looked v
  | .blocked v => .asleep v
  | _ => .away

def Worker.seeksStop : Worker Sid n → Waiter
  | .popOwn v | .scan v _ _ | .recheck v => .loaded v
  | .wait v => .looked v
  | .blocked v => .asleep v
  | _ => .away

theorem seeksTask_asleep (w : Worker Sid n) (v : Nat) : w.seeksTask = .asleep v ↔ w = .blocked v := by
  cases w <;> simp [Worker.seeksTask]

theorem seeksStop_asleep (w : Worker Sid n) (v : Nat) : w.seeksStop = .asleep v ↔ w = .blocked v := by
  cases w <;> simp [Worker.seeksStop]

theorem scanning_seeks (v : Nat) (targets : List (Fin n)) :
    (Worker.scanning v targets : Worker Sid n).seeksTask = .looked v ∧
      (Worker.scanning v targets : Worker Sid n).seeksStop = .loaded v := by
  cases targets <;> exact ⟨rfl, rfl⟩

def Shutdown.owes (c : Nat) : Shutdown → Prop
  | .requestStop _ => True
  | .fetchAdd k => k ≤ c
  | .notifyAll k => k < c
  | _ => False

def State.rings (s : State Sid Kid n) (c : Fin n) : Prop :=
  (∃ sid, s.call sid = .notify c) ∨ s.shutdown = .notifyAll c

theorem call_kept [DecidableEq Sid] {s : State Sid Kid n} {sid : Sid} {p : Call n} (q : Call n)
    (different : s.call sid ≠ p) (h : ∃ d, s.call d = p) :
    ∃ d, Function.update s.call sid q d = p := by
  obtain ⟨d, hd⟩ := h
  have other : d ≠ sid := fun same => different (same ▸ hd)
  exact ⟨d, by rw [Function.update_of_ne other, hd]⟩

/-- Where shutdown stands, and what it has done by then. -/
def ShutdownOk (cfg : Config) (s : State Sid Kid n) : Shutdown → Prop
  | .idle | .exchange => s.size = n ∧ s.m_stop = false ∧ ∀ i, s.stop_requested i = false
  | .requestStop k => s.size = n ∧ s.m_stop = true ∧ ∀ i : Fin n, i < k → s.stop_requested i = true
  | .notifyAll k =>
    s.size = n ∧ s.m_stop = true ∧ (∀ i, s.stop_requested i = true) ∧ k < cfg.contexts n
  | .fetchAdd _ | .join _ => s.size = n ∧ s.m_stop = true ∧ ∀ i, s.stop_requested i = true
  | .returned => s.m_stop = true ∧ ∀ i, s.stop_requested i = true

theorem shutdownOk_of_keeps {cfg : Config} {s t : State Sid Kid n} {p : Shutdown}
    (ok : ShutdownOk cfg s p) (size : t.size = s.size) (m_stop : t.m_stop = s.m_stop)
    (requested : t.stop_requested = s.stop_requested) : ShutdownOk cfg t p := by
  cases p <;> simp only [ShutdownOk, size, m_stop, requested] <;> exact ok

variable [NeZero n]

abbrev Config.Waits (cfg : Config) (c : Fin n) : Type := {i : Fin n // cfg.home i = c}

def State.view (cfg : Config) (s : State Sid Kid n) (c : Fin n) (seeks : Worker Sid n → Waiter)
    (work : cfg.Waits c → Prop) (owing : Prop) : View (cfg.Waits c) where
  epoch := (s.ctx c).notifier
  waiter i := seeks (s.worker i)
  work := work
  owing := owing
  ringing := s.rings c

def taskView (cfg : Config) (s : State Sid Kid n) (c : Fin n) : View (cfg.Waits c) :=
  s.view cfg c Worker.seeksTask (fun _ => Available (s.ctx c).tasks) (∃ sid, s.call sid = .fetchAdd c)

def stopView (cfg : Config) (s : State Sid Kid n) (c : Fin n) : View (cfg.Waits c) :=
  s.view cfg c Worker.seeksStop (fun i => s.stop_requested i = true) (s.shutdown.owes c)

section Views
variable {cfg : Config} {c : Fin n} {s t : State Sid Kid n} {seeks : Worker Sid n → Waiter}
  {work work' : cfg.Waits c → Prop} {owing owing' : Prop}

theorem view_turn {i : Fin n} {w : Worker Sid n}
    (worker : t.worker = Function.update s.worker i w)
    (notifier : (t.ctx c).notifier = (s.ctx c).notifier)
    (rings : s.rings c → t.rings c)
    (made : ∀ j, work' j → work j ∨ owing') (owes : owing → owing')
    (turn : ∀ h : cfg.home i = c, Turn (s.view cfg c seeks work owing)
      (t.view cfg c seeks work' owing') ⟨i, h⟩ (seeks (s.worker i)) (seeks w)) :
    Step (s.view cfg c seeks work owing) (t.view cfg c seeks work' owing') := by
  by_cases h : cfg.home i = c
  · refine .turn ⟨i, h⟩ notifier (fun j different => ?_) ?_ made owes rings
    · have other : j.1 ≠ i := fun same => different (Subtype.ext same)
      simp only [State.view, worker, Function.update_of_ne other]
    · have after : (t.view cfg c seeks work' owing').waiter ⟨i, h⟩ = seeks w := by
        simp only [State.view, worker, Function.update_self]
      rw [after]
      exact turn h
  · refine .post notifier (funext fun j => ?_) made owes rings
    have other : j.1 ≠ i := fun same => h (same ▸ j.2)
    simp only [State.view, worker, Function.update_of_ne other]

theorem view_post (worker : ∀ i, cfg.home i = c → t.worker i = s.worker i)
    (notifier : (t.ctx c).notifier = (s.ctx c).notifier)
    (rings : s.rings c → t.rings c) (made : ∀ j, work' j → work j ∨ owing')
    (owes : owing → owing') :
    Step (s.view cfg c seeks work owing) (t.view cfg c seeks work' owing') :=
  .post notifier (funext fun j => congrArg seeks (worker j j.2)) made owes rings

theorem view_advance (worker : t.worker = s.worker)
    (notifier : (s.ctx c).notifier < (t.ctx c).notifier) (rings : t.rings c) :
    Step (s.view cfg c seeks work owing) (t.view cfg c seeks work' owing') :=
  .advance notifier (by simp only [State.view, worker]) rings

theorem view_notify {woken : Fin n → Bool}
    (asleep : ∀ w v, seeks w = .asleep v ↔ w = .blocked v)
    (waits : ∀ v, seeks (.wait v) = .looked v)
    (worker : t.worker = (s.notify cfg c woken).worker)
    (notifier : (t.ctx c).notifier = (s.ctx c).notifier)
    (wakes : (∃ i, s.eligible cfg c i ∧ woken i = true) ∨ ∀ i, ¬ s.eligible cfg c i)
    (made : ∀ j, work' j → work j) (owes : owing → owing') :
    Step (s.view cfg c seeks work owing) (t.view cfg c seeks work' owing') := by
  have woke : ∀ j : cfg.Waits c, t.worker j = if woken j = true then (s.worker j).unblock
      else s.worker j := fun j => by
    simp only [worker, State.notify, j.2, true_and]
  refine .notify notifier (fun j => ?_) (fun j v sleeps stale => ?_) made owes
  · simp only [State.view, woke j]
    split
    · cases hw : s.worker j with
      | blocked v => exact .inr ⟨v, (asleep _ v).mpr rfl, waits v⟩
      | _ => exact .inl rfl
    · exact .inl rfl
  · have blocked := (asleep _ v).mp sleeps
    rcases wakes with ⟨i, ⟨home, k, hk, _⟩, hwoken⟩ | none
    · refine ⟨⟨i, home⟩, k, (asleep _ k).mpr hk, ?_⟩
      have after := woke ⟨i, home⟩
      simp only [hwoken, if_true, hk] at after
      exact (congrArg seeks after).trans (waits k)
    · exact absurd ⟨j.2, v, blocked, Nat.ne_of_lt stale⟩ (none j)

end Views

/-- A worker that takes an empty function out of its own container leaves nothing available in
it: what it is about to conclude is then true. -/
def NothingBehind (cfg : Config) (s : State Sid Kid n) : Act Sid Kid n → Prop
  | .worker i _ => ∀ v task rest, s.worker i = .popOwn v →
      pop (s.ctx (cfg.home i)).tasks = some (task, rest) → task.callable = false → ¬ Available rest
  | _ => True

theorem worker_taskView {cfg : Config} {c : Fin n} {s t : State Sid Kid n} {i : Fin n}
    (step : WorkerSteps cfg s i t)
    (behind : ∀ v task rest, s.worker i = .popOwn v →
      pop (s.ctx (cfg.home i)).tasks = some (task, rest) → task.callable = false →
        ¬ Available rest) : Step (taskView cfg s c) (taskView cfg t c) := by
  have moves : ∀ w : Worker Sid n, (∀ h : cfg.home i = c,
      Turn (taskView cfg s c) (taskView cfg (s.setWorker i w) c) ⟨i, h⟩
        (s.worker i).seeksTask w.seeksTask) →
      Step (taskView cfg s c) (taskView cfg (s.setWorker i w) c) := fun w turn =>
    view_turn rfl rfl id (fun _ => .inl) id turn
  have takes : ∀ {d : Fin n} {task : Item Sid} {rest : List (Item Sid)} {empty : Worker Sid n},
      pop (s.ctx d).tasks = some (task, rest) →
      (task.callable = false → ∀ h : cfg.home i = c, Turn (taskView cfg s c)
        (taskView cfg (s.take i d task rest empty) c) ⟨i, h⟩
        (s.worker i).seeksTask empty.seeksTask) →
      Step (taskView cfg s c) (taskView cfg (s.take i d task rest empty) c) := by
    intro d task rest empty popped dropped
    obtain ⟨call, shutdown, _⟩ := take_keeps s i d task rest empty
    refine view_turn (take_worker ..) (by rw [take_ctx, setTasks_notifier])
      (by simp only [State.rings, call, shutdown]; exact id) (fun _ some => .inl ?_)
      (by rw [call]; exact id) fun h => ?_
    · rw [take_ctx] at some
      exact setTasks_available popped some
    · cases hcall : task.callable with
      | true => exact .leave
      | false =>
        rw [if_neg (by simp)]
        exact dropped hcall h
  cases step with
  | stop => exact moves _ fun _ => .leave
  | begin => exact moves _ fun _ => .leave
  | load at_pc => exact moves _ fun h => by cases h; exact .load
  | popNone at_pc nothing =>
    apply moves
    intro h
    rw [at_pc, (scanning_seeks _ _).1]
    exact .look (h ▸ not_available_of_pop nothing)
  | @popOwn v task rest at_pc popped =>
    apply takes popped
    intro empty h
    rw [at_pc, (scanning_seeks _ _).1]
    apply Turn.look
    subst h
    simp only [taskView, State.view, take_ctx, State.setTasks, Function.update_self]
    exact behind v task rest at_pc popped empty
  | skip at_pc =>
    apply moves
    intro h
    rw [at_pc, (scanning_seeks _ _).1]
    exact .stay
  | steal at_pc popped => exact takes popped fun _ h => by rw [at_pc]; exact .stay
  | run => exact view_turn rfl rfl id (fun _ => .inl) id fun _ => .leave
  | leave => exact moves _ fun _ => .leave
  | stay at_pc => exact moves _ fun _ => by rw [at_pc]; exact .stay
  | block at_pc same =>
    apply moves
    intro h
    cases h
    rw [at_pc, ← same]
    exact .sleep
  | retry => exact moves _ fun _ => .leave

theorem worker_stopView {cfg : Config} {c : Fin n} {s t : State Sid Kid n} {i : Fin n}
    (step : WorkerSteps cfg s i t) : Step (stopView cfg s c) (stopView cfg t c) := by
  have moves : ∀ w : Worker Sid n, (∀ h : cfg.home i = c,
      Turn (stopView cfg s c) (stopView cfg (s.setWorker i w) c) ⟨i, h⟩
        (s.worker i).seeksStop w.seeksStop) →
      Step (stopView cfg s c) (stopView cfg (s.setWorker i w) c) := fun w turn =>
    view_turn rfl rfl id (fun _ => .inl) id turn
  have takes : ∀ {d : Fin n} {task : Item Sid} {rest : List (Item Sid)} {empty : Worker Sid n},
      (s.worker i).seeksStop = empty.seeksStop →
      Step (stopView cfg s c) (stopView cfg (s.take i d task rest empty) c) := by
    intro d task rest empty same
    obtain ⟨call, shutdown, requested⟩ := take_keeps s i d task rest empty
    refine view_turn (take_worker ..) (by rw [take_ctx, setTasks_notifier])
      (by simp only [State.rings, call, shutdown]; exact id)
      (fun j some => .inl (by rwa [requested] at some)) (by rw [shutdown]; exact id) fun h => ?_
    cases hcall : task.callable with
    | true => exact .leave
    | false =>
      rw [if_neg (by simp), same]
      exact .stay
  cases step with
  | stop => exact moves _ fun _ => .leave
  | begin => exact moves _ fun _ => .leave
  | load at_pc => exact moves _ fun h => by cases h; exact .load
  | popNone at_pc => exact moves _ fun h => by rw [at_pc, (scanning_seeks _ _).2]; exact .stay
  | popOwn at_pc => exact takes (by rw [at_pc, (scanning_seeks _ _).2]; rfl)
  | skip at_pc => exact moves _ fun h => by rw [at_pc, (scanning_seeks _ _).2]; exact .stay
  | steal at_pc => exact takes (by rw [at_pc]; rfl)
  | run => exact view_turn rfl rfl id (fun _ => .inl) id fun _ => .leave
  | leave => exact moves _ fun _ => .leave
  | stay at_pc running =>
    apply moves
    intro h
    rw [at_pc]
    exact .look (Bool.eq_false_iff.mp running)
  | block at_pc same =>
    apply moves
    intro h
    cases h
    rw [at_pc, ← same]
    exact .sleep
  | retry => exact moves _ fun _ => .leave

theorem notify_views {cfg : Config} {c : Fin n} {s t : State Sid Kid n} (idx : Fin n)
    (woken : Fin n → Bool)
    (wakes : (∃ i, s.eligible cfg idx i ∧ woken i = true) ∨ ∀ i, ¬ s.eligible cfg idx i)
    (worker : t.worker = (s.notify cfg idx woken).worker) (ctx : t.ctx = s.ctx)
    (requested : t.stop_requested = s.stop_requested)
    (owed : (∃ sid, s.call sid = .fetchAdd c) → ∃ sid, t.call sid = .fetchAdd c)
    (owes : s.shutdown.owes c → t.shutdown.owes c)
    (rings : c ≠ idx → s.rings c → t.rings c) :
    Step (taskView cfg s c) (taskView cfg t c) ∧ Step (stopView cfg s c) (stopView cfg t c) := by
  by_cases same : c = idx
  · subst same
    exact ⟨view_notify seeksTask_asleep (fun _ => rfl) worker (by rw [ctx]) wakes
        (fun _ some => ctx ▸ some) owed,
      view_notify seeksStop_asleep (fun _ => rfl) worker (by rw [ctx]) wakes
        (fun _ some => by rwa [requested] at some) owes⟩
  · have still : ∀ i, cfg.home i = c → t.worker i = s.worker i := fun i home => by
      have other : ¬ (cfg.home i = idx ∧ woken i = true) := fun h => same (home.symm.trans h.1)
      simp only [worker, State.notify, if_neg other]
    exact ⟨view_post still (by rw [ctx]) (rings same) (fun _ some => .inl (ctx ▸ some)) owed,
      view_post still (by rw [ctx]) (rings same) (fun _ some => .inl (by rwa [requested] at some))
        owes⟩

theorem context_index {cfg : Config} {k : Nat} (inside : k < cfg.contexts n) :
    (Fin.ofNat n k).val = k := by
  have := Nat.pos_of_neZero n
  refine Nat.mod_eq_of_lt (Nat.lt_of_lt_of_le inside ?_)
  unfold Config.contexts
  split <;> omega

theorem shutdown_views {cfg : Config} {c : Fin n} {s t : State Sid Kid n}
    (ok : ShutdownOk cfg s s.shutdown) (context : c < cfg.contexts n)
    (step : ShutdownSteps cfg s t) :
    Step (taskView cfg s c) (taskView cfg t c) ∧ Step (stopView cfg s c) (stopView cfg t c) := by
  have quiet : ∀ u : State Sid Kid n, u.worker = s.worker → u.ctx = s.ctx → u.call = s.call →
      (∀ k, s.shutdown ≠ .notifyAll k) →
      (∀ i, u.stop_requested i = true → s.stop_requested i = true ∨ u.shutdown.owes c) →
      (s.shutdown.owes c → u.shutdown.owes c) →
      Step (taskView cfg s c) (taskView cfg u c) ∧ Step (stopView cfg s c) (stopView cfg u c) := by
    intro u worker ctx call other made owes
    have rings : s.rings c → u.rings c := by
      simp only [State.rings, call]
      exact .imp_right fun h => absurd h (other _)
    exact ⟨view_post (fun i _ => congrFun worker i) (by rw [ctx]) rings
        (fun _ some => .inl (ctx ▸ some)) (by rw [call]; exact id),
      view_post (fun i _ => congrFun worker i) (by rw [ctx]) rings (fun j => made j) owes⟩
  cases step with
  | exchange at_pc =>
    exact quiet _ rfl rfl rfl (by simp [at_pc]) (fun _ => .inl) (by simp [at_pc, Shutdown.owes])
  | refused at_pc stopped =>
    rw [at_pc] at ok
    cases ok.2.1.symm.trans stopped
  | request at_pc =>
    exact quiet _ rfl rfl rfl (by simp [at_pc]) (fun _ _ => .inr trivial) (fun _ => trivial)
  | requested at_pc =>
    exact quiet _ rfl rfl rfl (by simp [at_pc]) (fun _ => .inl) (fun _ => Nat.zero_le _)
  | @fetchAdd k at_pc inside =>
    rw [at_pc] at ok
    have index := context_index inside
    by_cases same : c = Fin.ofNat n k
    · have bump : 0 < if cfg.pool.isLocal then 1 else s.size := by
        have := Nat.pos_of_neZero n
        rw [ok.1]
        split <;> omega
      have advanced : (s.ctx c).notifier < ((s.advance (Fin.ofNat n k)
          (if cfg.pool.isLocal then 1 else s.size)).ctx c).notifier := by
        simp only [State.advance, same, Function.update_self]
        omega
      have rings : State.rings { s.advance (Fin.ofNat n k) (if cfg.pool.isLocal then 1 else s.size)
          with shutdown := .notifyAll k } c := .inr (by rw [same, index])
      exact ⟨view_advance rfl advanced rings, view_advance rfl advanced rings⟩
    · have still : (s.advance (Fin.ofNat n k) (if cfg.pool.isLocal then 1 else s.size)).ctx c =
          s.ctx c := Function.update_of_ne same ..
      have rings : s.rings c → State.rings { s.advance (Fin.ofNat n k)
          (if cfg.pool.isLocal then 1 else s.size) with shutdown := .notifyAll k } c :=
        .imp_right fun h => by cases at_pc.symm.trans h
      have later : k ≤ c → k < c := fun low => Nat.lt_of_le_of_ne low fun eq =>
        same (Fin.ext (eq.symm.trans index.symm))
      exact ⟨view_post (fun _ _ => rfl) (by rw [still]) rings (fun _ some => .inl (still ▸ some)) id,
        view_post (fun _ _ => rfl) (by rw [still]) rings (fun _ => .inl)
          (by rw [at_pc]; exact later)⟩
  | @counted k at_pc outside =>
    refine quiet _ rfl rfl rfl (by simp [at_pc]) (fun _ => .inl) fun owes => ?_
    rw [at_pc] at owes
    have : k ≤ c := owes
    omega
  | @notifyAll k at_pc =>
    rw [at_pc] at ok
    have index := context_index ok.2.2.2
    refine notify_views (Fin.ofNat n k) (fun _ => true) ?_ rfl rfl rfl id
      (by rw [at_pc]; exact id) fun other => .imp_right fun h => ?_
    · by_cases some : ∃ i, s.eligible cfg (Fin.ofNat n k) i
      · exact .inl (some.imp fun i hi => ⟨hi, rfl⟩)
      · exact .inr (not_exists.mp some)
    · cases at_pc.symm.trans h
      exact absurd (Fin.ext index.symm) other
  | join at_pc =>
    exact quiet _ rfl rfl rfl (by simp [at_pc]) (fun _ => .inl) (by simp [at_pc, Shutdown.owes])
  | clear at_pc =>
    exact quiet _ rfl rfl rfl (by simp [at_pc]) (fun _ => .inl) (by simp [at_pc, Shutdown.owes])

variable [DecidableEq Sid]

theorem made_views {cfg : Config} {c idx : Fin n} {s t : State Sid Kid n} {sid : Sid}
    (told : s.call sid ≠ .notify c) (paid : s.call sid ≠ .fetchAdd c)
    (worker : t.worker = s.worker) (shutdown : t.shutdown = s.shutdown)
    (requested : t.stop_requested = s.stop_requested)
    (notifier : (t.ctx c).notifier = (s.ctx c).notifier)
    (call : t.call = Function.update s.call sid (.fetchAdd idx))
    (others : c ≠ idx → t.ctx c = s.ctx c) :
    Step (taskView cfg s c) (taskView cfg t c) ∧ Step (stopView cfg s c) (stopView cfg t c) := by
  have rings : s.rings c → t.rings c := by
    simp only [State.rings, call, shutdown]
    exact .imp_left (call_kept _ told)
  constructor
  · refine view_post (fun i _ => congrFun worker i) notifier rings (fun _ some => ?_)
      (by rw [call]; exact call_kept _ paid)
    by_cases same : c = idx
    · exact .inr ⟨sid, by rw [call, Function.update_self, same]⟩
    · exact .inl (others same ▸ some)
  · exact view_post (fun i _ => congrFun worker i) notifier rings
      (fun _ some => .inl (by rwa [requested] at some)) (by rw [shutdown]; exact id)

theorem call_views {cfg : Config} {c : Fin n} {s t : State Sid Kid n} {sid : Sid}
    (step : CallSteps cfg s sid t) : Step (taskView cfg s c) (taskView cfg t c) ∧
      Step (stopView cfg s c) (stopView cfg t c) := by
  have quiet : ∀ q : Call n, (∀ p, s.call sid ≠ .fetchAdd p) → (∀ p, s.call sid ≠ .notify p) →
      Step (taskView cfg s c) (taskView cfg (s.setCall sid q) c) ∧
        Step (stopView cfg s c) (stopView cfg (s.setCall sid q) c) := fun q paid told =>
    ⟨view_post (fun _ _ => rfl) rfl (.imp_left (call_kept q (told c))) (fun _ => .inl)
        (call_kept q (paid c)),
      view_post (fun _ _ => rfl) rfl (.imp_left (call_kept q (told c))) (fun _ => .inl) id⟩
  cases step with
  | stopped at_pc | global at_pc | round at_pc | index at_pc | divide at_pc =>
    exact quiet _ (by simp [at_pc]) (by simp [at_pc])
  | @claim idx callable runs at_pc lockFree =>
    have told : s.call sid ≠ .notify c := by simp [at_pc]
    refine ⟨view_post (fun _ _ => rfl) (insert_notifier ..) (.imp_left (call_kept _ told))
        (fun _ some => .inl ?_) (call_kept _ (by simp [at_pc])),
      view_post (fun _ _ => rfl) (insert_notifier ..) (.imp_left (call_kept _ told))
        (fun _ => .inl) id⟩
    simp only [State.setCall, insert, Function.update_apply] at some
    split at some
    · rename_i same
      subst same
      simp only [lockFree, Container.emplace] at some
      exact available_append (by simp) some
    · exact some
  | full =>
    exact ⟨view_post (fun _ _ => rfl) rfl id (fun _ => .inl) id,
      view_post (fun _ _ => rfl) rfl id (fun _ => .inl) id⟩
  | emplace at_pc =>
    exact made_views (by simp [at_pc]) (by simp [at_pc]) rfl rfl rfl (insert_notifier ..) rfl
      fun other => Function.update_of_ne other ..
  | publish at_pc =>
    exact made_views (by simp [at_pc]) (by simp [at_pc]) rfl rfl rfl (setTasks_notifier ..) rfl
      fun other => Function.update_of_ne other ..
  | @fetchAdd idx at_pc =>
    by_cases same : c = idx
    · subst same
      have advanced : ((s.advance c 1).ctx c).notifier = (s.ctx c).notifier + 1 := by
        simp [State.advance]
      have rings : ((s.advance c 1).setCall sid (.notify c)).rings c :=
        .inl ⟨sid, Function.update_self ..⟩
      exact ⟨view_advance rfl (by simp only [State.setCall]; omega) rings,
        view_advance rfl (by simp only [State.setCall]; omega) rings⟩
    · have told : s.call sid ≠ .notify c := by simp [at_pc]
      have paid : s.call sid ≠ .fetchAdd c := by simp [at_pc, Ne.symm same]
      have still : ((s.advance idx 1).setCall sid (.notify idx)).ctx c = s.ctx c :=
        Function.update_of_ne same ..
      exact ⟨view_post (fun _ _ => rfl) (by rw [still]) (.imp_left (call_kept _ told))
          (fun _ some => .inl (still ▸ some)) (call_kept _ paid),
        view_post (fun _ _ => rfl) (by rw [still]) (.imp_left (call_kept _ told)) (fun _ => .inl) id⟩

end Pot.Sandbox
