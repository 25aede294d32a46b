import Pot.SandboxWakeups
import Pot.Tally

/-! What becomes of the accepted functions: each is in one container, in one pair of hands, or
was run or dropped once. -/
namespace Pot.Sandbox
open Transition

variable {Sid Kid : Type} {n : Nat}

section Weights
variable [DecidableEq Sid] (sid : Sid)

def Context.holds (c : Context Sid) : Nat := c.tasks.countP fun x => x.call = sid

def Worker.holds : Worker Sid n → Nat
  | .run task => if task.call = sid then 1 else 0
  | _ => 0

def Thief.holds : Thief Sid n → Nat
  | .run task => if task.call = sid then 1 else 0
  | _ => 0

end Weights

def Call.accepted : Call n → Bool
  | .publish _ | .fetchAdd _ | .notify _ | .returned => true
  | _ => false

section Places
variable [DecidableEq Sid]

def State.queued (s : State Sid Kid n) (sid : Sid) : Nat := Tally.total (Context.holds sid) s.ctx
def State.running (s : State Sid Kid n) (sid : Sid) : Nat := Tally.total (Worker.holds sid) s.worker
def State.settled (s : State Sid Kid n) (sid : Sid) : Nat :=
  s.executed.count sid + s.dropped.count sid

variable {s : State Sid Kid n}

theorem queued_setTasks (c : Fin n) (tasks : List (Item Sid)) (sid : Sid) :
    (s.setTasks c tasks).queued sid + (s.ctx c).holds sid =
      s.queued sid + tasks.countP fun x => x.call = sid :=
  Tally.total_update (Context.holds sid) s.ctx c _

theorem queued_pop {c : Fin n} {task : Item Sid} {rest : List (Item Sid)}
    (popped : pop (s.ctx c).tasks = some (task, rest)) (sid : Sid) :
    (s.setTasks c rest).queued sid + (if task.call = sid then 1 else 0) = s.queued sid := by
  have moved := queued_setTasks (s := s) c rest sid
  have held : (s.ctx c).holds sid = (rest.countP fun x => x.call = sid) +
      if task.call = sid then 1 else 0 := by
    simp only [Context.holds, (pop_eq_some.mp popped).1, List.countP_cons, decide_eq_true_eq]
  omega

theorem queued_insert (cfg : Config) (call : Sid) (idx : Fin n) (callable : Bool) (runs : Nat)
    (sid : Sid) : (insert cfg s call idx callable runs).queued sid =
      s.queued sid + if call = sid then 1 else 0 := by
  have moved := Tally.total_update (Context.holds sid) s.ctx idx
    ((insert cfg s call idx callable runs).ctx idx)
  have added : ((insert cfg s call idx callable runs).ctx idx).holds sid =
      (s.ctx idx).holds sid + if call = sid then 1 else 0 := by
    simp only [insert, Function.update_self, Context.holds, (emplace_perm _ _ _).countP_eq,
      List.countP_cons, decide_eq_true_eq]
  have same : (insert cfg s call idx callable runs).ctx =
      Function.update s.ctx idx ((insert cfg s call idx callable runs).ctx idx) := by
    simp only [insert, Function.update_self]
  rw [State.queued, same]
  simp only [State.queued]
  omega

theorem queued_publish (idx : Fin n) (call sid : Sid) :
    (s.setTasks idx (publish (s.ctx idx).tasks call)).queued sid = s.queued sid := by
  have moved := queued_setTasks (s := s) idx (publish (s.ctx idx).tasks call) sid
  have same : ((publish (s.ctx idx).tasks call).countP fun x => x.call = sid) =
      (s.ctx idx).holds sid := by
    simp only [publish, List.countP_map, Context.holds]
    apply List.countP_congr
    intro x _
    simp only [Function.comp]
    split <;> rfl
  omega

theorem queued_advance (c : Fin n) (k : Nat) (sid : Sid) :
    (s.advance c k).queued sid = s.queued sid := by
  have moved : (s.advance c k).queued sid + (s.ctx c).holds sid =
      s.queued sid + (s.ctx c).holds sid := Tally.total_update (Context.holds sid) s.ctx c _
  omega

variable [Fintype Kid]

def State.stolen (s : State Sid Kid n) (sid : Sid) : Nat := Tally.total (Thief.holds sid) s.thief

/-- Every accepted function is in one place. -/
def Ledger (s : State Sid Kid n) : Prop :=
  ∀ sid, s.queued sid + s.running sid + s.stolen sid + s.settled sid = (s.call sid).accepted.toNat

/-- The ledger while so many functions of each call are between two places. -/
def State.Lacks (s : State Sid Kid n) (between : Sid → Nat) : Prop :=
  ∀ sid, s.queued sid + s.running sid + s.stolen sid + s.settled sid + between sid =
    (s.call sid).accepted.toNat

theorem ledger_iff : Ledger s ↔ s.Lacks fun _ => 0 := Iff.rfl

section Lacks
variable {between left : Sid → Nat}

theorem Ledger.pop {c : Fin n} {task : Item Sid} {rest : List (Item Sid)}
    (h : Ledger s) (popped : pop (s.ctx c).tasks = some (task, rest)) :
    (s.setTasks c rest).Lacks fun sid => if task.call = sid then 1 else 0 := by
  intro sid
  have before := h sid
  have out := queued_pop popped sid
  change (s.setTasks c rest).queued sid + s.running sid + s.stolen sid + s.settled sid +
    (if task.call = sid then 1 else 0) = (s.call sid).accepted.toNat
  omega

theorem State.Lacks.setWorker {i : Fin n} {w : Worker Sid n} (h : s.Lacks between)
    (moved : ∀ sid, w.holds sid + left sid = (s.worker i).holds sid + between sid) :
    (s.setWorker i w).Lacks left := by
  intro sid
  have before := h sid
  have hand : (s.setWorker i w).running sid + (s.worker i).holds sid =
      s.running sid + w.holds sid := Tally.total_update (Worker.holds sid) s.worker i w
  have moved := moved sid
  change s.queued sid + (s.setWorker i w).running sid + s.stolen sid + s.settled sid + left sid =
    (s.call sid).accepted.toNat
  omega

theorem State.Lacks.setThief [DecidableEq Kid] {k : Kid} {t : Thief Sid n} (h : s.Lacks between)
    (moved : ∀ sid, t.holds sid + left sid = (s.thief k).holds sid + between sid) :
    (s.setThief k t).Lacks left := by
  intro sid
  have before := h sid
  have hand : (s.setThief k t).stolen sid + (s.thief k).holds sid = s.stolen sid + t.holds sid :=
    Tally.total_update (Thief.holds sid) s.thief k t
  have moved := moved sid
  change s.queued sid + s.running sid + (s.setThief k t).stolen sid + s.settled sid + left sid =
    (s.call sid).accepted.toNat
  omega

theorem State.Lacks.execute {call : Sid} (h : s.Lacks fun sid => if call = sid then 1 else 0) :
    Ledger { s with executed := s.executed ++ [call] } := by
  intro sid
  have before := h sid
  have ran := Tally.count_push s.executed call sid
  change s.queued sid + s.running sid + s.stolen sid +
    ((s.executed ++ [call]).count sid + s.dropped.count sid) = (s.call sid).accepted.toNat
  simp only [State.settled] at before
  omega

theorem State.Lacks.drop {call : Sid} (h : s.Lacks fun sid => if call = sid then 1 else 0) :
    Ledger { s with dropped := s.dropped ++ [call] } := by
  intro sid
  have before := h sid
  have dropped := Tally.count_push s.dropped call sid
  change s.queued sid + s.running sid + s.stolen sid +
    (s.executed.count sid + (s.dropped ++ [call]).count sid) = (s.call sid).accepted.toNat
  simp only [State.settled] at before
  omega

end Lacks

theorem ledger_setWorker {i : Fin n} {w : Worker Sid n} (h : Ledger s)
    (same : ∀ sid, w.holds sid = (s.worker i).holds sid) : Ledger (s.setWorker i w) :=
  ledger_iff.mpr ((ledger_iff.mp h).setWorker same)

theorem ledger_setThief [DecidableEq Kid] {k : Kid} {t : Thief Sid n} (h : Ledger s)
    (same : ∀ sid, t.holds sid = (s.thief k).holds sid) : Ledger (s.setThief k t) :=
  ledger_iff.mpr ((ledger_iff.mp h).setThief same)

theorem ledger_setCall {sid : Sid} {q : Call n} (h : Ledger s)
    (same : q.accepted = (s.call sid).accepted) : Ledger (s.setCall sid q) := by
  intro d
  have kept : ((s.setCall sid q).call d).accepted = (s.call d).accepted := by
    simp only [State.setCall, Function.update_apply]
    split
    · rename_i eq
      rw [same, eq]
    · rfl
  rw [kept]
  exact h d

theorem ledger_insert {sid : Sid} {idx : Fin n} {callable : Bool} {runs : Nat} {q : Call n}
    (cfg : Config) (h : Ledger s) (fresh : (s.call sid).accepted = false)
    (done : q.accepted = true) : Ledger ((insert cfg s sid idx callable runs).setCall sid q) := by
  intro d
  have before := h d
  have added := queued_insert (s := s) cfg sid idx callable runs d
  have accepted : (((insert cfg s sid idx callable runs).setCall sid q).call d).accepted.toNat =
      (s.call d).accepted.toNat + if sid = d then 1 else 0 := by
    simp only [State.setCall, insert, Function.update_apply]
    by_cases same : sid = d
    · rw [if_pos same.symm, if_pos same, ← same, done, fresh]
      rfl
    · rw [if_neg (Ne.symm same), if_neg same]
      rfl
  rw [accepted]
  change (insert cfg s sid idx callable runs).queued d + s.running d + s.stolen d + s.settled d =
    (s.call d).accepted.toNat + if sid = d then 1 else 0
  omega

theorem ledger_take {i c : Fin n} {task : Item Sid} {rest : List (Item Sid)} {empty : Worker Sid n}
    (h : Ledger s) (popped : pop (s.ctx c).tasks = some (task, rest))
    (idle : ∀ sid, (s.worker i).holds sid = 0) (nothing : ∀ sid, empty.holds sid = 0) :
    Ledger (s.take i c task rest empty) := by
  have between := h.pop popped
  have free : ∀ sid, ((s.setTasks c rest).worker i).holds sid = 0 := idle
  simp only [State.take]
  split
  · exact ledger_iff.mpr (between.setWorker fun sid => by rw [free, Nat.zero_add]; rfl)
  · exact (between.setWorker fun sid => by rw [free, nothing]).drop

theorem ledger_notify [NeZero n] (cfg : Config) (h : Ledger s) (c : Fin n) (woken : Fin n → Bool) :
    Ledger (s.notify cfg c woken) := by
  intro sid
  have kept : (s.notify cfg c woken).running sid = s.running sid := by
    apply Tally.total_congr
    intro i
    simp only [State.notify]
    split
    · cases s.worker i <;> rfl
    · rfl
  change s.queued sid + (s.notify cfg c woken).running sid + s.stolen sid + s.settled sid =
    (s.call sid).accepted.toNat
  rw [kept]
  exact h sid

theorem ledger_advance (h : Ledger s) (c : Fin n) (k : Nat) : Ledger (s.advance c k) := by
  intro sid
  change (s.advance c k).queued sid + s.running sid + s.stolen sid + s.settled sid =
    (s.call sid).accepted.toNat
  rw [queued_advance]
  exact h sid

theorem thief_ledger [DecidableEq Kid] {t : State Sid Kid n} {k : Kid} (h : Ledger s)
    (step : ThiefSteps s k t) : Ledger t := by
  have idle : ∀ {task : Item Sid}, s.thief k = .run task →
      (s.setThief k .idle).Lacks fun sid => if task.call = sid then 1 else 0 := fun at_pc =>
    (ledger_iff.mp h).setThief fun sid => by rw [at_pc]; exact Nat.zero_add _
  cases step with
  | nothing at_pc | skip at_pc => exact ledger_setThief h fun sid => by rw [at_pc]; rfl
  | @steal target more task rest at_pc popped =>
    have free : (s.setTasks target rest).thief k = .scan (target :: more) := at_pc
    exact ledger_iff.mpr ((h.pop popped).setThief fun sid => by
      rw [free]; exact (Nat.zero_add _).symm)
  | run at_pc => exact (idle at_pc).execute
  | badFunctionCall at_pc => exact (idle at_pc).drop

theorem worker_ledger [NeZero n] {cfg : Config} {t : State Sid Kid n} {i : Fin n} (h : Ledger s)
    (step : WorkerSteps cfg s i t) : Ledger t := by
  have scanning : ∀ v targets sid, (Worker.scanning v targets : Worker Sid n).holds sid = 0 :=
    fun v targets sid => by cases targets <;> rfl
  cases step with
  | stop at_pc | begin at_pc | load at_pc | leave at_pc | stay at_pc | block at_pc | retry at_pc =>
    exact ledger_setWorker h fun sid => by rw [at_pc]; rfl
  | popNone at_pc | skip at_pc =>
    exact ledger_setWorker h fun sid => by rw [at_pc, scanning]; rfl
  | popOwn at_pc popped => exact ledger_take h popped (fun _ => by rw [at_pc]; rfl) (scanning _ _)
  | steal at_pc popped => exact ledger_take h popped (fun _ => by rw [at_pc]; rfl) (fun _ => rfl)
  | run at_pc =>
    have between := (ledger_iff.mp h).setWorker (i := i) (w := .loop) fun sid => by
      rw [at_pc]; exact Nat.zero_add _
    exact between.execute

variable [NeZero n]

theorem call_ledger {cfg : Config} {t : State Sid Kid n} {sid : Sid} (h : Ledger s)
    (step : CallSteps cfg s sid t) : Ledger t := by
  cases step with
  | claim at_pc | emplace at_pc => exact ledger_insert cfg h (by rw [at_pc]; rfl) rfl
  | full => exact h
  | publish at_pc =>
    refine ledger_setCall (fun sid => ?_) (by rw [State.setTasks, at_pc]; rfl)
    change State.queued (s.setTasks _ _) sid + s.running sid + s.stolen sid + s.settled sid =
      (s.call sid).accepted.toNat
    rw [queued_publish]
    exact h sid
  | fetchAdd at_pc =>
    exact ledger_setCall (ledger_advance h _ _) (by rw [State.advance, at_pc]; rfl)
  | index at_pc | divide at_pc =>
    exact ledger_setCall (s := { s with m_next_thread_idx := s.m_next_thread_idx + 1 }) h
      (by rw [at_pc]; rfl)
  | stopped at_pc | global at_pc | round at_pc => exact ledger_setCall h (by rw [at_pc]; rfl)

theorem step_ledger [DecidableEq Kid] {cfg : Config} {t : State Sid Kid n} {a : Act Sid Kid n}
    (h : Ledger s) (taken : step cfg s a = some t) : Ledger t := by
  cases step_cases taken with
  | submit at_pc => exact ledger_setCall h (by rw [at_pc]; rfl)
  | call step => exact call_ledger h step
  | notifyOne at_pc =>
    exact ledger_setCall (ledger_notify cfg h _ _) (by rw [State.notify, at_pc]; rfl)
  | worker step => exact worker_ledger h step
  | wake at_pc => exact ledger_setWorker h fun sid => by rw [at_pc]; rfl
  | trySteal at_pc => exact ledger_setThief h fun sid => by rw [at_pc]; rfl
  | thief step => exact thief_ledger h step
  | shutdown => exact h
  | stop step =>
    cases step with
    | @fetchAdd k =>
      exact ledger_advance h (Fin.ofNat n k) (if cfg.pool.isLocal then 1 else s.size)
    | @notifyAll k => exact ledger_notify cfg h (Fin.ofNat n k) fun _ => true
    | _ => exact h

end Places

end Pot.Sandbox
