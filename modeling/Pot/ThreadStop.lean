import Mathlib.Data.Fintype.Basic
import Pot.Mutex
import Pot.ThreadSteps

/-! Whether the stop signal reaches pot::thread. The flag is set and signalled without m_mutex,
so both can fall between a predicate that was false and the block that follows it. -/
namespace Pot.Thread
open Transition

variable {Sid : Type}

def Worker.locked : Worker Sid → Bool
  | .predicate | .block | .take | .unlock _ | .leave => true
  | _ => false

def Call.locked : Call → Bool
  | .emplace | .unlock => true
  | _ => false

def State.inside (s : State Sid) : Owner Sid → Bool
  | .worker => s.worker.locked
  | .caller i => (s.call i).locked

def Exclusive (s : State Sid) : Prop := Mutex.Guards s.m_mutex s.inside

theorem Exclusive.worker {s : State Sid} (h : Exclusive s) (locked : s.worker.locked = true)
    (i : Sid) : (s.call i).locked = false :=
  Mutex.Guards.alone h (show s.inside .worker = true from locked) (q := .caller i)
    fun same => by cases same

theorem inside_goto (s : State Sid) (w : Worker Sid) :
    ∀ o, o ≠ .worker → (s.goto w).inside o = s.inside o := by
  rintro (_ | i) other
  · exact absurd rfl other
  · rfl

theorem Exclusive.goto {s : State Sid} (h : Exclusive s) {w : Worker Sid}
    (stays : w.locked = true → s.worker.locked = true) : Exclusive (s.goto w) :=
  Mutex.Guards.move h (inside_goto s w) stays

@[simp] theorem unblock_ne_blocked (w : Worker Sid) : w.unblock ≠ .blocked := by
  cases w <;> simp [Worker.unblock]

@[simp] theorem unblock_eq_block {w : Worker Sid} : w.unblock = .block ↔ w = .block := by
  cases w <;> simp [Worker.unblock]

@[simp] theorem unblock_locked (w : Worker Sid) : w.unblock.locked = w.locked := by
  cases w <;> rfl

def Call.inProgress : Call → Bool
  | .idle | .returned => false
  | _ => true

/-- Stop has been requested and signalled, no run() is in progress, and the worker of a thread
with nothing to do is blocked. -/
def Hung (s : State Sid) : Prop :=
  s.stop_requested = true ∧ s.join = .join ∧ s.m_queue = [] ∧
    (∀ i, (s.call i).inProgress = false) ∧ s.worker = .blocked

/-- The notify_all of request_stop() does not come between a predicate that was false and the
block that follows it, unless some run() is still to enqueue its function and to notify. -/
def SignalsInTime (s : State Sid) : Act Sid → Prop
  | .stop => s.join = .notifyAll → s.worker = .block → ∃ i, s.call i = .lock
  | _ => True

/-- A worker that has stopped waiting for the flag waits for a run() call only. -/
structure Signalled (s : State Sid) : Prop where
  blocking : s.join = .join ∨ s.join = .returned → s.worker = .block → ∃ i, s.call i = .lock
  blocked : s.join = .join ∨ s.join = .returned → s.worker = .blocked →
    ∃ i, (s.call i).inProgress = true

theorem Signalled.away {s : State Sid} (blocking : s.worker ≠ .block) (blocked : s.worker ≠ .blocked) :
    Signalled s :=
  ⟨fun _ same => absurd same blocking, fun _ same => absurd same blocked⟩

theorem Signalled.early {s : State Sid} (early : ¬ (s.join = .join ∨ s.join = .returned)) :
    Signalled s :=
  ⟨fun late => absurd late early, fun late => absurd late early⟩

theorem only_notifies {p : Call} (outside : p.locked = false) (queued : p ≠ .lock)
    (busy : p.inProgress = true) : p = .notifyOne := by
  cases p <;> simp_all [Call.locked, Call.inProgress]

def Worker.blocks : Worker Sid → Bool
  | .block => true
  | _ => false

theorem blocks_iff {w : Worker Sid} : w.blocks = true ↔ w = .block := by
  cases w <;> simp [Worker.blocks]

variable [DecidableEq Sid]

theorem inside_setCall (s : State Sid) (i : Sid) (p : Call) :
    (s.setCall i p).inside (.caller i) = p.locked ∧
      ∀ o, o ≠ .caller i → (s.setCall i p).inside o = s.inside o := by
  constructor
  · simp [State.inside, State.setCall]
  · rintro (_ | j) other
    · rfl
    · have different : j ≠ i := fun same => other (same ▸ rfl)
      simp [State.inside, State.setCall, different]

theorem Exclusive.setCall {s : State Sid} (h : Exclusive s) (i : Sid) {p : Call}
    (stays : p.locked = true → (s.call i).locked = true) : Exclusive (s.setCall i p) :=
  Mutex.Guards.move h (inside_setCall s i p).2 fun entered => stays ((inside_setCall s i p).1 ▸ entered)

theorem step_exclusive {s t : State Sid} {a : Act Sid} (h : Exclusive s)
    (taken : step s a = some t) : Exclusive t := by
  cases step_cases taken with
  | join | requestStop | joined => exact h
  | run at_pc => exact h.setCall _ (by simp [Call.locked])
  | runInTask busy at_pc =>
    exact (h.goto (by simp [Worker.locked])).setCall _ (by simp [Call.locked])
  | lock _ free => exact Mutex.Guards.acquire (free ▸ h) (inside_setCall s _ _).2
  | emplace at_pc =>
    exact Mutex.Guards.move h (inside_setCall s _ _).2 (by simp [State.inside, at_pc, Call.locked])
  | unlock at_pc =>
    exact Mutex.Guards.release h (by simp [State.inside, at_pc, Call.locked]) (inside_setCall s _ _).2
      (inside_setCall s _ _).1
  | notifyOne at_pc =>
    exact (h.goto (by simp)).setCall _ (by simp [Call.locked])
  | acquire _ free => exact Mutex.Guards.acquire (free ▸ h) (inside_goto s _)
  | stopped | loop | wake => exact h.goto (by simp [Worker.locked])
  | holds at_pc | fails at_pc | drained at_pc | nothing at_pc =>
    exact h.goto (by simp [at_pc, Worker.locked])
  | take at_pc =>
    exact Mutex.Guards.move h (inside_goto s _) (by simp [State.inside, at_pc, Worker.locked])
  | block at_pc | start at_pc | again at_pc | leave at_pc =>
    exact Mutex.Guards.release h (p := .worker) (by simp [State.inside, at_pc, Worker.locked])
      (inside_goto s _) rfl
  | finish at_pc =>
    exact Mutex.Guards.move h (inside_goto s _) (by simp [State.inside, State.goto, Worker.locked])
  | notifyAll =>
    exact Mutex.Guards.move h (inside_goto s _) (by simp [State.inside, State.goto])

theorem reached_exclusive {s : State Sid} (reached : Reached (system Sid) s) : Exclusive s := by
  refine Reached.invariant (I := Exclusive) ?_ (fun _ _ _ h taken => step_exclusive h taken) reached
  rintro _ rfl (_ | i) entered <;> cases entered

theorem Signalled.setCall {s t : State Sid} (h : Signalled s) {i : Sid} {p : Call}
    (join : t.join = s.join) (worker : t.worker = s.worker) (call : t.call = Function.update s.call i p)
    (busy : p.inProgress = true) (others : s.worker = .block → s.call i ≠ .lock) :
    Signalled t := by
  refine ⟨fun late at_pc => ?_, fun _ _ => ⟨i, ?_⟩⟩
  · rw [join] at late
    rw [worker] at at_pc
    obtain ⟨j, hj⟩ := h.blocking late at_pc
    have different : j ≠ i := fun same => others at_pc (same ▸ hj)
    exact ⟨j, by rw [call, Function.update_of_ne different, hj]⟩
  · rw [call, Function.update_self]
    exact busy

theorem reached_flag {s : State Sid} (reached : Reached (system Sid) s) :
    s.stop_requested = true ↔ s.join ≠ .idle ∧ s.join ≠ .requestStop := by
  refine Reached.invariant (I := fun s => s.stop_requested = true ↔
    s.join ≠ .idle ∧ s.join ≠ .requestStop) ?_ (fun s a t h taken => ?_) reached
  · rintro _ rfl
    simp [initial]
  · cases step_cases (show step s a = some t from taken) with
    | join at_pc | notifyAll at_pc | joined at_pc => simp [h, at_pc, State.goto]
    | requestStop => simp
    | _ => exact h

theorem step_signalled {s t : State Sid} {a : Act Sid} (reached : Reached (system Sid) s)
    (h : Signalled s) (inTime : SignalsInTime s a) (taken : step s a = some t) : Signalled t := by
  have alone := reached_exclusive reached
  have flag := reached_flag reached
  cases step_cases taken with
  | run at_pc => exact h.setCall rfl rfl rfl rfl fun _ same => by cases at_pc.symm.trans same
  | runInTask =>
    exact .away (by simp [State.setCall, State.goto]) (by simp [State.setCall, State.goto])
  | lock _ free =>
    refine h.setCall rfl rfl rfl rfl fun blocking => ?_
    have unowned : Mutex.Guards none s.inside := free ▸ alone
    have outside : s.worker.locked = false := unowned.free .worker
    rw [blocking] at outside
    cases outside
  | emplace at_pc | unlock at_pc =>
    exact h.setCall rfl rfl rfl rfl fun _ same => by cases at_pc.symm.trans same
  | @notifyOne i at_pc =>
    refine ⟨fun late blocking => ?_, fun _ blocked => absurd blocked (unblock_ne_blocked _)⟩
    obtain ⟨j, hj⟩ := h.blocking late (unblock_eq_block.mp blocking)
    have different : j ≠ i := fun same => by cases at_pc.symm.trans (same ▸ hj)
    exact ⟨j, (Function.update_of_ne different ..).trans hj⟩
  | fails _ stop =>
    refine .early fun late => ?_
    have on : s.stop_requested = true := flag.mpr (by rcases late with at_pc | at_pc <;>
      simp [show s.join = _ from at_pc])
    cases stop.symm.trans on
  | block at_pc =>
    refine ⟨fun _ same => (by cases same), fun late _ => ?_⟩
    obtain ⟨i, hi⟩ := h.blocking late at_pc
    exact ⟨i, congrArg Call.inProgress hi⟩
  | join | requestStop => exact .early (by simp)
  | notifyAll at_pc =>
    exact ⟨fun _ blocking => inTime at_pc (unblock_eq_block.mp blocking),
      fun _ blocked => absurd blocked (unblock_ne_blocked _)⟩
  | joined at_pc left => exact .away (by simp [left]) (by simp [left])
  | _ => exact .away (by simp [State.goto]) (by simp [State.goto])

theorem under_signalled {s : State Sid} (reached : ReachedUnder (system Sid) SignalsInTime s) :
    Signalled s := by
  induction reached with
  | start eq => cases eq; exact .early (by simp [initial])
  | next before inTime taken ih => exact step_signalled before.reached ih inTime taken

/-- m_mutex keeps the queue as the predicate has seen it. -/
theorem step_empty {s t : State Sid} {a : Act Sid} (alone : Exclusive s)
    (h : s.worker = .block → s.m_queue = []) (taken : step s a = some t) :
    t.worker = .block → t.m_queue = [] := by
  intro blocking
  cases step_cases taken with
  | run | lock | unlock | join | requestStop | joined => exact h blocking
  | @emplace i at_pc =>
    have outside := alone.worker (by rw [show s.worker = .block from blocking]; rfl) i
    rw [at_pc] at outside
    cases outside
  | notifyOne | notifyAll => exact h (unblock_eq_block.mp blocking)
  | fails _ _ queue => exact queue
  | _ => cases blocking

theorem reached_calls {s : State Sid} (reached : Reached (system Sid) s) :
    ∃ l : List Sid, ∀ i, i ∉ l → s.call i = .idle := by
  refine ReachedUnder.support (fun (s : State Sid) i => s.call i) .idle ?_ ?_ reached
  · rintro _ rfl i
    rfl
  · intro s a t taken
    cases step_cases (show step s a = some t from taken) with
    | @run i | @runInTask i | @lock i | @emplace i | @unlock i | @notifyOne i =>
      exact ⟨[i], fun j outside => update_outside _ _ _ j outside⟩
    | _ => exact ⟨[], fun _ _ => rfl⟩

/-- The signal has gone by, and every run() call that is left only notifies. -/
structure Missed (s : State Sid) : Prop where
  reached : Reached (system Sid) s
  flag : s.stop_requested = true
  join : s.join = .join
  worker : s.worker = .block
  queue : s.m_queue = []
  calls : ∀ i, (s.call i).inProgress = true → s.call i = .notifyOne

theorem Missed.notify {s : State Sid} (h : Missed s) (i : Sid) :
    Leads (system Sid) s fun u =>
      Missed u ∧ (u.call i).inProgress = false ∧ ∀ j, j ≠ i → u.call j = s.call j := by
  by_cases busy : (s.call i).inProgress = true
  · have at_pc := h.calls i busy
    have taken : (system Sid).step s (.call i) =
        some ((s.goto s.worker.unblock).setCall i .returned) := by
      simp only [system, step, at_pc, callStep]
    refine .next taken (.now ⟨⟨h.reached.next taken, h.flag, h.join, ?_, h.queue, fun j => ?_⟩, ?_,
      fun j other => Function.update_of_ne other ..⟩)
    · exact unblock_eq_block.mpr h.worker
    · simp only [State.setCall, Function.update_apply]
      split
      · exact fun busy => by cases busy
      · exact h.calls j
    · simp only [State.setCall, Function.update_self]
      rfl
  · exact .now ⟨h, Bool.not_eq_true _ ▸ busy, fun _ _ => rfl⟩

theorem Missed.notify_all {s : State Sid} (h : Missed s) :
    Leads (system Sid) s fun u => Missed u ∧ ∀ i, (u.call i).inProgress = false := by
  obtain ⟨away, others⟩ := reached_calls h.reached
  refine leads_home (fun s i h => ?_) away h
    fun i outside => by rw [others i outside]; rfl
  refine (h.notify i).mono fun u ⟨missed, done, kept⟩ => ⟨missed, done, fun j other quiet => ?_⟩
  rw [kept j other]
  exact quiet

theorem Missed.hangs {s : State Sid} (h : Missed s) (done : ∀ i, (s.call i).inProgress = false) :
    Leads (system Sid) s Hung := by
  have taken : (system Sid).step s .worker = some ({ s with m_mutex := none }.goto .blocked) := by
    simp only [system, step, h.worker, workerStep]
  exact .next taken (.now ⟨h.flag, h.join, h.queue, done, rfl⟩)

theorem reached_empty {s : State Sid} (reached : Reached (system Sid) s) :
    s.worker = .block → s.m_queue = [] := by
  refine (Reached.invariant (I := fun s => Exclusive s ∧ (s.worker = .block → s.m_queue = [])) ?_ ?_
    reached).2
  · rintro _ rfl
    exact ⟨reached_exclusive (.start rfl), fun blocking => by cases blocking⟩
  · exact fun s a t h taken => ⟨step_exclusive h.1 taken, step_empty h.1 h.2 taken⟩

/-- With every signal in time join() gets its worker back. And after one that is not in time the
run can go on to where it is blocked for good. -/
theorem stop_not_lost (Sid : Type) [DecidableEq Sid] :
    (∀ s : State Sid, ReachedUnder (system Sid) SignalsInTime s → ¬ Hung s) ∧
    ∀ (s t : State Sid) (a : Act Sid), Reached (system Sid) s → ¬ SignalsInTime s a →
      step s a = some t → ∃ (as : List (Act Sid)) (u : State Sid),
        replay (system Sid) t as = some u ∧ Hung u := by
  constructor
  · rintro s reached ⟨_, join, _, done, blocked⟩
    obtain ⟨i, busy⟩ := (under_signalled reached).blocked (.inl join) blocked
    cases (done i).symm.trans busy
  · intro s t a reached late taken
    cases a with
    | stop =>
      simp only [SignalsInTime, Classical.not_imp, not_exists] at late
      obtain ⟨at_pc, blocking, noLock⟩ := late
      have stopped : t = { s with join := .join }.goto s.worker.unblock := by
        rw [step, at_pc] at taken
        exact (Option.some.inj taken).symm
      have flag := reached_flag reached
      have missed : Missed t := by
        refine ⟨reached.next (a := .stop) taken, ?_, ?_, ?_, ?_, fun i busy => ?_⟩
        · rw [stopped]
          exact flag.mpr (by simp [at_pc])
        · rw [stopped]
          rfl
        · rw [stopped]
          exact unblock_eq_block.mpr blocking
        · rw [stopped]
          exact (reached_empty reached blocking :)
        · rw [stopped] at busy ⊢
          exact only_notifies ((reached_exclusive reached).worker (by rw [blocking]; rfl) i) (noLock i)
            busy
      refine missed.notify_all.trans ?_
      rintro u ⟨missed, done⟩
      exact missed.hangs done
    | _ => exact absurd trivial late

section Decidable
variable [Fintype Sid]

instance (s : State Sid) : (a : Act Sid) → Decidable (SignalsInTime s a)
  | .stop => decidable_of_iff
      (s.join = .notifyAll → s.worker.blocks = true → ∃ i, s.call i = .lock)
      (by rw [SignalsInTime, blocks_iff])
  | .run _ | .runInTask _ | .call _ | .worker | .wake | .join => isTrue trivial

end Decidable

def stopWaiting : List (Act Unit) :=
  [.worker, .worker, .worker, .worker, .join, .stop, .stop, .worker, .worker, .worker, .worker, .stop]

def stopped : State Unit := (replay (system Unit) initial stopWaiting).get rfl

theorem stop_not_lost_stopped : stopped.join = .returned ∧ ¬ Hung stopped := by
  have reached : ReachedUnder (system Unit) SignalsInTime stopped :=
    ReachedUnder.replay (.start rfl) stopWaiting (by decide) (Option.some_get _).symm
  exact ⟨rfl, (stop_not_lost Unit).1 stopped reached⟩

def stopUnseen : List (Act Unit) := [.worker, .worker, .worker, .join, .stop, .stop, .worker]

theorem stop_lost : ¬ ∀ s : State Unit, Reached (system Unit) s → ¬ Hung s := by
  intro never
  have reached : Reached (system Unit) ((replay (system Unit) initial stopUnseen).get rfl) :=
    Reached.replay (.start rfl) stopUnseen (Option.some_get _).symm
  exact never _ reached ⟨rfl, rfl, rfl, fun _ => rfl, rfl⟩

end Pot.Thread
