import Mathlib.Data.List.Nodup
import Pot.ThreadSteps

/-! What pot::thread has executed when join() returns. The worker looks at the flag between two
functions, so a stop leaves behind whatever is queued beyond the one it may be about to take. -/
namespace Pot.Thread
open Transition

variable {Sid : Type}

def Worker.hand : Worker Sid → List Sid
  | .unlock (some task) => [task]
  | .run task => [task.function]
  | _ => []

/-- How many functions the worker still takes once the flag is set: one if it has passed its
while test. -/
def Worker.takes : Worker Sid → Nat
  | .lock | .predicate | .block | .blocked | .relock | .take => 1
  | _ => 0

def Call.enqueued : Call → Bool
  | .unlock | .notifyOne | .returned => true
  | _ => false

/-- When the flag was set, nothing submitted before join() was queued beyond what the worker
still took. -/
def TakenInTime (s : State Sid) : Prop :=
  ∃ worker m_queue, s.atStop = some (worker, m_queue) ∧
    ∀ i ∈ m_queue.drop worker.takes, s.before i = false

/-- What has been enqueued has been executed, is with the worker or is queued, in this order. -/
structure Ledger (s : State Sid) : Prop where
  order : s.enqueued = s.executed ++ s.worker.hand ++ s.m_queue
  once : s.enqueued.Nodup
  enqueued : ∀ i, i ∈ s.enqueued ↔ (s.call i).enqueued = true
  before : ∀ i, s.before i = true → s.call i = .returned

/-- How the queue has changed since the flag was set: the worker has taken what it was about to
take, and what has come was not submitted before join(). -/
def SinceStop (s : State Sid) : Prop :=
  ∀ worker m_queue, s.atStop = some (worker, m_queue) →
    ∃ k added, k + s.worker.takes = worker.takes ∧ s.m_queue = m_queue.drop k ++ added ∧
      ∀ i ∈ added, s.before i = false

structure Stopped (s : State Sid) : Prop where
  flag : s.stop_requested = s.atStop.isSome
  joining : s.atStop.isSome = true ↔ s.join ≠ .idle ∧ s.join ≠ .requestStop
  returned : s.join = .returned → s.worker = .returned
  since : SinceStop s

theorem SinceStop.keep {s t : State Sid} (h : SinceStop s) (atStop : t.atStop = s.atStop)
    (takes : t.worker.takes = s.worker.takes) (queue : t.m_queue = s.m_queue)
    (before : ∀ i, t.before i = s.before i) : SinceStop t := by
  intro worker m_queue at_stop
  rw [atStop] at at_stop
  obtain ⟨k, added, sum, split, late⟩ := h worker m_queue at_stop
  exact ⟨k, added, by rw [takes, sum], by rw [queue, split], fun i hi => (before i).trans (late i hi)⟩

theorem SinceStop.take {s t : State Sid} (h : SinceStop s) (atStop : t.atStop = s.atStop)
    (takes : s.worker.takes = 1 ∧ t.worker.takes = 0) (queue : t.m_queue = s.m_queue.drop 1)
    (before : ∀ i, t.before i = s.before i) : SinceStop t := by
  intro worker m_queue at_stop
  rw [atStop] at at_stop
  obtain ⟨k, added, sum, split, late⟩ := h worker m_queue at_stop
  have next : k + 1 = worker.takes := by omega
  cases left : m_queue.drop k with
  | nil =>
    refine ⟨k + 1, added.drop 1, by omega, ?_, fun i hi => ?_⟩
    · have none : m_queue.drop (k + 1) = [] := by rw [← List.drop_drop, left]; rfl
      rw [queue, split, left, none]
      rfl
    · exact (before i).trans (late i (List.mem_of_mem_drop hi))
  | cons task rest =>
    refine ⟨k + 1, added, by omega, ?_, fun i hi => (before i).trans (late i hi)⟩
    rw [queue, split, ← List.drop_drop, left]
    rfl

theorem SinceStop.push {s t : State Sid} (h : SinceStop s) {i : Sid} (atStop : t.atStop = s.atStop)
    (worker : t.worker = s.worker) (queue : t.m_queue = s.m_queue ++ [i])
    (before : t.before = s.before) (late : s.before i = false) : SinceStop t := by
  intro w m_queue at_stop
  rw [atStop] at at_stop
  obtain ⟨k, added, sum, split, rest⟩ := h w m_queue at_stop
  refine ⟨k, added ++ [i], by rw [worker, sum], by rw [queue, split, List.append_assoc], ?_⟩
  intro j hj
  rw [before]
  rcases List.mem_append.mp hj with old | new
  · exact rest j old
  · rw [List.mem_singleton.mp new]
    exact late

theorem Ledger.work {s t : State Sid} (h : Ledger s)
    (order : t.executed ++ t.worker.hand ++ t.m_queue = s.executed ++ s.worker.hand ++ s.m_queue)
    (rest : t.enqueued = s.enqueued ∧ t.call = s.call ∧ t.before = s.before) : Ledger t := by
  obtain ⟨enqueued, call, before⟩ := rest
  refine ⟨?_, enqueued ▸ h.once, fun j => ?_, fun j hj => ?_⟩
  · rw [order, enqueued]
    exact h.order
  · rw [enqueued, call]
    exact h.enqueued j
  · rw [call]
    exact h.before j (before ▸ hj)

@[simp] theorem unblock_hand (w : Worker Sid) : w.unblock.hand = w.hand := by cases w <;> rfl

@[simp] theorem unblock_takes (w : Worker Sid) : w.unblock.takes = w.takes := by cases w <;> rfl

theorem Stopped.keep {s t : State Sid} (h : Stopped s)
    (same : t.stop_requested = s.stop_requested ∧ t.atStop = s.atStop ∧ t.join = s.join)
    (since : SinceStop t) (left : s.worker = .returned → t.worker = .returned) : Stopped t := by
  obtain ⟨flag, atStop, join⟩ := same
  refine ⟨by rw [flag, atStop, h.flag], by rw [atStop, join, h.joining], fun done => ?_, since⟩
  exact left (h.returned (join.symm.trans done))

theorem SinceStop.none {s : State Sid} (none : s.atStop = none) : SinceStop s := by
  intro worker m_queue at_stop
  cases none.symm.trans at_stop

theorem Stopped.running {s : State Sid} (h : Stopped s) (stop : s.stop_requested = false) :
    s.atStop = none := by
  rw [h.flag] at stop
  exact Option.not_isSome_iff_eq_none.mp (by rw [stop]; exact Bool.false_ne_true)

variable [DecidableEq Sid]

/-- Every function whose run() had returned before join() was called has been executed exactly
once, in the order of the queue. -/
def Drained (s : State Sid) : Prop :=
  (∀ i, s.before i = true → s.executed.count i = 1) ∧ s.executed <+: s.enqueued

theorem Ledger.call {s t : State Sid} (h : Ledger s) {i : Sid} {p : Call}
    (call : t.call = Function.update s.call i p) (same : p.enqueued = (s.call i).enqueued)
    (stays : s.call i ≠ .returned) (hand : t.worker.hand = s.worker.hand)
    (rest : t.enqueued = s.enqueued ∧ t.executed = s.executed ∧ t.m_queue = s.m_queue ∧
      t.before = s.before) : Ledger t := by
  obtain ⟨enqueued, executed, queue, before⟩ := rest
  refine ⟨?_, enqueued ▸ h.once, fun j => ?_, fun j hj => ?_⟩
  · rw [enqueued, executed, hand, queue]
    exact h.order
  · rw [enqueued, h.enqueued, call, Function.update_apply]
    split
    · rw [‹j = i›, same]
    · exact Iff.rfl
  · rw [before] at hj
    have done := h.before j hj
    have other : j ≠ i := fun same => stays (same ▸ done)
    rw [call, Function.update_of_ne other, done]

theorem step_ledger {s t : State Sid} {a : Act Sid} (h : Ledger s) (taken : step s a = some t) :
    Ledger t := by
  cases step_cases taken with
  | run at_pc => exact h.call rfl (by rw [at_pc]; rfl) (by simp [at_pc]) rfl ⟨rfl, rfl, rfl, rfl⟩
  | runInTask busy at_pc =>
    exact h.call rfl (by rw [at_pc]; rfl) (by simp [at_pc])
      (by simp [State.setCall, State.goto, busy, Worker.hand]) ⟨rfl, rfl, rfl, rfl⟩
  | lock at_pc | unlock at_pc =>
    exact h.call rfl (by rw [at_pc]; rfl) (by simp [at_pc]) rfl ⟨rfl, rfl, rfl, rfl⟩
  | notifyOne at_pc =>
    exact h.call rfl (by rw [at_pc]; rfl) (by simp [at_pc]) (unblock_hand _) ⟨rfl, rfl, rfl, rfl⟩
  | @emplace i at_pc =>
    have fresh : i ∉ s.enqueued := fun mem => by
      have past := (h.enqueued i).mp mem
      rw [at_pc] at past
      cases past
    refine ⟨?_, ?_, fun j => ?_, fun j hj => ?_⟩
    · simp only [State.setCall, h.order, List.append_assoc]
    · exact List.nodup_append.mpr ⟨h.once, List.nodup_singleton i, fun j hj k hk same =>
        fresh (List.mem_singleton.mp hk ▸ same ▸ hj)⟩
    · simp only [State.setCall, List.mem_append, h.enqueued, List.mem_singleton,
        Function.update_apply]
      split
      · simp [‹j = i›, Call.enqueued]
      · simp [‹j ≠ i›]
    · have done := h.before j hj
      have other : j ≠ i := fun same => by cases at_pc.symm.trans (same ▸ done)
      exact (Function.update_of_ne other ..).trans done
  | take at_pc queue =>
    exact h.work (by simp [State.goto, at_pc, queue, Worker.hand]) ⟨rfl, rfl, rfl⟩
  | finish at_pc => exact h.work (by simp [State.goto, at_pc, Worker.hand]) ⟨rfl, rfl, rfl⟩
  | acquire at_pc =>
    rcases at_pc with at_pc | at_pc
    · exact h.work (by simp [State.goto, at_pc, Worker.hand]) ⟨rfl, rfl, rfl⟩
    · exact h.work (by simp [State.goto, at_pc, Worker.hand]) ⟨rfl, rfl, rfl⟩
  | notifyAll => exact h.work (by simp [State.goto]) ⟨rfl, rfl, rfl⟩
  | join => exact ⟨h.order, h.once, h.enqueued, fun i hi => of_decide_eq_true hi⟩
  | requestStop | joined => exact ⟨h.order, h.once, h.enqueued, h.before⟩
  | stopped at_pc | loop at_pc | holds at_pc | fails at_pc | block at_pc | drained at_pc
  | nothing at_pc | start at_pc | again at_pc | leave at_pc | wake at_pc =>
    exact h.work (by simp [State.goto, at_pc, Worker.hand]) ⟨rfl, rfl, rfl⟩

theorem step_stopped {s t : State Sid} {a : Act Sid} (ledger : Ledger s) (h : Stopped s)
    (taken : step s a = some t) : Stopped t := by
  cases step_cases taken with
  | run | lock | unlock =>
    exact h.keep ⟨rfl, rfl, rfl⟩ (h.since.keep rfl rfl rfl fun _ => rfl) id
  | runInTask busy =>
    have takes : s.worker.takes = 0 := by rw [busy]; rfl
    exact h.keep ⟨rfl, rfl, rfl⟩ (h.since.keep rfl takes.symm rfl fun _ => rfl) (by simp [busy])
  | emplace at_pc =>
    refine h.keep ⟨rfl, rfl, rfl⟩ (h.since.push rfl rfl rfl rfl ?_) id
    by_contra submitted
    have done := ledger.before _ (Bool.not_eq_false _ ▸ submitted)
    cases at_pc.symm.trans done
  | notifyOne =>
    exact h.keep ⟨rfl, rfl, rfl⟩ (h.since.keep rfl (unblock_takes _) rfl fun _ => rfl)
      fun left => by simp [State.setCall, State.goto, left, Worker.unblock]
  | take at_pc queue =>
    exact h.keep ⟨rfl, rfl, rfl⟩
      (h.since.take rfl (by simp [at_pc, State.goto, Worker.takes]) (by rw [queue]; rfl) fun _ => rfl)
      (by simp [at_pc])
  | drained at_pc queue =>
    exact h.keep ⟨rfl, rfl, rfl⟩
      (h.since.take rfl (by simp [at_pc, State.goto, Worker.takes]) (by simp [State.goto, queue])
        fun _ => rfl) (by simp [at_pc])
  | loop at_pc stop | nothing at_pc _ stop =>
    exact h.keep ⟨rfl, rfl, rfl⟩ (.none (h.running stop)) (by simp [at_pc])
  | acquire at_pc =>
    rcases at_pc with at_pc | at_pc
    · exact h.keep ⟨rfl, rfl, rfl⟩
        (h.since.keep rfl (by simp [at_pc, State.goto, Worker.takes]) rfl fun _ => rfl) (by simp [at_pc])
    · exact h.keep ⟨rfl, rfl, rfl⟩
        (h.since.keep rfl (by simp [at_pc, State.goto, Worker.takes]) rfl fun _ => rfl) (by simp [at_pc])
  | join at_pc =>
    have off : s.atStop.isSome = false := by
      rw [Bool.eq_false_iff, ne_eq, h.joining]
      simp [at_pc]
    have none : s.atStop = none := h.running (h.flag.trans off)
    exact ⟨h.flag, by simp [none], by simp, .none none⟩
  | requestStop at_pc =>
    refine ⟨rfl, by simp, by simp, fun worker m_queue at_stop => ?_⟩
    cases at_stop
    exact ⟨0, [], Nat.zero_add _, (List.append_nil _).symm, fun _ hi => by cases hi⟩
  | notifyAll at_pc =>
    exact ⟨h.flag, by simpa [at_pc, State.goto] using h.joining, by simp [State.goto],
      h.since.keep rfl (unblock_takes _) rfl fun _ => rfl⟩
  | joined at_pc left =>
    exact ⟨h.flag, by simpa [at_pc] using h.joining, fun _ => left,
      h.since.keep rfl rfl rfl fun _ => rfl⟩
  | stopped at_pc | holds at_pc | fails at_pc | block at_pc | start at_pc | again at_pc
  | finish at_pc | leave at_pc | wake at_pc =>
    exact h.keep ⟨rfl, rfl, rfl⟩
      (h.since.keep rfl (by simp [at_pc, State.goto, Worker.takes]) rfl fun _ => rfl) (by simp [at_pc])

theorem reached_stopped {s : State Sid} (reached : Reached (system Sid) s) :
    Ledger s ∧ Stopped s := by
  refine Reached.invariant (I := fun s => Ledger s ∧ Stopped s) ?_ ?_ reached
  · rintro _ rfl
    refine ⟨?_, ?_⟩
    · constructor <;> simp [initial, Worker.hand, Call.enqueued]
    · exact ⟨rfl, by simp [initial], by simp [initial], .none rfl⟩
  · exact fun s a t h taken => ⟨step_ledger h.1 taken, step_stopped h.1 h.2 taken⟩

/-- join() returns with everything executed when the flag came in time, and only then. -/
theorem drained_iff (Sid : Type) [DecidableEq Sid] (s : State Sid)
    (reached : Reached (system Sid) s) (joined : s.join = .returned) :
    Drained s ↔ TakenInTime s := by
  obtain ⟨ledger, stopped⟩ := reached_stopped reached
  have left := stopped.returned joined
  have order : s.enqueued = s.executed ++ s.m_queue := by
    rw [ledger.order, left]
    simp [Worker.hand]
  obtain ⟨⟨worker, m_queue⟩, at_stop⟩ :=
    Option.isSome_iff_exists.mp (stopped.joining.mpr (by simp [joined]))
  obtain ⟨k, added, sum, split, late⟩ := stopped.since worker m_queue at_stop
  have all : k = worker.takes := by
    rw [left] at sum
    exact sum
  have once := ledger.once
  rw [order] at once
  constructor
  · rintro ⟨executed, _⟩
    refine ⟨worker, m_queue, at_stop, fun i queued => ?_⟩
    by_contra submitted
    have one := executed i (Bool.not_eq_false _ ▸ submitted)
    have done : i ∈ s.executed := List.count_pos_iff.mp (by omega)
    have waits : i ∈ s.m_queue := by
      rw [split, all]
      exact List.mem_append_left _ queued
    exact (List.nodup_append.mp once).2.2 i done i waits rfl
  · rintro ⟨w, q, eq, empty⟩
    cases at_stop.symm.trans eq
    refine ⟨fun i submitted => ?_, order ▸ List.prefix_append _ _⟩
    have enqueued := (ledger.enqueued i).mpr (by rw [ledger.before i submitted]; rfl)
    rw [order] at enqueued
    have done : i ∈ s.executed := by
      refine (List.mem_append.mp enqueued).resolve_right fun waits => ?_
      rw [split, all] at waits
      rcases List.mem_append.mp waits with queued | came
      · cases submitted.symm.trans (empty i queued)
      · cases submitted.symm.trans (late i came)
    exact List.count_eq_one_of_mem (List.nodup_append.mp once).1 done

def submitAndJoin : List (Act Unit) :=
  [.run (), .call (), .call (), .call (), .call (), .worker, .worker, .worker, .worker, .worker,
    .worker, .join, .stop, .stop, .worker, .stop]

def finished : State Unit := (replay (system Unit) initial submitAndJoin).get rfl

theorem drained_iff_finished : finished.before () = true ∧ Drained finished := by
  have reached : Reached (system Unit) finished :=
    Reached.replay (.start rfl) submitAndJoin (Option.some_get _).symm
  refine ⟨rfl, (drained_iff Unit finished reached rfl).mpr ⟨.check, [], rfl, fun i hi => ?_⟩⟩
  cases hi

def joinFirst : List (Act Unit) :=
  [.run (), .call (), .call (), .call (), .call (), .join, .stop, .stop, .worker, .stop]

theorem not_drained : ¬ ∀ s : State Unit, Reached (system Unit) s → s.join = .returned → Drained s := by
  intro always
  have reached : Reached (system Unit) ((replay (system Unit) initial joinFirst).get rfl) :=
    Reached.replay (.start rfl) joinFirst (Option.some_get _).symm
  cases (always _ reached rfl).1 () rfl

end Pot.Thread
