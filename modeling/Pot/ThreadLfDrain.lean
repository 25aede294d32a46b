import Pot.ThreadLfLedger

/-! What pot::thread_lf has executed when join() returns. The worker leaves on one pop that finds
nothing and a flag that is set, and a pop finds nothing while the next ticket is unpublished,
whatever is queued behind it. -/
namespace Pot.ThreadLf
open Transition
open TicketQueue (Ticket take take_eq_some)
open Thread (Act)

variable {Sid : Type}

/-- Nothing submitted before join() is queued. -/
def Emptied (s : State Sid) : Prop := ∀ x ∈ s.m_queue, s.before x.value = false

/-- The flag is not set between the worker's last pop and its look at the flag, and no pop comes
back empty once it is set, while a function submitted before join() is queued. -/
def DrainsInTime (s : State Sid) : Act Sid → Prop
  | .stop => s.join = .requestStop → s.worker = .checkStop → Emptied s
  | .worker => s.stop_requested = true → s.worker = .pop → take s.m_queue = none → Emptied s
  | _ => True

/-- It does not pop any more once it finds the flag set. -/
def Worker.leaving : Worker Sid → Bool
  | .checkStop | .returned => true
  | _ => false

@[simp] theorem unblock_leaving (w : Worker Sid) : w.unblock.leaving = w.leaving := by
  cases w <;> rfl

/-- What was submitted before join() has returned, and the worker has left before join() does. -/
structure Joined (s : State Sid) : Prop where
  before : ∀ i, s.before i = true → s.call i = .returned
  left : s.worker = .returned → s.stop_requested = true
  joined : s.join = .returned → s.worker = .returned

/-- The worker is on its way out with something left behind. -/
structure Abandoned (s : State Sid) : Prop where
  flag : s.stop_requested = true
  leaving : s.worker.leaving = true
  joining : s.join ≠ .idle
  left : ¬ Emptied s

theorem Abandoned.keep {s t : State Sid} (h : Abandoned s)
    (same : t.stop_requested = s.stop_requested ∧ t.before = s.before)
    (leaving : t.worker.leaving = s.worker.leaving) (joining : t.join ≠ .idle)
    (queue : ∀ x ∈ s.m_queue, ∃ y ∈ t.m_queue, y.value = x.value) : Abandoned t := by
  obtain ⟨flag, before⟩ := same
  refine ⟨flag.trans h.flag, leaving.trans h.leaving, joining, fun emptied => h.left fun x hx => ?_⟩
  obtain ⟨y, hy, value⟩ := queue x hx
  rw [← before, ← value]
  exact emptied y hy

theorem unblock_returned {w : Worker Sid} : w.unblock = .returned ↔ w = .returned := by
  cases w <;> simp [Worker.unblock]

def Worker.pops : Worker Sid → Bool
  | .pop => true
  | _ => false

theorem pops_iff {w : Worker Sid} : w.pops = true ↔ w = .pop := by
  cases w <;> simp [Worker.pops]

theorem checking_iff {w : Worker Sid} : w.checking = true ↔ w = .checkStop := by
  cases w <;> simp [Worker.checking]

variable [DecidableEq Sid]

/-- Every function whose run() had returned before join() was called has been executed exactly
once, in the order of the tickets. -/
def Drained (s : State Sid) : Prop :=
  (∀ i, s.before i = true → s.executed.count i = 1) ∧ s.executed <+: s.enqueued

theorem mem_publish {queue : List (Ticket Sid)} {i : Sid} {v : Sid} :
    (∃ y ∈ publish queue i, y.value = v) ↔ ∃ x ∈ queue, x.value = v := by
  simp only [← List.mem_map, publish_values]

theorem Emptied.publish {s t : State Sid} (h : Emptied s) {i : Sid}
    (queue : t.m_queue = publish s.m_queue i) (before : t.before = s.before) : Emptied t := by
  intro y hy
  obtain ⟨x, hx, value⟩ := mem_publish.mp ⟨y, queue ▸ hy, rfl⟩
  rw [before, ← value]
  exact h x hx

theorem step_joined {s t : State Sid} {a : Act Sid} (h : Joined s) (taken : step s a = some t) :
    Joined t := by
  have called : ∀ {i : Sid} {p : Call}, s.call i ≠ .returned → ∀ j, s.before j = true →
      Function.update s.call i p j = .returned := fun {i _} moving j submitted => by
    have other : j ≠ i := fun same => moving (same ▸ h.before j submitted)
    rw [Function.update_of_ne other, h.before j submitted]
  cases step_cases taken with
  | run at_pc | claim at_pc | publish at_pc | storeTrue at_pc =>
    exact ⟨called (by simp [at_pc]), h.left, h.joined⟩
  | runInTask busy at_pc =>
    refine ⟨called (by simp [at_pc]), by simp [State.setCall, State.goto], fun done => ?_⟩
    cases busy.symm.trans (h.joined done)
  | notifyOne at_pc =>
    exact ⟨called (by simp [at_pc]), fun left => h.left (unblock_returned.mp left),
      fun done => unblock_returned.mpr (h.joined done)⟩
  | full => exact h
  | stopped at_pc stop => exact ⟨h.before, fun _ => stop, fun _ => rfl⟩
  | pop at_pc | popNone at_pc | loop at_pc | storeFalse at_pc | popAgain at_pc
  | popAgainNone at_pc | start at_pc | finish at_pc | work at_pc | block at_pc | wake at_pc =>
    refine ⟨h.before, by simp [State.goto], fun done => ?_⟩
    cases at_pc.symm.trans (h.joined done)
  | join => exact ⟨fun i submitted => of_decide_eq_true submitted, h.left, by simp⟩
  | requestStop => exact ⟨h.before, fun _ => rfl, by simp⟩
  | stopTrue => exact ⟨h.before, h.left, by simp⟩
  | notifyAll =>
    exact ⟨h.before, fun left => h.left (unblock_returned.mp left), by simp [State.goto]⟩
  | joined _ left => exact ⟨h.before, h.left, fun _ => left⟩

theorem reached_joined {s : State Sid} (reached : Reached (system Sid) s) : Joined s := by
  refine Reached.invariant (I := Joined) ?_ (fun _ _ _ h taken => step_joined h taken) reached
  rintro _ rfl
  constructor <;> simp [initial]

/-- Nothing that was submitted before join() is queued once the worker does not pop any more. -/
def Left (s : State Sid) : Prop :=
  s.stop_requested = true → s.worker.leaving = true → Emptied s

theorem step_left {s t : State Sid} {a : Act Sid} (joined : Joined s) (flag : s.stop_requested = true ↔
    s.join ≠ .idle ∧ s.join ≠ .requestStop) (h : Left s) (inTime : DrainsInTime s a)
    (taken : step s a = some t) : Left t := by
  intro stop leaving
  cases step_cases taken with
  | run | storeTrue | full | stopTrue | joined => exact h stop leaving
  | @claim i at_pc =>
    intro x hx
    rcases List.mem_append.mp hx with old | new
    · exact h stop leaving x old
    · rw [List.mem_singleton.mp new]
      by_contra submitted
      cases at_pc.symm.trans (joined.before i (Bool.not_eq_false _ ▸ submitted))
  | publish => exact (h stop leaving).publish rfl rfl
  | notifyOne | notifyAll => exact h stop (unblock_leaving _ ▸ leaving)
  | popNone at_pc none => exact inTime stop at_pc none
  | stopped at_pc => exact h stop (by rw [at_pc]; rfl)
  | join at_pc => exact absurd at_pc (flag.mp stop).1
  | requestStop at_pc =>
    change s.worker.leaving = true at leaving
    cases hw : s.worker with
    | checkStop => exact inTime at_pc hw
    | returned => exact absurd at_pc (flag.mp (joined.left hw)).2
    | _ => rw [hw] at leaving; cases leaving
  | runInTask | pop | loop | storeFalse | popAgain | popAgainNone | start | finish | work | block
  | wake => cases leaving

theorem under_left {s : State Sid} (reached : ReachedUnder (system Sid) DrainsInTime s) : Left s := by
  induction reached with
  | start eq => cases eq; exact fun _ _ _ hx => by cases hx
  | next before inTime taken ih =>
    exact step_left (reached_joined before.reached) (reached_flag before.reached) ih inTime taken

theorem drained_of_emptied {s : State Sid} (reached : Reached (system Sid) s)
    (left : s.worker = .returned) (emptied : Emptied s) : Drained s := by
  have ledger := reached_ledger reached
  have order : s.enqueued = s.executed ++ s.m_queue.map Ticket.value := by
    rw [ledger.order, left]
    simp [Worker.hand]
  refine ⟨fun i submitted => ?_, order ▸ List.prefix_append _ _⟩
  have returned := (reached_joined reached).before i submitted
  have enqueued := (ledger.claimed i).mpr (by rw [returned]; rfl)
  have once := ledger.once
  rw [order] at enqueued once
  refine List.count_eq_one_of_mem (List.nodup_append.mp once).1 ?_
  refine (List.mem_append.mp enqueued).resolve_right fun waits => ?_
  obtain ⟨x, hx, rfl⟩ := List.mem_map.mp waits
  cases submitted.symm.trans (emptied x hx)

theorem not_drained_of_left {s : State Sid} (reached : Reached (system Sid) s)
    (left : ¬ Emptied s) : ¬ Drained s := by
  rintro ⟨executed, _⟩
  refine left fun x hx => ?_
  by_contra submitted
  have ledger := reached_ledger reached
  have once := ledger.once
  rw [ledger.order, List.append_assoc] at once
  have one := executed x.value (Bool.not_eq_false _ ▸ submitted)
  have done : x.value ∈ s.executed := List.count_pos_iff.mp (by omega)
  have waits : x.value ∈ s.worker.hand ++ s.m_queue.map Ticket.value :=
    List.mem_append_right _ (List.mem_map_of_mem hx)
  exact (List.nodup_append.mp once).2.2 _ done _ waits rfl

theorem step_abandoned {s t : State Sid} {a : Act Sid} (h : Abandoned s)
    (taken : step s a = some t) : Abandoned t := by
  have stays : ∀ {m_queue : List (Ticket Sid)}, (∀ x ∈ s.m_queue, x ∈ m_queue) →
      ∀ x ∈ s.m_queue, ∃ y ∈ m_queue, y.value = x.value := fun kept x hx => ⟨x, kept x hx, rfl⟩
  have leaving := h.leaving
  cases step_cases taken with
  | run | storeTrue | full => exact h.keep ⟨rfl, rfl⟩ rfl h.joining (stays fun _ => id)
  | claim =>
    exact h.keep ⟨rfl, rfl⟩ rfl h.joining (stays fun _ hx => List.mem_append_left _ hx)
  | publish =>
    exact h.keep ⟨rfl, rfl⟩ rfl h.joining fun x hx => mem_publish.mpr ⟨x, hx, rfl⟩
  | notifyOne => exact h.keep ⟨rfl, rfl⟩ (unblock_leaving _) h.joining (stays fun _ => id)
  | stopped at_pc =>
    exact h.keep ⟨rfl, rfl⟩ (by rw [at_pc]; rfl) h.joining (stays fun _ => id)
  | loop _ stop => cases h.flag.symm.trans stop
  | join at_pc => exact absurd at_pc h.joining
  | requestStop => exact h.keep ⟨h.flag.symm, rfl⟩ rfl (by simp) (stays fun _ => id)
  | stopTrue | joined => exact h.keep ⟨rfl, rfl⟩ rfl (by simp) (stays fun _ => id)
  | notifyAll =>
    exact h.keep ⟨rfl, rfl⟩ (unblock_leaving _) (by simp [State.goto]) (stays fun _ => id)
  | runInTask at_pc | pop at_pc | popNone at_pc | storeFalse at_pc | popAgain at_pc
  | popAgainNone at_pc | start at_pc | finish at_pc | work at_pc | block at_pc | wake at_pc =>
    rw [at_pc] at leaving
    cases leaving

/-- The accesses of request_stop() and join() that are left once the worker has returned. -/
def Join.left : Join → Nat
  | .idle => 5
  | .requestStop => 4
  | .storeTrue => 3
  | .notifyAll => 2
  | .join => 1
  | .returned => 0

theorem join_finishes {s : State Sid} (left : s.worker = .returned) (joining : s.join ≠ .idle) :
    ∃ as u, replay (system Sid) s as = some u ∧ u.join = .returned := by
  induction hk : s.join.left using Nat.strongRecOn generalizing s with
  | ind k ih =>
    have next : ∀ {t : State Sid}, step s .stop = some t → t.worker = .returned → t.join ≠ .idle →
        t.join.left < s.join.left → ∃ as u, replay (system Sid) s as = some u ∧ u.join = .returned := by
      intro t taken left joining lower
      obtain ⟨as, u, run, joined⟩ := ih _ (hk ▸ lower) left joining rfl
      exact ⟨.stop :: as, u, (replay_cons taken as).trans run, joined⟩
    cases hj : s.join with
    | idle => exact absurd hj joining
    | requestStop =>
      have taken : step s .stop = some { s with stop_requested := true, join := .storeTrue } := by
        rw [step, hj]
        rfl
      exact next taken left (by simp) (by simp [hj, Join.left])
    | storeTrue =>
      have taken : step s .stop = some { s with m_has_work := true, join := .notifyAll } := by
        rw [step, hj]
        rfl
      exact next taken left (by simp) (by simp [hj, Join.left])
    | notifyAll =>
      have taken : step s .stop = some ({ s with join := .join }.goto s.worker.unblock) := by
        rw [step, hj]
        rfl
      exact next taken (unblock_returned.mpr left) (by simp [State.goto])
        (by simp [hj, Join.left, State.goto])
    | join =>
      have taken : step s .stop = some { s with join := .returned } := by
        simp only [step, hj, stopStep, left]
      exact next taken left (by simp) (by simp [hj, Join.left])
    | returned => exact ⟨[], s, rfl, hj⟩

theorem Abandoned.joins {s : State Sid} (h : Abandoned s) :
    ∃ as u, replay (system Sid) s as = some u ∧ u.join = .returned := by
  cases hw : s.worker with
  | checkStop =>
    have taken : step s .worker = some (s.goto .returned) := by
      simp [step, hw, workerStep, h.flag]
    obtain ⟨as, u, run, joined⟩ := join_finishes (s := s.goto .returned) rfl h.joining
    exact ⟨.worker :: as, u, (replay_cons taken as).trans run, joined⟩
  | returned => exact join_finishes hw h.joining
  | _ =>
    have leaving := h.leaving
    rw [hw] at leaving
    cases leaving

/-- A step that is not in time sends the worker out with something queued. -/
theorem abandons {s t : State Sid} {a : Act Sid} (reached : Reached (system Sid) s)
    (late : ¬ DrainsInTime s a) (taken : step s a = some t) : Abandoned t := by
  cases a with
  | stop =>
    simp only [DrainsInTime, Classical.not_imp] at late
    obtain ⟨at_pc, checking, left⟩ := late
    rw [step, at_pc] at taken
    cases taken
    exact ⟨rfl, by simp [checking, Worker.leaving], by simp, left⟩
  | worker =>
    simp only [DrainsInTime, Classical.not_imp] at late
    obtain ⟨stop, at_pc, none, left⟩ := late
    simp only [step, at_pc, workerStep, none] at taken
    cases taken
    exact ⟨stop, rfl, ((reached_flag reached).mp stop).1, left⟩
  | _ => exact absurd trivial late

/-- join() returns with everything executed that was submitted before it, in the runs that are in
time; after a step that is not, it can only return with something left out. -/
theorem drains_in_time (Sid : Type) [DecidableEq Sid] :
    (∀ s : State Sid, ReachedUnder (system Sid) DrainsInTime s → s.join = .returned → Drained s) ∧
    ∀ (s t : State Sid) (a : Act Sid), Reached (system Sid) s → ¬ DrainsInTime s a →
      step s a = some t →
      (∀ as u, replay (system Sid) t as = some u → u.join = .returned → ¬ Drained u) ∧
      ∃ as u, replay (system Sid) t as = some u ∧ u.join = .returned := by
  constructor
  · intro s under joined
    have left := (reached_joined under.reached).joined joined
    have flag := (reached_joined under.reached).left left
    exact drained_of_emptied under.reached left (under_left under flag (by rw [left]; rfl))
  · intro s t a reached late taken
    have abandoned := abandons reached late taken
    refine ⟨fun as u run _ => ?_, abandoned.joins⟩
    have left := replay_invariant (I := Abandoned) (fun _ _ _ h taken => step_abandoned h taken)
      abandoned as run
    exact not_drained_of_left ((reached.next taken).replay as run) left.left

instance (s : State Sid) : Decidable (Emptied s) :=
  inferInstanceAs (Decidable (∀ x ∈ s.m_queue, s.before x.value = false))

instance (s : State Sid) : (a : Act Sid) → Decidable (DrainsInTime s a)
  | .stop => decidable_of_iff
      (s.join = .requestStop → s.worker.checking = true → Emptied s)
      (by rw [DrainsInTime, checking_iff])
  | .worker => decidable_of_iff
      (s.stop_requested = true → s.worker.pops = true → (take s.m_queue).isNone = true → Emptied s)
      (by rw [DrainsInTime, pops_iff, Option.isNone_iff_eq_none])
  | .run _ | .runInTask _ | .call _ | .wake | .join => isTrue trivial

def submitAndJoin : List (Act Unit) :=
  [.run (), .call (), .call (), .call (), .call (), .join, .stop, .worker, .worker, .worker,
    .worker, .stop, .stop, .stop]

def finished : State Unit := (replay (system Unit) initial submitAndJoin).get rfl

theorem drains_in_time_finished : finished.before () = true ∧ Drained finished := by
  have reached : ReachedUnder (system Unit) DrainsInTime finished :=
    ReachedUnder.replay (.start rfl) submitAndJoin (by decide) (Option.some_get _).symm
  exact ⟨rfl, (drains_in_time Unit).1 finished reached rfl⟩

/-- One run() has claimed and not published when another, behind it, returns and join() is
called. -/
def unpublishedFront : List (Act Bool) :=
  [.run false, .call false, .run true, .call true, .call true, .call true, .call true, .join, .stop,
    .stop, .stop, .worker, .worker, .stop]

theorem submitted_not_drained :
    ¬ ∀ s : State Bool, Reached (system Bool) s → s.join = .returned → Drained s := by
  intro always
  have reached : Reached (system Bool) ((replay (system Bool) initial unpublishedFront).get rfl) :=
    Reached.replay (.start rfl) unpublishedFront (Option.some_get _).symm
  cases (always _ reached rfl).1 true rfl

end Pot.ThreadLf
