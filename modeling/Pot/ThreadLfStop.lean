import Mathlib.Data.Fintype.Basic
import Pot.ThreadSteps

/-! Whether the stop signal reaches pot::thread_lf. m_has_work stands for work and for stop, and
the worker clears it between its look at the flag and its wait. -/
namespace Pot.ThreadLf
open Transition
open TicketQueue (Ticket take_eq_none)
open Thread (Act)

variable {Sid : Type}

def Call.inProgress : Call → Bool
  | .idle | .returned => false
  | _ => true

def Call.owes : Call → Bool
  | .claim | .publish | .storeTrue => true
  | _ => false

theorem owes_inProgress {p : Call} (owes : p.owes = true) : p.inProgress = true := by
  cases p <;> first | rfl | cases owes

def Pending (s : State Sid) : Prop := ∃ i, (s.call i).owes = true

/-- Stop has been requested and signalled, no run() is in progress, and the worker is blocked. -/
def Hung (s : State Sid) : Prop :=
  s.stop_requested = true ∧ s.join = .join ∧ (∀ i, (s.call i).inProgress = false) ∧
    s.worker = .blocked

/-- The store of request_stop() does not come between the worker's look at the flag and its
m_has_work.store(false), unless its second pop is going to find something: a function that is
queued, or one that run() is still to push. -/
def StoresInTime (s : State Sid) : Act Sid → Prop
  | .stop => s.join = .storeTrue → s.worker = .storeFalse →
      s.m_queue ≠ [] ∨ ∃ i, s.call i = .claim
  | _ => True

def Worker.stores : Worker Sid → Bool
  | .storeFalse => true
  | _ => false

theorem stores_iff {w : Worker Sid} : w.stores = true ↔ w = .storeFalse := by
  cases w <;> simp [Worker.stores]

/-- Once stop has been stored: what keeps a worker from waiting for it in vain. -/
def Awaits (s : State Sid) : Worker Sid → Prop
  | .storeFalse => s.m_queue ≠ [] ∨ ∃ i, s.call i = .claim
  | .popAgain => s.m_has_work = true ∨ s.m_queue ≠ [] ∨ Pending s
  | .wait => s.m_has_work = true ∨ Pending s
  | .blocked => Pending s ∨
      s.m_has_work = true ∧ (s.join = .notifyAll ∨ ∃ i, s.call i = .notifyOne)
  | _ => True

def Signalled (s : State Sid) : Prop :=
  s.join = .notifyAll ∨ s.join = .join ∨ s.join = .returned → Awaits s s.worker

/-- A ticket is unpublished while its call is about to publish it, and only then. -/
structure Queued (s : State Sid) : Prop where
  unpublished : ∀ x ∈ s.m_queue, x.published = false ↔ s.call x.value = .publish
  claimed : ∀ x ∈ s.m_queue, s.call x.value ≠ .idle ∧ s.call x.value ≠ .claim
  queued : ∀ i, s.call i = .publish → ∃ x ∈ s.m_queue, x.value = i

theorem Queued.pop {s t : State Sid} (h : Queued s) {task : Ticket Sid}
    (queue : s.m_queue = task :: t.m_queue) (published : task.published = true)
    (call : t.call = s.call) : Queued t := by
  have old : ∀ x ∈ t.m_queue, x ∈ s.m_queue := fun x hx => queue ▸ List.mem_cons_of_mem _ hx
  refine ⟨fun x hx => ?_, fun x hx => ?_, fun i hi => ?_⟩
  · rw [call]
    exact h.unpublished x (old x hx)
  · rw [call]
    exact h.claimed x (old x hx)
  · rw [call] at hi
    obtain ⟨x, hx, rfl⟩ := h.queued i hi
    refine ⟨x, (List.mem_cons.mp (queue ▸ hx)).resolve_left fun front => ?_, rfl⟩
    have waits := (h.unpublished x hx).mpr hi
    rw [front, published] at waits
    cases waits

/-- The ticket that holds the worker up belongs to a call that is going to store. -/
theorem Queued.pending {s : State Sid} (h : Queued s) (none : TicketQueue.take s.m_queue = none)
    (some : s.m_queue ≠ []) : Pending s := by
  obtain ⟨x, rest, queue⟩ := List.exists_cons_of_ne_nil some
  have unpublished := take_eq_none.mp none x (by rw [queue]; rfl)
  have publishing := (h.unpublished x (by rw [queue]; exact List.mem_cons_self)).mp unpublished
  exact ⟨x.value, by rw [publishing]; rfl⟩

theorem Awaits.unblock {s t : State Sid} (h : Awaits s s.worker) (queue : t.m_queue = s.m_queue)
    (work : t.m_has_work = s.m_has_work)
    (claims : (∃ i, s.call i = .claim) → ∃ i, t.call i = .claim) (pending : Pending s → Pending t) :
    Awaits t s.worker.unblock := by
  cases hw : s.worker with
  | storeFalse =>
    rw [hw] at h
    exact h.imp (queue ▸ id) claims
  | popAgain =>
    rw [hw] at h
    exact h.imp (work ▸ id) (Or.imp (queue ▸ id) pending)
  | wait =>
    rw [hw] at h
    exact h.imp (work ▸ id) pending
  | blocked =>
    rw [hw] at h
    rcases h with owed | ⟨on, _⟩
    · exact .inr (pending owed)
    · exact .inl (work ▸ on)
  | _ => trivial

variable [DecidableEq Sid]

theorem Queued.setCall {s t : State Sid} (h : Queued s) {i : Sid} {p : Call}
    (queue : t.m_queue = s.m_queue) (call : t.call = Function.update s.call i p)
    (before : s.call i ≠ .publish) (after : p ≠ .publish)
    (fresh : p = .claim → s.call i = .idle) (used : p ≠ .idle) : Queued t := by
  refine ⟨fun x hx => ?_, fun x hx => ?_, fun j hj => ?_⟩
  · rw [queue] at hx
    rw [call, Function.update_apply, h.unpublished x hx]
    split
    · rename_i same
      exact ⟨fun at_pc => absurd (same ▸ at_pc) before, fun at_pc => absurd at_pc after⟩
    · exact Iff.rfl
  · rw [queue] at hx
    rw [call, Function.update_apply]
    split
    · rename_i same
      exact ⟨used, fun claim => (h.claimed x hx).1 (same ▸ fresh claim)⟩
    · exact h.claimed x hx
  · rw [call, Function.update_apply] at hj
    split at hj
    · exact absurd hj after
    · exact queue ▸ h.queued j hj

theorem Queued.claim {s t : State Sid} (h : Queued s) {i : Sid} (at_pc : s.call i = .claim)
    (queue : t.m_queue = s.m_queue ++ [Ticket.mk i false])
    (call : t.call = Function.update s.call i .publish) : Queued t := by
  have others : ∀ x ∈ s.m_queue, x.value ≠ i := fun x hx same => (h.claimed x hx).2 (same ▸ at_pc)
  have split : ∀ x ∈ t.m_queue, x ∈ s.m_queue ∨ x = Ticket.mk i false := fun x hx => by
    rw [queue] at hx
    exact (List.mem_append.mp hx).imp_right List.mem_singleton.mp
  refine ⟨fun x hx => ?_, fun x hx => ?_, fun j hj => ?_⟩
  · rcases split x hx with old | rfl
    · rw [call, Function.update_of_ne (others x old)]
      exact h.unpublished x old
    · simp [call]
  · rcases split x hx with old | rfl
    · rw [call, Function.update_of_ne (others x old)]
      exact h.claimed x old
    · simp [call]
  · rw [queue]
    by_cases same : j = i
    · exact ⟨Ticket.mk i false, List.mem_append_right _ List.mem_cons_self, same.symm⟩
    · rw [call, Function.update_of_ne same] at hj
      obtain ⟨x, hx, eq⟩ := h.queued j hj
      exact ⟨x, List.mem_append_left _ hx, eq⟩

theorem Queued.publish {s t : State Sid} (h : Queued s) {i : Sid}
    (queue : t.m_queue = publish s.m_queue i)
    (call : t.call = Function.update s.call i .storeTrue) : Queued t := by
  have back : ∀ x ∈ t.m_queue, ∃ y ∈ s.m_queue, x.value = y.value ∧
      (y.value = i → x.published = true) ∧ (y.value ≠ i → x = y) := fun x hx => by
    rw [queue] at hx
    obtain ⟨y, hy, rfl⟩ := List.mem_map.mp hx
    refine ⟨y, hy, ?_, fun same => by rw [if_pos same], fun other => by rw [if_neg other]⟩
    split <;> rfl
  refine ⟨fun x hx => ?_, fun x hx => ?_, fun j hj => ?_⟩
  · obtain ⟨y, hy, value, mine, other⟩ := back x hx
    rw [call, value, Function.update_apply]
    split
    · rw [mine ‹_›]
      simp
    · rw [other ‹_›]
      exact h.unpublished y hy
  · obtain ⟨y, hy, value, _⟩ := back x hx
    rw [call, value, Function.update_apply]
    split
    · simp
    · exact h.claimed y hy
  · rw [call, Function.update_apply] at hj
    split at hj
    · cases hj
    · obtain ⟨x, hx, eq⟩ := h.queued j hj
      refine ⟨x, ?_, eq⟩
      rw [queue]
      exact List.mem_map.mpr ⟨x, hx, if_neg (eq ▸ ‹_›)⟩

theorem step_queued {s t : State Sid} {a : Act Sid} (h : Queued s) (taken : step s a = some t) :
    Queued t := by
  cases step_cases taken with
  | run at_pc | runInTask _ at_pc =>
    exact h.setCall rfl rfl (by simp [at_pc]) (by simp) (fun _ => at_pc) (by simp)
  | claim at_pc => exact h.claim at_pc rfl rfl
  | publish => exact h.publish rfl rfl
  | storeTrue at_pc | notifyOne at_pc =>
    exact h.setCall rfl rfl (by simp [at_pc]) (by simp) (by simp) (by simp)
  | pop _ took | popAgain _ took =>
    obtain ⟨queue, published⟩ := TicketQueue.take_eq_some.mp took
    exact h.pop queue published rfl
  | _ => exact ⟨h.unpublished, h.claimed, h.queued⟩

theorem reached_queued {s : State Sid} (reached : Reached (system Sid) s) : Queued s := by
  refine Reached.invariant (I := Queued) ?_ (fun _ _ _ h taken => step_queued h taken) reached
  rintro _ rfl
  constructor <;> simp [initial]

theorem reached_flag {s : State Sid} (reached : Reached (system Sid) s) :
    s.stop_requested = true ↔ s.join ≠ .idle ∧ s.join ≠ .requestStop := by
  refine Reached.invariant (I := fun s => s.stop_requested = true ↔
    s.join ≠ .idle ∧ s.join ≠ .requestStop) ?_ (fun s a t h taken => ?_) reached
  · rintro _ rfl
    simp [initial]
  · cases step_cases (show step s a = some t from taken) with
    | join at_pc | stopTrue at_pc | notifyAll at_pc | joined at_pc => simp [h, at_pc, State.goto]
    | requestStop => simp
    | _ => exact h

theorem other_call {s t : State Sid} {i : Sid} {q : Call} (holds : Call → Prop)
    (call : t.call = Function.update s.call i q) (not : ¬ holds (s.call i))
    (some : ∃ j, holds (s.call j)) : ∃ j, holds (t.call j) := by
  obtain ⟨j, hj⟩ := some
  have different : j ≠ i := fun same => not (same ▸ hj)
  exact ⟨j, by rw [call, Function.update_of_ne different]; exact hj⟩

/-- A call goes on inside run(): at its end m_has_work is true or the call still owes it. -/
theorem Awaits.setCall {s t : State Sid} (h : Awaits s s.worker) {i : Sid} {q : Call}
    (call : t.call = Function.update s.call i q) (worker : t.worker = s.worker)
    (queue : s.m_queue ≠ [] → t.m_queue ≠ [])
    (claim : s.call i = .claim → t.m_queue ≠ [] ∨ q = .claim)
    (paid : q.owes = true ∨ t.m_has_work = true ∧ q = .notifyOne) : Awaits t t.worker := by
  have mine : t.call i = q := by rw [call, Function.update_self]
  have settled : t.m_has_work = true ∨ Pending t :=
    paid.symm.imp And.left fun owes => ⟨i, mine ▸ owes⟩
  cases hw : s.worker with
  | storeFalse =>
    rw [hw] at h worker
    rw [worker]
    rcases h with some | ⟨j, hj⟩
    · exact .inl (queue some)
    · by_cases same : j = i
      · exact (claim (same ▸ hj)).imp_right fun eq => ⟨i, mine.trans eq⟩
      · exact .inr ⟨j, by rw [call, Function.update_of_ne same, hj]⟩
  | popAgain =>
    rw [worker, hw]
    exact settled.imp_right .inr
  | wait =>
    rw [worker, hw]
    exact settled
  | blocked =>
    rw [worker, hw]
    exact paid.imp (fun owes => ⟨i, mine ▸ owes⟩) fun ⟨on, last⟩ => ⟨on, .inr ⟨i, mine.trans last⟩⟩
  | _ => rw [worker, hw]; trivial

theorem step_signalled {s t : State Sid} {a : Act Sid} (reached : Reached (system Sid) s)
    (h : Signalled s) (inTime : StoresInTime s a) (taken : step s a = some t) : Signalled t := by
  have early : s.stop_requested = false →
      ¬ (s.join = .notifyAll ∨ s.join = .join ∨ s.join = .returned) := fun off late => by
    have on := (reached_flag reached).mpr (by rcases late with eq | eq | eq <;> simp [eq])
    cases off.symm.trans on
  intro late
  cases step_cases taken with
  | run at_pc => exact (h late).setCall rfl rfl id (by simp [at_pc]) (.inl rfl)
  | runInTask => trivial
  | @claim i =>
    have some : s.m_queue ++ [Ticket.mk i false] ≠ [] := by simp
    exact (h late).setCall rfl rfl (fun _ => some) (fun _ => .inl some) (.inl rfl)
  | full => exact h late
  | @publish i at_pc =>
    have kept : s.m_queue ≠ [] → publish s.m_queue i ≠ [] := by simp [publish]
    exact (h late).setCall rfl rfl kept (by simp [at_pc]) (.inl rfl)
  | storeTrue at_pc => exact (h late).setCall rfl rfl id (by simp [at_pc]) (.inr ⟨rfl, rfl⟩)
  | notifyOne at_pc =>
    refine (h late).unblock rfl rfl (other_call (· = .claim) rfl ?_)
      (other_call (fun p => p.owes = true) rfl ?_)
    · simp [at_pc]
    · simp [at_pc, Call.owes]
  | loop _ stop => exact absurd late (early stop)
  | storeFalse at_pc =>
    have awaits := h late
    rw [at_pc] at awaits
    exact .inr (awaits.imp_right fun ⟨i, hi⟩ => ⟨i, by rw [State.goto, hi]; rfl⟩)
  | popAgainNone at_pc none =>
    have awaits := h late
    rw [at_pc] at awaits
    exact awaits.imp_right fun owed => owed.elim ((reached_queued reached).pending none) id
  | block at_pc off =>
    have awaits := h late
    rw [at_pc] at awaits
    exact .inl (awaits.resolve_left fun on => by cases off.symm.trans on)
  | wake at_pc =>
    have awaits := (h late).unblock (t := s) rfl rfl id id
    rwa [at_pc] at awaits
  | join | requestStop => simp at late
  | stopTrue at_pc =>
    change Awaits _ s.worker
    cases hw : s.worker with
    | storeFalse => exact inTime at_pc hw
    | popAgain | wait => exact .inl rfl
    | blocked => exact .inr ⟨rfl, .inl rfl⟩
    | _ => trivial
  | notifyAll at_pc => exact (h (.inl at_pc)).unblock rfl rfl id id
  | joined _ left =>
    rw [show ({ s with join := Join.returned } : State Sid).worker = _ from left]
    trivial
  | pop | popNone | stopped | popAgain | start | finish | work => trivial

theorem under_signalled {s : State Sid} (reached : ReachedUnder (system Sid) StoresInTime s) :
    Signalled s := by
  induction reached with
  | start eq => cases eq; exact fun _ => trivial
  | next before inTime taken ih => exact step_signalled before.reached ih inTime taken

theorem reached_calls {s : State Sid} (reached : Reached (system Sid) s) :
    ∃ l : List Sid, ∀ i, i ∉ l → s.call i = .idle := by
  refine ReachedUnder.support (fun (s : State Sid) i => s.call i) .idle ?_ ?_ reached
  · rintro _ rfl i
    rfl
  · intro s a t taken
    cases step_cases (show step s a = some t from taken) with
    | @run i | @runInTask i | @claim i | @publish i | @storeTrue i | @notifyOne i =>
      exact ⟨[i], fun j outside => update_outside _ _ _ j outside⟩
    | _ => exact ⟨[], fun _ _ => rfl⟩

/-- The worker is about to clear what request_stop() has stored, and the queue is empty; every
run() call that is left has published. -/
structure Missed (s : State Sid) : Prop where
  reached : Reached (system Sid) s
  flag : s.stop_requested = true
  join : s.join = .notifyAll
  worker : s.worker = .storeFalse
  queue : s.m_queue = []
  calls : ∀ i, (s.call i).inProgress = true → s.call i = .storeTrue ∨ s.call i = .notifyOne

theorem Missed.call {s t : State Sid} (h : Missed s) {i : Sid} {p : Call}
    (taken : step s (.call i) = some t) (same : t.stop_requested = s.stop_requested ∧ t.join = s.join ∧
      t.worker = .storeFalse ∧ t.m_queue = s.m_queue)
    (call : t.call = Function.update s.call i p)
    (left : p.inProgress = true → p = .notifyOne) : Missed t := by
  obtain ⟨flag, join, worker, queue⟩ := same
  refine ⟨h.reached.next (a := .call i) taken, flag.trans h.flag, join.trans h.join, worker,
    queue.trans h.queue, fun j => ?_⟩
  rw [call, Function.update_apply]
  split
  · exact fun busy => .inr (left busy)
  · exact h.calls j

theorem Missed.finish {s : State Sid} (h : Missed s) (i : Sid) :
    Leads (system Sid) s fun u =>
      Missed u ∧ (u.call i).inProgress = false ∧ ∀ j, j ≠ i → u.call j = s.call j := by
  have notify : ∀ {s : State Sid}, Missed s → s.call i = .notifyOne →
      Leads (system Sid) s fun u =>
        Missed u ∧ (u.call i).inProgress = false ∧ ∀ j, j ≠ i → u.call j = s.call j := by
    intro s h at_pc
    have taken : (system Sid).step s (.call i) =
        some ((s.goto s.worker.unblock).setCall i .returned) := by
      simp only [system, step, at_pc, callStep]
    have still : s.worker.unblock = .storeFalse := by rw [h.worker]; rfl
    refine .next taken (.now ⟨h.call taken ⟨rfl, rfl, still, rfl⟩ rfl
      (by simp [Call.inProgress]), ?_, fun j other => ?_⟩)
    · simp [State.setCall, Call.inProgress]
    · exact Function.update_of_ne other ..
  by_cases busy : (s.call i).inProgress = true
  · rcases h.calls i busy with at_pc | at_pc
    · have taken : (system Sid).step s (.call i) =
          some ({ s with m_has_work := true }.setCall i .notifyOne) := by
        simp only [system, step, at_pc, callStep]
      have stored := h.call taken ⟨rfl, rfl, h.worker, rfl⟩ rfl fun _ => rfl
      refine .next taken ((notify stored (Function.update_self ..)).mono ?_)
      rintro u ⟨missed, done, others⟩
      exact ⟨missed, done, fun j other => (others j other).trans (Function.update_of_ne other ..)⟩
    · exact notify h at_pc
  · exact .now ⟨h, Bool.not_eq_true _ ▸ busy, fun _ _ => rfl⟩

theorem Missed.finish_all {s : State Sid} (h : Missed s) :
    Leads (system Sid) s fun u => Missed u ∧ ∀ i, (u.call i).inProgress = false := by
  obtain ⟨away, others⟩ := reached_calls h.reached
  refine leads_home (fun s i h => ?_) away h
    fun i outside => by rw [others i outside]; rfl
  refine (h.finish i).mono fun u ⟨missed, done, kept⟩ => ⟨missed, done, fun j other quiet => ?_⟩
  rw [kept j other]
  exact quiet

theorem Missed.hangs {s : State Sid} (h : Missed s) (done : ∀ i, (s.call i).inProgress = false) :
    Leads (system Sid) s Hung := by
  have run : replay (system Sid) s [.stop, .worker, .worker, .worker] =
      some { s with join := .join, m_has_work := false, worker := .blocked } := by
    simp [replay, system, step, h.join, stopStep, h.worker, Worker.unblock, workerStep, State.goto,
      h.queue, TicketQueue.take]
  exact ⟨_, _, run, h.flag, rfl, done, rfl⟩

theorem only_stores {p : Call} (claimed : p ≠ .claim) (published : p ≠ .publish)
    (busy : p.inProgress = true) : p = .storeTrue ∨ p = .notifyOne := by
  cases p <;> simp_all [Call.inProgress]

/-- With the store in time join() gets its worker back. And after one that is not in time the run
can go on to where it is blocked for good. -/
theorem store_not_lost (Sid : Type) [DecidableEq Sid] :
    (∀ s : State Sid, ReachedUnder (system Sid) StoresInTime s → ¬ Hung s) ∧
    ∀ (s t : State Sid) (a : Act Sid), Reached (system Sid) s → ¬ StoresInTime s a →
      step s a = some t → ∃ (as : List (Act Sid)) (u : State Sid),
        replay (system Sid) t as = some u ∧ Hung u := by
  constructor
  · rintro s reached ⟨_, join, done, blocked⟩
    have awaits := under_signalled reached (.inr (.inl join))
    rw [blocked] at awaits
    rcases awaits with ⟨i, owes⟩ | ⟨_, notify | ⟨i, hi⟩⟩
    · cases (done i).symm.trans (owes_inProgress owes)
    · cases join.symm.trans notify
    · have quiet := done i
      rw [hi] at quiet
      cases quiet
  · intro s t a reached late taken
    cases a with
    | stop =>
      simp only [StoresInTime, Classical.not_imp, not_or, Decidable.not_not, not_exists] at late
      obtain ⟨at_pc, at_store, empty, noClaim⟩ := late
      have stopped : t = { s with m_has_work := true, join := .notifyAll } := by
        rw [step, at_pc] at taken
        exact (Option.some.inj taken).symm
      have noPublish : ∀ i, s.call i ≠ .publish := fun i hi => by
        obtain ⟨x, hx, _⟩ := (reached_queued reached).queued i hi
        rw [empty] at hx
        cases hx
      have missed : Missed t := by
        refine ⟨reached.next (a := .stop) taken, ?_, ?_, ?_, ?_, fun i => ?_⟩ <;> rw [stopped]
        · exact (reached_flag reached).mpr (by simp [at_pc])
        · exact at_store
        · exact empty
        · exact only_stores (noClaim i) (noPublish i)
      refine missed.finish_all.trans ?_
      rintro u ⟨missed, done⟩
      exact missed.hangs done
    | _ => exact absurd trivial late

instance [Fintype Sid] (s : State Sid) : (a : Act Sid) → Decidable (StoresInTime s a)
  | .stop => decidable_of_iff
      (s.join = .storeTrue → s.worker.stores = true →
        s.m_queue.isEmpty = false ∨ ∃ i, s.call i = .claim)
      (by rw [StoresInTime, stores_iff, List.isEmpty_eq_false_iff])
  | .run _ | .runInTask _ | .call _ | .worker | .wake | .join => isTrue trivial

def stopWaiting : List (Act Unit) :=
  [.worker, .worker, .worker, .worker, .worker, .join, .stop, .stop, .stop, .worker, .worker,
    .worker, .stop]

def stopped : State Unit := (replay (system Unit) initial stopWaiting).get rfl

theorem store_not_lost_stopped : stopped.join = .returned ∧ ¬ Hung stopped := by
  have reached : ReachedUnder (system Unit) StoresInTime stopped :=
    ReachedUnder.replay (.start rfl) stopWaiting (by decide) (Option.some_get _).symm
  exact ⟨rfl, (store_not_lost Unit).1 stopped reached⟩

def stopCleared : List (Act Unit) :=
  [.worker, .worker, .join, .stop, .stop, .worker, .stop, .worker, .worker]

theorem store_lost : ¬ ∀ s : State Unit, Reached (system Unit) s → ¬ Hung s := by
  intro never
  have reached : Reached (system Unit) ((replay (system Unit) initial stopCleared).get rfl) :=
    Reached.replay (.start rfl) stopCleared (Option.some_get _).symm
  exact never _ reached ⟨rfl, rfl, fun _ => rfl, rfl⟩

end Pot.ThreadLf
