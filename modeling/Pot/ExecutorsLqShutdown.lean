import Pot.ExecutorsLq

/-! What thread_pool_executor_lq has run when shutdown() returns. Each thread is a pot::thread in
every respect, so what a thread leaves in its queue when it is stopped the pool never runs. -/

namespace Pot.Thread
open Transition

variable {Sid : Type} [DecidableEq Sid] {s t : State Sid}

/-- When the flag was set it was queued, and beyond what the worker was still about to take. -/
def State.LeftBehind (s : State Sid) (i : Sid) : Prop :=
  ∃ worker m_queue, s.atStop = some (worker, m_queue) ∧ i ∈ m_queue.drop worker.takes

/-- What was submitted before join() is executed unless it is left behind. -/
theorem executed_iff (reached : Reached (system Sid) s) (joined : s.join = .returned) {i : Sid}
    (submitted : s.before i = true) : s.executed.count i = 1 ↔ ¬ s.LeftBehind i := by
  obtain ⟨ledger, stopped⟩ := reached_stopped reached
  have left := stopped.returned joined
  have order : s.enqueued = s.executed ++ s.m_queue := by
    rw [ledger.order, left]
    simp [Worker.hand]
  have once := ledger.once
  rw [order] at once
  obtain ⟨⟨worker, m_queue⟩, at_stop⟩ :=
    Option.isSome_iff_exists.mp (stopped.joining.mpr (by simp [joined]))
  obtain ⟨k, added, sum, split, late⟩ := stopped.since worker m_queue at_stop
  have all : k = worker.takes := by
    rw [left] at sum
    exact sum
  rw [all] at split
  constructor
  · rintro executed ⟨w, q, same, waits⟩
    cases at_stop.symm.trans same
    have done : i ∈ s.executed := List.count_pos_iff.mp (by omega)
    refine (List.nodup_append.mp once).2.2 i done i ?_ rfl
    rw [split]
    exact List.mem_append_left _ waits
  · intro taken
    have enqueued := (ledger.enqueued i).mpr (by rw [ledger.before i submitted]; rfl)
    rw [order] at enqueued
    refine List.count_eq_one_of_mem (List.nodup_append.mp once).1
      ((List.mem_append.mp enqueued).resolve_right fun waits => ?_)
    rw [split] at waits
    rcases List.mem_append.mp waits with queued | came
    · exact taken ⟨worker, m_queue, at_stop, queued⟩
    · cases submitted.symm.trans (late i came)

theorem executed_order (reached : Reached (system Sid) s) :
    s.executed <+: s.enqueued ∧ s.executed.Nodup ∧ ∀ i ∈ s.executed, s.call i ≠ .idle := by
  obtain ⟨ledger, -⟩ := reached_stopped reached
  have once := ledger.once
  have order := ledger.order
  rw [List.append_assoc] at order
  rw [order] at once
  refine ⟨order ▸ List.prefix_append _ _, (List.nodup_append.mp once).1, fun i done idle => ?_⟩
  have past := (ledger.enqueued i).mp (order ▸ List.mem_append_left _ done)
  rw [idle] at past
  cases past

theorem work_same {a : Act Sid} (kind : a = .worker ∨ a = .wake) (taken : step s a = some t) :
    t.call = s.call ∧ t.join = s.join ∧ t.before = s.before := by
  rcases kind with rfl | rfl <;> cases step_cases taken <;> exact ⟨rfl, rfl, rfl⟩

theorem call_same {a : Act Sid} {i : Sid} (kind : a = .run i ∨ a = .call i)
    (taken : step s a = some t) : (∀ j, j ≠ i → t.call j = s.call j) ∧ s.call i ≠ .returned ∧
      t.join = s.join ∧ t.before = s.before := by
  have others : ∀ p : Call, ∀ j, j ≠ i → Function.update s.call i p j = s.call j := fun p j other =>
    Function.update_of_ne other ..
  rcases kind with rfl | rfl
  · cases step_cases taken with
    | run at_pc => exact ⟨others _, fun done => (by cases at_pc.symm.trans done), rfl, rfl⟩
  · cases step_cases taken with
    | lock at_pc | emplace at_pc | unlock at_pc | notifyOne at_pc =>
      exact ⟨others _, fun done => (by cases at_pc.symm.trans done), rfl, rfl⟩

theorem join_same (taken : step s .join = some t) : s.join = .idle ∧ t.join = .requestStop ∧
    t.call = s.call ∧ ∀ i, s.call i = .returned → t.before i = true := by
  cases step_cases taken with
  | join at_pc => exact ⟨at_pc, rfl, rfl, fun i done => decide_eq_true done⟩

theorem stop_same (taken : step s .stop = some t) : t.call = s.call ∧ t.before = s.before ∧
    (s.join = .requestStop ∧ t.join = .notifyAll ∨ s.join = .notifyAll ∧ t.join = .join ∨
      s.join = .join ∧ t.join = .returned) := by
  cases step_cases taken with
  | requestStop at_pc => exact ⟨rfl, rfl, .inl ⟨at_pc, rfl⟩⟩
  | notifyAll at_pc => exact ⟨rfl, rfl, .inr (.inl ⟨at_pc, rfl⟩)⟩
  | joined at_pc => exact ⟨rfl, rfl, .inr (.inr ⟨at_pc, rfl⟩)⟩

theorem stop_waits (not_yet : s.join ≠ .join) (taken : step s .stop = some t) :
    t.join ≠ .returned := by
  intro no
  rcases (stop_same taken).2.2 with ⟨-, next⟩ | ⟨-, next⟩ | ⟨was, -⟩
  · cases next.symm.trans no
  · cases next.symm.trans no
  · exact not_yet was

/-- request_stop() of a thread that has been stopped wakes its worker, at most. -/
theorem notified (reached : Reached (system Sid) s) :
    Reached (system Sid) (s.goto s.worker.unblock) := by
  cases at_pc : s.worker with
  | blocked => exact reached.next (a := .wake) (by simp only [system, step, at_pc]; rfl)
  | check | lock | predicate | block | relock | take | unlock | run | leave | returned =>
    have same : s.goto s.worker.unblock = s := by
      rw [at_pc]
      cases s
      cases at_pc
      rfl
    rw [at_pc] at same
    exact same.symm ▸ reached

end Pot.Thread

namespace Pot.ExecutorsLq
open Transition

variable {Sid Kid : Type} {n : Nat}

def Call.thread : Call n → Option (Fin n)
  | .run idx | .returned idx | .dangling idx => some idx
  | _ => none

/-- How far the threads have been stopped, by what the shutdown does next. -/
def Phase (s : State Sid Kid n) : Shutdown → Prop
  | .idle | .exchange => False
  | .requestStop thread => ∀ i : Fin n, (i < thread → (s.thread i).join = .join) ∧
      (i = thread → (s.thread i).join ≠ .returned) ∧ (thread < i → (s.thread i).join = .idle)
  | .notifyAll thread => ∀ i : Fin n, (i < thread → (s.thread i).join = .returned) ∧
      (thread ≤ i → (s.thread i).join = .join)
  | .join thread => ∀ i : Fin n, (i < thread → (s.thread i).join = .returned) ∧
      (i = thread → (s.thread i).join = .join ∨ (s.thread i).join = .returned) ∧
      (thread < i → (s.thread i).join = .join)
  | .destroy _ | .returned => ∀ i : Fin n, (s.thread i).join = .returned

/-- One shutdown at most stops the threads. -/
def Stops (s : State Sid Kid n) : Prop :=
  match s.stopper with
  | none => s.m_stop = false ∧ (∀ k, s.shutdown k = .idle ∨ s.shutdown k = .exchange) ∧
      ∀ i, (s.thread i).join = .idle
  | some k => s.m_stop = true ∧ (∀ j, j ≠ k → s.shutdown j = .idle ∨ s.shutdown j = .exchange ∨
      s.shutdown j = .returned) ∧ Phase s (s.shutdown k)

/-- A call that had returned before the thread was asked to stop is known to it as one. -/
def Kept (s : State Sid Kid n) (sid : Sid) : Prop :=
  ∃ i, s.call sid = .returned i ∧ ((s.thread i).join ≠ .idle → (s.thread i).before sid = true)

theorem Phase.congr {s t : State Sid Kid n} (join : ∀ i, (t.thread i).join = (s.thread i).join)
    {p : Shutdown} (h : Phase s p) : Phase t p := by
  cases p <;> simp only [Phase, join] at h ⊢ <;> exact h

theorem Stops.congr {s t : State Sid Kid n} (join : ∀ i, (t.thread i).join = (s.thread i).join)
    (same : t.stopper = s.stopper ∧ t.m_stop = s.m_stop ∧ t.shutdown = s.shutdown) (h : Stops s) :
    Stops t := by
  obtain ⟨stopper, m_stop, shutdown⟩ := same
  unfold Stops at h ⊢
  rw [stopper, m_stop, shutdown]
  split at h
  · exact ⟨h.1, h.2.1, fun i => (join i).trans (h.2.2 i)⟩
  · exact ⟨h.1, h.2.1, h.2.2.congr join⟩

section

variable [DecidableEq Kid]

/-- Its own access of a thread is the only one that the shutdown in between makes. -/
theorem Stops.mine {s : State Sid Kid n} (h : Stops s) {k : Kid} {p : Shutdown}
    (at_pc : s.shutdown k = p) (inside : p ≠ .idle ∧ p ≠ .exchange ∧ p ≠ .returned) :
    s.stopper = some k ∧ Phase s p := by
  unfold Stops at h
  split at h
  · rcases h.2.1 k with idle | exchange
    · exact absurd (at_pc.symm.trans idle) inside.1
    · exact absurd (at_pc.symm.trans exchange) inside.2.1
  · rename_i j stopper
    by_cases same : k = j
    · subst same
      exact ⟨stopper, at_pc ▸ h.2.2⟩
    · rcases h.2.1 k same with idle | exchange | returned
      · exact absurd (at_pc.symm.trans idle) inside.1
      · exact absurd (at_pc.symm.trans exchange) inside.2.1
      · exact absurd (at_pc.symm.trans returned) inside.2.2

theorem Stops.goes {s t : State Sid Kid n} (h : Stops s) {k : Kid} (stopper : s.stopper = some k)
    (same : t.stopper = s.stopper ∧ t.m_stop = s.m_stop) {p : Shutdown}
    (shutdown : t.shutdown = Function.update s.shutdown k p) (phase : Phase t p) : Stops t := by
  obtain ⟨stopper', m_stop⟩ := same
  unfold Stops at h ⊢
  rw [stopper] at h
  rw [stopper', stopper, m_stop, shutdown]
  refine ⟨h.1, fun j other => ?_, ?_⟩
  · rw [Function.update_of_ne other]
    exact h.2.1 j other
  · rw [Function.update_self]
    exact phase

theorem Stops.other {s t : State Sid Kid n} (h : Stops s) {k : Kid}
    (join : ∀ i, (t.thread i).join = (s.thread i).join)
    (same : t.stopper = s.stopper ∧ t.m_stop = s.m_stop) {p : Shutdown}
    (shutdown : t.shutdown = Function.update s.shutdown k p)
    (at_pc : s.shutdown k = .idle ∧ p = .exchange ∨
      s.shutdown k = .exchange ∧ p = .returned ∧ s.m_stop = true) : Stops t := by
  obtain ⟨stopper, m_stop⟩ := same
  unfold Stops at h ⊢
  rw [stopper, m_stop, shutdown]
  split at h
  · refine ⟨h.1, fun j => ?_, fun i => (join i).trans (h.2.2 i)⟩
    rw [Function.update_apply]
    split
    · rcases at_pc with ⟨-, rfl⟩ | ⟨-, -, set⟩
      · exact .inr rfl
      · cases h.1.symm.trans set
    · exact h.2.1 j
  · rename_i j _
    have differ : j ≠ k := by
      rintro rfl
      have phase := h.2.2
      rcases at_pc with ⟨idle, -⟩ | ⟨exchange, -⟩
      · rw [idle] at phase
        exact phase
      · rw [exchange] at phase
        exact phase
    refine ⟨h.1, fun i other => ?_, ?_⟩
    · rw [Function.update_apply]
      split
      · rcases at_pc with ⟨-, rfl⟩ | ⟨-, rfl, -⟩
        · exact .inr (.inl rfl)
        · exact .inr (.inr rfl)
      · exact h.2.1 i other
    · rw [Function.update_of_ne differ]
      exact h.2.2.congr join

end

variable [DecidableEq Sid]

structure Inv (s : State Sid Kid n) : Prop where
  threads : ∀ i, Reached (Thread.system Sid) (s.thread i)
  placed : ∀ sid i, (s.thread i).call sid ≠ .idle → (s.call sid).thread = some i
  returned : ∀ sid i, s.call sid = .returned i → (s.thread i).call sid = .returned
  before : ∀ sid, s.before sid = true → Kept s sid
  stops : Stops s

theorem Inv.call {s t : State Sid Kid n} (h : Inv s) {sid : Sid} {p : Call n}
    (call : t.call = Function.update s.call sid p) (thread : t.thread = s.thread)
    (same : t.stopper = s.stopper ∧ t.m_stop = s.m_stop ∧ t.shutdown = s.shutdown)
    (before : t.before = s.before) (still : ∀ i, s.call sid ≠ .returned i)
    (placed : (s.call sid).thread = none ∨ p.thread = (s.call sid).thread)
    (returned : ∀ i, p = .returned i → (s.thread i).call sid = .returned) : Inv t := by
  refine ⟨fun i => thread ▸ h.threads i, fun d i busy => ?_, fun d i done => ?_, fun d early => ?_,
    h.stops.congr (fun i => by rw [thread]) same⟩
  · rw [thread] at busy
    have mine := h.placed d i busy
    rw [call, Function.update_apply]
    split
    · rename_i eq
      subst eq
      rcases placed with none | same
      · cases none.symm.trans mine
      · exact same.trans mine
    · exact mine
  · rw [thread]
    rw [call, Function.update_apply] at done
    split at done
    · rename_i eq
      exact eq ▸ returned i done
    · exact h.returned d i done
  · obtain ⟨i, done, known⟩ := h.before d (before ▸ early)
    refine ⟨i, ?_, thread ▸ known⟩
    rw [call, Function.update_apply]
    split
    · rename_i eq
      exact absurd (eq ▸ done) (still i)
    · exact done

theorem Inv.access {s t : State Sid Kid n} (h : Inv s) {i : Fin n} {u : Thread.State Sid}
    (thread : t.thread = Function.update s.thread i u) (reached : Reached (Thread.system Sid) u)
    (call : t.call = s.call) (before : t.before = s.before)
    (placed : ∀ sid, u.call sid ≠ .idle → (s.call sid).thread = some i)
    (returned : ∀ sid, (s.thread i).call sid = .returned → u.call sid = .returned)
    (known : ∀ sid, (s.thread i).call sid = .returned →
      ((s.thread i).join ≠ .idle → (s.thread i).before sid = true) → u.join ≠ .idle →
        u.before sid = true)
    (stops : Stops t) : Inv t := by
  refine ⟨fun j => ?_, fun sid j busy => ?_, fun sid j done => ?_, fun sid early => ?_, stops⟩
  · rw [thread, Function.update_apply]
    split
    · exact reached
    · exact h.threads j
  · rw [thread, Function.update_apply] at busy
    rw [call]
    split at busy
    · rename_i eq
      exact eq ▸ placed sid busy
    · exact h.placed sid j busy
  · rw [call] at done
    have old := h.returned sid j done
    rw [thread, Function.update_apply]
    split
    · rename_i eq
      exact returned sid (eq ▸ old)
    · exact old
  · obtain ⟨j, done, keeps⟩ := h.before sid (before ▸ early)
    refine ⟨j, call ▸ done, fun asked => ?_⟩
    rw [thread, Function.update_apply] at asked ⊢
    split at asked
    · rename_i eq
      subst eq
      rw [if_pos rfl]
      exact known sid (h.returned sid j done) keeps asked
    · rename_i other
      rw [if_neg other]
      exact keeps asked

theorem Inv.moved {s t : State Sid Kid n} (h : Inv s) (thread : t.thread = s.thread)
    (call : t.call = s.call) (before : t.before = s.before) (stops : Stops t) : Inv t := by
  refine ⟨fun i => thread ▸ h.threads i, ?_, ?_, fun sid early => ?_, stops⟩
  · rw [thread, call]
    exact h.placed
  · rw [thread, call]
    exact h.returned
  · obtain ⟨i, done, known⟩ := h.before sid (before ▸ early)
    exact ⟨i, call ▸ done, thread ▸ known⟩

theorem Inv.accessed {s : State Sid Kid n} (h : Inv s) {i : Fin n} {a : Thread.Act Sid}
    {u : Thread.State Sid} (taken : Thread.step (s.thread i) a = some u)
    (call : ∀ sid, u.call sid ≠ .idle → (s.call sid).thread = some i)
    (returned : ∀ sid, (s.thread i).call sid = .returned → u.call sid = .returned)
    (join : u.join = (s.thread i).join) (before : u.before = (s.thread i).before) :
    Inv (s.setThread i u) := by
  have joins : ∀ j, ((s.setThread i u).thread j).join = (s.thread j).join := by
    intro j
    simp only [State.setThread, Function.update_apply]
    split
    · rename_i eq
      rw [join, eq]
    · rfl
  refine h.access rfl ((h.threads i).next taken) rfl rfl call returned (fun sid _ keeps => ?_)
    (h.stops.congr joins ⟨rfl, rfl, rfl⟩)
  rw [join, before]
  exact keeps

theorem Inv.worked {s t : State Sid Kid n} (h : Inv s) {i : Fin n} {a : Thread.Act Sid}
    (kind : a = .worker ∨ a = .wake) (taken : s.access i a = some t) : Inv t := by
  obtain ⟨u, step, rfl⟩ := Option.map_eq_some_iff.mp taken
  obtain ⟨call, join, before⟩ := Thread.work_same kind step
  exact h.accessed step (fun sid busy => h.placed sid i (call ▸ busy)) (fun sid done => call ▸ done)
    join before

theorem Inv.ran {s t : State Sid Kid n} (h : Inv s) {i : Fin n} {sid : Sid} {a : Thread.Act Sid}
    (at_pc : s.call sid = .run i) (kind : a = .run sid ∨ a = .call sid)
    (taken : s.access i a = some t) : Inv t := by
  obtain ⟨u, step, rfl⟩ := Option.map_eq_some_iff.mp taken
  obtain ⟨call, still, join, before⟩ := Thread.call_same kind step
  refine h.accessed step (fun d busy => ?_) (fun d done => ?_) join before
  · by_cases same : d = sid
    · rw [same, at_pc]
      rfl
    · exact h.placed d i (call d same ▸ busy)
  · have other : d ≠ sid := fun same => still (same ▸ done)
    exact (call d other).trans done

theorem initial_inv : Inv (initial Sid Kid n) :=
  ⟨fun _ => .start rfl, fun _ _ busy => absurd rfl busy, fun _ _ done => (by cases done),
    fun _ early => (by cases early), rfl, fun _ => .inl rfl, fun _ => rfl⟩

omit [DecidableEq Sid] in
theorem setThread_join {s : State Sid Kid n} {i : Fin n} {u : Thread.State Sid} (j : Fin n) :
    ((s.setThread i u).thread j).join = if j = i then u.join else (s.thread j).join := by
  simp only [State.setThread, Function.update_apply]
  split <;> rfl

variable [DecidableEq Kid]

theorem execute_inv [NeZero n] {m_name : String} {s t : State Sid Kid n} (h : Inv s) {sid : Sid}
    (taken : step m_name s (.execute sid) = some t) : Inv t := by
  simp only [step] at taken
  split at taken <;> cases taken
  rename_i at_pc
  refine h.call rfl rfl ⟨rfl, rfl, rfl⟩ rfl (fun i done => ?_) (.inl ?_)
    (fun i done => (by cases done))
  · cases at_pc.symm.trans done
  · rw [at_pc]
    rfl

theorem call_inv [NeZero n] {m_name : String} {s t : State Sid Kid n} (h : Inv s) {sid : Sid}
    (taken : step m_name s (.call sid) = some t) : Inv t := by
  simp only [step] at taken
  cases at_pc : s.call sid with
  | idle | returned | threw | divisionByZero | dangling => rw [at_pc] at taken; cases taken
  | loadStop =>
    rw [at_pc] at taken
    cases taken
    refine h.call rfl rfl ⟨rfl, rfl, rfl⟩ rfl (fun i done => ?_) (.inl ?_) (fun i done => ?_)
    · cases at_pc.symm.trans done
    · rw [at_pc]
      rfl
    · split at done <;> cases done
  | index =>
    rw [at_pc] at taken
    cases taken
    refine h.call rfl rfl ⟨rfl, rfl, rfl⟩ rfl (fun i done => ?_) (.inl ?_) (fun i done => ?_)
    · cases at_pc.symm.trans done
    · rw [at_pc]
      rfl
    · split at done <;> cases done
  | run idx =>
    rw [at_pc] at taken
    simp only [callStep] at taken
    have still : ∀ i, s.call sid ≠ .returned i := fun i done => (by cases at_pc.symm.trans done)
    have mine : (s.call sid).thread = some idx := at_pc ▸ rfl
    split at taken
    · split at taken
      · exact h.ran at_pc (.inl rfl) taken
      · rename_i done
        cases taken
        refine h.call rfl rfl ⟨rfl, rfl, rfl⟩ rfl still (.inr mine.symm) (fun i same => ?_)
        cases same
        exact done
      · exact h.ran at_pc (.inr rfl) taken
    · cases taken
      exact h.call rfl rfl ⟨rfl, rfl, rfl⟩ rfl still (.inr mine.symm) (fun i no => (by cases no))

theorem shutdown_inv [NeZero n] {m_name : String} {s t : State Sid Kid n} (h : Inv s) {k : Kid}
    (taken : step m_name s (.shutdown k) = some t) : Inv t := by
  simp only [step] at taken
  split at taken <;> cases taken
  rename_i at_pc
  exact h.moved rfl rfl rfl (h.stops.other (fun _ => rfl) ⟨rfl, rfl⟩ rfl (.inl ⟨at_pc, rfl⟩))

/-- The exchange: no thread has been asked to stop, so what has returned can still be counted. -/
theorem exchange_inv {s t : State Sid Kid n} (h : Inv s) {k : Kid} (at_pc : s.shutdown k = .exchange)
    (taken : stopStep s k .exchange = some t) : Inv t := by
  simp only [stopStep] at taken
  split at taken
  · rename_i set
    cases taken
    exact h.moved rfl rfl rfl
      (h.stops.other (fun _ => rfl) ⟨rfl, rfl⟩ rfl (.inr ⟨at_pc, rfl, set⟩))
  · rename_i clear
    cases taken
    have stops := h.stops
    unfold Stops at stops
    split at stops
    · obtain ⟨-, others, idle⟩ := stops
      refine ⟨h.threads, h.placed, h.returned, fun sid early => ?_, rfl, fun j other => ?_, ?_⟩
      · change (s.call sid).isReturned = true at early
        cases done : s.call sid with
        | returned i => exact ⟨i, done, fun asked => absurd (idle i) asked⟩
        | idle | loadStop | index | run | threw | divisionByZero | dangling =>
          rw [done] at early
          cases early
      · change Function.update s.shutdown k _ j = _ ∨ Function.update s.shutdown k _ j = _ ∨ _
        rw [Function.update_of_ne other]
        exact (others j).imp_right .inl
      · change Phase _ (Function.update s.shutdown k _ k)
        rw [Function.update_self]
        intro i
        exact ⟨fun none => absurd none (Nat.not_lt_zero _),
          fun _ joined => (by cases (idle i).symm.trans joined), fun _ => idle i⟩
    · exact absurd stops.1 clear

theorem Inv.stopping {s : State Sid Kid n} (h : Inv s) {k : Kid} (stopper : s.stopper = some k)
    {i : Fin n} {a : Thread.Act Sid} (kind : a = .join ∨ a = .stop) {u : Thread.State Sid}
    (taken : Thread.step (s.thread i) a = some u)
    (phase : Phase (s.setThread i u) (s.shutdown k)) : Inv (s.setThread i u) := by
  have stops : Stops (s.setThread i u) :=
    h.stops.goes stopper ⟨rfl, rfl⟩ (Function.update_eq_self k s.shutdown).symm phase
  have call : u.call = (s.thread i).call ∧ ∀ sid, (s.thread i).call sid = .returned →
      ((s.thread i).join ≠ .idle → (s.thread i).before sid = true) → u.before sid = true := by
    rcases kind with rfl | rfl
    · obtain ⟨-, -, call, known⟩ := Thread.join_same taken
      exact ⟨call, fun sid done _ => known sid done⟩
    · obtain ⟨call, before, from_pc⟩ := Thread.stop_same taken
      refine ⟨call, fun sid _ keeps => before ▸ keeps fun idle => ?_⟩
      rcases from_pc with ⟨at_pc, -⟩ | ⟨at_pc, -⟩ | ⟨at_pc, -⟩ <;> cases at_pc.symm.trans idle
  exact h.access rfl ((h.threads i).next taken) rfl rfl
    (fun sid busy => h.placed sid i (call.1 ▸ busy)) (fun sid done => call.1 ▸ done)
    (fun sid done keeps _ => call.2 sid done keeps) stops

theorem requestStop_inv {s t : State Sid Kid n} (h : Inv s) {k : Kid} {thread : Nat}
    (at_pc : s.shutdown k = .requestStop thread)
    (taken : stopStep s k (.requestStop thread) = some t) : Inv t := by
  obtain ⟨stopper, phase⟩ := h.stops.mine at_pc (by simp)
  -- the thread that request_stop() is called on is not waited for yet
  have kept : ∀ (i : Fin n) (u : Thread.State Sid), i.val = thread → u.join ≠ .returned →
      Phase (s.setThread i u) (s.shutdown k) := by
    intro i u here waits
    rw [at_pc]
    intro j
    rw [setThread_join]
    split
    · rename_i same
      subst same
      exact ⟨fun less => by omega, fun _ => waits, fun less => by omega⟩
    · exact phase j
  have stop : ∀ {i : Fin n}, s.access i .stop = some t → (s.thread i).join ≠ .join →
      i.val = thread → Inv t := by
    intro i taken not_yet here
    obtain ⟨u, step, rfl⟩ := Option.map_eq_some_iff.mp taken
    exact h.stopping stopper (.inr rfl) step (kept i u here (Thread.stop_waits not_yet step))
  simp only [stopStep] at taken
  split at taken
  · rename_i less
    split at taken
    · obtain ⟨u, step, rfl⟩ := Option.map_eq_some_iff.mp taken
      exact h.stopping stopper (.inl rfl) step
        (kept _ u rfl fun no => by cases (Thread.join_same step).2.1.symm.trans no)
    · rename_i here
      exact stop taken (by rw [here]; simp) rfl
    · rename_i here
      exact stop taken (by rw [here]; simp) rfl
    · rename_i here
      cases taken
      refine h.moved rfl rfl rfl (h.stops.goes stopper ⟨rfl, rfl⟩ rfl fun i => ?_)
      obtain ⟨stopped, -, idle⟩ := phase i
      refine ⟨fun less => ?_, fun next no => ?_, fun more => idle (by omega)⟩
      · rcases Nat.lt_succ_iff_lt_or_eq.mp less with earlier | same
        · exact stopped earlier
        · have same : i = ⟨thread, ‹_›⟩ := Fin.ext same
          exact same ▸ here
      · cases (idle (by omega)).symm.trans no
    · rename_i here
      exact absurd here ((phase ⟨thread, less⟩).2.1 rfl)
  · rename_i beyond
    cases taken
    exact h.moved rfl rfl rfl (h.stops.goes stopper ⟨rfl, rfl⟩ rfl fun i =>
      ⟨fun none => absurd none (Nat.not_lt_zero _), fun _ => (phase i).1 (by omega)⟩)

theorem notifyAll_inv {s t : State Sid Kid n} (h : Inv s) {k : Kid} {thread : Nat}
    (at_pc : s.shutdown k = .notifyAll thread)
    (taken : stopStep s k (.notifyAll thread) = some t) : Inv t := by
  obtain ⟨stopper, phase⟩ := h.stops.mine at_pc (by simp)
  simp only [stopStep] at taken
  split at taken
  · rename_i less
    cases taken
    have join : ∀ i, ((s.notifyAll ⟨thread, less⟩).thread i).join = (s.thread i).join := by
      intro i
      rw [State.notifyAll, setThread_join]
      split
      · rename_i same
        rw [same]
        rfl
      · rfl
    refine h.access rfl (Thread.notified (h.threads _)) rfl rfl (fun sid => h.placed sid _)
      (fun _ => id) (fun _ _ => id) (h.stops.goes stopper ⟨rfl, rfl⟩ rfl fun i => ?_)
    obtain ⟨returned, waits⟩ := phase i
    exact ⟨fun earlier => (join i).trans (returned earlier),
      fun here => .inl ((join i).trans (waits (Nat.le_of_eq here.symm))),
      fun later => (join i).trans (waits (Nat.le_of_lt later))⟩
  · rename_i beyond
    cases taken
    exact h.moved rfl rfl rfl (h.stops.goes stopper ⟨rfl, rfl⟩ rfl fun i => (phase i).1 (by omega))

theorem join_inv {s t : State Sid Kid n} (h : Inv s) {k : Kid} {thread : Nat}
    (at_pc : s.shutdown k = .join thread) (taken : stopStep s k (.join thread) = some t) :
    Inv t := by
  obtain ⟨stopper, phase⟩ := h.stops.mine at_pc (by simp)
  simp only [stopStep] at taken
  split at taken
  · rename_i less
    split at taken
    · rename_i here
      cases taken
      refine h.moved rfl rfl rfl (h.stops.goes stopper ⟨rfl, rfl⟩ rfl fun i => ?_)
      obtain ⟨returned, -, waits⟩ := phase i
      refine ⟨fun less => ?_, fun more => waits (by omega)⟩
      rcases Nat.lt_succ_iff_lt_or_eq.mp less with earlier | same
      · exact returned earlier
      · have same : i = ⟨thread, ‹_›⟩ := Fin.ext same
        exact same ▸ here
    · rename_i still
      obtain ⟨u, step, rfl⟩ := Option.map_eq_some_iff.mp taken
      refine h.stopping stopper (.inr rfl) step ?_
      have waits := ((phase ⟨thread, less⟩).2.1 rfl).resolve_right still
      have next : u.join = .returned := by
        rcases (Thread.stop_same step).2.2 with ⟨was, -⟩ | ⟨was, -⟩ | ⟨-, next⟩
        · cases waits.symm.trans was
        · cases waits.symm.trans was
        · exact next
      rw [at_pc]
      intro i
      rw [setThread_join]
      split
      · rename_i same
        subst same
        exact ⟨fun _ => next, fun _ => .inr next, fun less => absurd less (Nat.lt_irrefl _)⟩
      · exact phase i
  · cases taken

theorem destroy_inv {s t : State Sid Kid n} (h : Inv s) {k : Kid} {thread : Nat}
    (at_pc : s.shutdown k = .destroy thread)
    (taken : stopStep s k (.destroy thread) = some t) : Inv t := by
  obtain ⟨stopper, phase⟩ := h.stops.mine at_pc (by simp)
  simp only [stopStep] at taken
  split at taken <;> cases taken <;>
    exact h.moved rfl rfl rfl (h.stops.goes stopper ⟨rfl, rfl⟩ rfl phase)

theorem step_inv [NeZero n] {m_name : String} {s t : State Sid Kid n} {a : Act Sid Kid n}
    (h : Inv s) (taken : step m_name s a = some t) : Inv t := by
  cases a with
  | execute sid => exact execute_inv h taken
  | call sid => exact call_inv h taken
  | worker i => exact h.worked (.inl rfl) taken
  | wake i => exact h.worked (.inr rfl) taken
  | shutdown k => exact shutdown_inv h taken
  | stop k =>
    change stopStep s k (s.shutdown k) = some t at taken
    cases at_pc : s.shutdown k with
    | idle | returned => rw [at_pc] at taken; cases taken
    | exchange => exact exchange_inv h at_pc (at_pc ▸ taken)
    | requestStop thread => exact requestStop_inv h at_pc (at_pc ▸ taken)
    | notifyAll thread => exact notifyAll_inv h at_pc (at_pc ▸ taken)
    | join thread => exact join_inv h at_pc (at_pc ▸ taken)
    | destroy thread => exact destroy_inv h at_pc (at_pc ▸ taken)

theorem reached_inv [NeZero n] {m_name : String} {s : State Sid Kid n}
    (reached : Reached (system m_name Sid Kid n) s) : Inv s :=
  reached.invariant (fun _ start => start ▸ initial_inv) fun _ _ _ => step_inv

/-- Every run() is of one thread, which starts what it runs in its own order; and of what had
been submitted when shutdown() was called the pool has executed, on its return, all but what a
thread left behind. -/
theorem shutdown_leaves [NeZero n] {m_name : String} {s : State Sid Kid n}
    (reached : Reached (system m_name Sid Kid n) s) :
    (∀ sid i j, sid ∈ (s.thread i).executed → sid ∈ (s.thread j).executed → i = j) ∧
    (∀ i, (s.thread i).executed.Nodup ∧ (s.thread i).executed <+: (s.thread i).enqueued) ∧
    ∀ k, s.stopper = some k → s.shutdown k = .returned → ∀ sid, s.before sid = true →
      ∃ i, s.call sid = .returned i ∧
        ((s.thread i).executed.count sid = 1 ↔ ¬ (s.thread i).LeftBehind sid) := by
  have inv := reached_inv reached
  have placed : ∀ sid i, sid ∈ (s.thread i).executed → (s.call sid).thread = some i :=
    fun sid i done => inv.placed sid i ((Thread.executed_order (inv.threads i)).2.2 sid done)
  refine ⟨fun sid i j here there => ?_, fun i => ?_, fun k stopper at_pc sid early => ?_⟩
  · exact Option.some.inj ((placed sid i here).symm.trans (placed sid j there))
  · obtain ⟨order, once, -⟩ := Thread.executed_order (inv.threads i)
    exact ⟨once, order⟩
  · obtain ⟨i, done, known⟩ := inv.before sid early
    have joined : (s.thread i).join = .returned := by
      have stops := inv.stops
      unfold Stops at stops
      rw [stopper] at stops
      have phase := stops.2.2
      rw [at_pc] at phase
      exact phase i
    exact ⟨i, done, Thread.executed_iff (inv.threads i) joined
      (known (by rw [joined]; simp))⟩

def submission (sid : Nat) : List (Act Nat Unit 4) := .execute sid :: List.replicate 8 (.call sid)

def work (i : Fin 4) (k : Nat) : List (Act Nat Unit 4) := List.replicate k (.worker i)

def stopping (k : Nat) : List (Act Nat Unit 4) := List.replicate k (.stop ())

def shutRun : List (Act Nat Unit 4) :=
  submission 0 ++ submission 1 ++ work 0 6 ++ .shutdown () :: stopping 18 ++ work 0 1 ++ work 1 1 ++
    work 2 1 ++ work 3 1 ++ stopping 18

def shut : State Nat Unit 4 :=
  (replay (system "pool" Nat Unit 4) (initial Nat Unit 4) shutRun).get rfl

theorem shutdown_leaves_shut : shut.shutdown () = .returned ∧
    ((shut.thread 0).executed.count 0 = 1 ↔ ¬ (shut.thread 0).LeftBehind 0) ∧
    ((shut.thread 1).executed.count 1 = 1 ↔ ¬ (shut.thread 1).LeftBehind 1) ∧
    (shut.thread 0).executed = [0] ∧ (shut.thread 1).executed = [] := by
  have reached : Reached (system "pool" Nat Unit 4) shut :=
    Reached.replay (.start rfl) shutRun (Option.some_get _).symm
  have returned : shut.stopper = some () ∧ shut.shutdown () = .returned := ⟨rfl, rfl⟩
  obtain ⟨-, -, leaves⟩ := shutdown_leaves reached
  obtain ⟨i, at_first, first⟩ := leaves () returned.1 returned.2 0 rfl
  obtain ⟨j, at_second, second⟩ := leaves () returned.1 returned.2 1 rfl
  cases at_first
  cases at_second
  exact ⟨returned.2, first, second, rfl, rfl⟩

end Pot.ExecutorsLq
