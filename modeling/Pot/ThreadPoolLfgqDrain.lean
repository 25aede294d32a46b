import Mathlib.Data.Fintype.Basic
import Pot.ThreadPoolLfgqLedger

/-! When all workers have left, the queue is empty. is_empty loads the two counters one after the
other, so it can be wrong for one worker; it is not for the last one to load epos, since by then
nobody is left to push. -/
namespace Pot.ThreadPoolLfgq
open Transition
open LfqueueModule (Pc Answer)

variable {Wid Sid : Type} {size : Nat}

def initial : State Wid Sid :=
  ⟨LfqueueModule.initial, false, fun _ => .loop, fun _ => .none, []⟩

theorem start_eq {s : State Wid Sid} (made : thread_pool_executor_lfgq size = .ok s) :
    LfqueueModule.lfqueue size = .ok s.queue ∧ s = initial := by
  unfold thread_pool_executor_lfgq at made
  cases hq : (LfqueueModule.lfqueue size : Except String (LfqueueModule.State (Wid ⊕ Sid) Sid)) with
  | error what => rw [hq] at made; cases made
  | ok queue =>
    rw [hq] at made
    simp only at made
    split at made
    · cases made
    · cases made
      obtain ⟨-, rfl⟩ := LfqueueModule.lfqueue_eq_ok.mp hq
      exact ⟨rfl, rfl⟩

/-- A worker that has loaded epos in the check that it leaves by, or may leave by. -/
def Out (p : Pc Sid) : Worker Sid → Prop
  | .left => True
  | .empty => (∃ enq, p = .emptyDpos (some enq)) ∨ p = .returned (.empty true)
  | _ => False

structure Stop (s : State Wid Sid) : Prop where
  flag : ∀ w, s.worker w = .empty ∨ s.worker w = .left → s.shutdown_flag = true
  outside : s.shutdown_flag = true → ∀ i, s.call i ≠ .busy none
  /-- When all workers are out, the queue is empty, or one of them will find epos where it was. -/
  last : (∀ w, Out (s.queue.pc (.inl w)) (s.worker w)) →
    s.queue.dpos = s.queue.epos ∨
      ∃ w, s.worker w = .empty ∧ s.queue.pc (.inl w) = .emptyDpos (some s.queue.epos)

structure Good (s : State Wid Sid) : Prop where
  places : Places s
  ledger : Ledger s
  stop : Stop s

theorem initial_good : Good (initial : State Wid Sid) where
  places := ⟨fun _ => rfl, fun _ => rfl, fun _ _ busy => (by cases busy)⟩
  ledger := by
    refine ⟨List.nodup_nil, fun i => ?_, List.nodup_nil, fun i => ?_, fun i w held => ?_,
      fun i v w held => ?_⟩
    · simp [initial, LfqueueModule.initial, Pc.claimed]
    · simp [initial, LfqueueModule.initial, State.held]
    · cases held
    · cases held
  stop := by
    refine ⟨fun w at_w => ?_, fun on => ?_, fun _ => .inl rfl⟩
    · rcases at_w with none | none <;> cases none
    · cases on

variable [DecidableEq Wid] [DecidableEq Sid]

/-- What the executor does to the queue is a run of the queue. -/
theorem simulates_queue (Wid Sid : Type) [DecidableEq Wid] [DecidableEq Sid] (size : Nat) :
    Simulates (system Wid Sid size) (LfqueueModule.system (Wid ⊕ Sid) Sid size) State.queue where
  start s made := (start_eq made).1
  step s a t _ taken := by
    have called : ∀ x c, (s.queue.pc x).resting = true →
        ∃ b, LfqueueModule.step size s.queue b = some (s.queue.goto x (LfqueueModule.Call.first c)) :=
      fun x c rest => ⟨(x, .call c), LfqueueModule.call_iff.mpr ⟨rest, rfl⟩⟩
    cases step_cases taken with
    | executeOut fresh rest => exact .inr (called _ (.push_back _) rest)
    | executeIn fresh running rest => exact .inr (called _ (.push_back _) rest)
    | again busy answer => exact .inr (called _ (.push_back _) (by rw [answer]; rfl))
    | queue stepped => exact .inr ⟨(_, .go _), stepped⟩
    | check at_loop flag rest => exact .inr (called _ (.is_empty _) rest)
    | poll at_poll rest => exact .inr (called _ .pop rest)
    | returnOut | returnIn | leave | took | missed | finish | shutdown => exact .inl rfl

section Step

variable {s t : State Wid Sid}

omit [DecidableEq Wid] [DecidableEq Sid] in
theorem out_cases {p : Pc Sid} {q : Worker Sid} (out : Out p q) : q = .empty ∨ q = .left := by
  cases q with
  | empty => exact .inl rfl
  | left => exact .inr rfl
  | _ => cases out

omit [DecidableEq Wid] [DecidableEq Sid] in
theorem Stop.nobody_busy [Nonempty Wid] (places : Places s) (h : Stop s)
    (out : ∀ w, Out (s.queue.pc (.inl w)) (s.worker w)) (i : Sid) (caller : Option Wid) :
    s.call i ≠ .busy caller := by
  intro busy
  cases caller with
  | none =>
    obtain ⟨w⟩ := ‹Nonempty Wid›
    exact h.outside (h.flag w (out_cases (out w))) i busy
  | some w =>
    obtain ⟨task, running⟩ := places.caller i w busy
    have outside := out w
    rw [running] at outside
    cases outside

omit [DecidableEq Wid] [DecidableEq Sid] in
theorem Stop.nobody_pushes [Nonempty Wid] (places : Places s) (h : Stop s)
    (out : ∀ w, Out (s.queue.pc (.inl w)) (s.worker w)) (i : Sid) :
    (s.queue.pc (.inr i)).resting = true := by
  have ok := places.calls i
  cases hc : s.call i with
  | none | returned =>
    rw [hc] at ok
    rw [show s.queue.pc (.inr i) = _ from ok]
    rfl
  | busy caller => exact absurd hc (h.nobody_busy places out i caller)

omit [DecidableEq Wid] [DecidableEq Sid] in
theorem Stop.last_same (h : Stop s) (worker : t.worker = s.worker)
    (pc : ∀ w, t.queue.pc (.inl w) = s.queue.pc (.inl w)) (epos : t.queue.epos = s.queue.epos)
    (dpos : t.queue.dpos = s.queue.dpos) (out : ∀ w, Out (t.queue.pc (.inl w)) (t.worker w)) :
    t.queue.dpos = t.queue.epos ∨
      ∃ w, t.worker w = .empty ∧ t.queue.pc (.inl w) = .emptyDpos (some t.queue.epos) := by
  simp only [pc, worker] at out
  simp only [pc, worker, epos, dpos]
  exact h.last out

/-- What the last worker to load epos finds. -/
theorem Stop.last_queue [Nonempty Wid] (inv : LfqueueModule.Inv size s.queue) (places : Places s)
    (h : Stop s) {queue : LfqueueModule.State (Wid ⊕ Sid) Sid} {x : Wid ⊕ Sid} {spurious : Bool}
    (stepped : LfqueueModule.step size s.queue (x, .go spurious) = some queue)
    (out : ∀ w, Out (queue.pc (.inl w)) (s.worker w)) :
    queue.dpos = queue.epos ∨
      ∃ w, s.worker w = .empty ∧ queue.pc (.inl w) = .emptyDpos (some queue.epos) := by
  obtain ⟨p, pc, busy, -, -⟩ := LfqueueModule.go_cases stepped
  cases x with
  | inr i =>
    have before : ∀ w, Out (s.queue.pc (.inl w)) (s.worker w) := fun w => by
      have now := out w
      rwa [pc, Function.update_of_ne Sum.inl_ne_inr] at now
    exact absurd (busy.symm.trans (h.nobody_pushes places before i)) (by decide)
  | inl w =>
    have others : ∀ v, v ≠ w → queue.pc (.inl v) = s.queue.pc (.inl v) := fun v other => by
      rw [pc, Function.update_of_ne (Sum.inl_injective.ne other)]
    have at_empty : s.worker w = .empty := by
      rcases out_cases (out w) with at_empty | at_left
      · exact at_empty
      · have ok := places.workers w
        rw [at_left] at ok
        exact absurd (busy.symm.trans ok) (by decide)
    have kind := places.workers w
    have now := out w
    rw [at_empty] at kind now
    have loaded := inv.threads (.inl w)
    have order := inv.order
    simp only [LfqueueModule.step] at stepped
    cases hpc : s.queue.pc (.inl w) with
    | emptyEpos deq =>
      rw [hpc] at stepped loaded
      cases deq with
      | none =>
        cases stepped
        exact .inr ⟨w, at_empty, LfqueueModule.goto_self ..⟩
      | some deq =>
        cases stepped
        rw [LfqueueModule.goto_self] at now
        rcases now with ⟨_, none⟩ | answer
        · cases none
        · have found : s.queue.epos = deq := by simpa using answer
          exact .inl (Nat.le_antisymm order (found ▸ loaded))
    | emptyDpos enq =>
      rw [hpc] at stepped
      cases enq with
      | none =>
        cases stepped
        rw [LfqueueModule.goto_self] at now
        rcases now with ⟨_, none⟩ | none <;> cases none
      | some enq =>
        cases stepped
        rw [LfqueueModule.goto_self] at now
        rcases now with ⟨_, none⟩ | answer
        · cases none
        · have found : enq = s.queue.dpos := by simpa using answer
          -- this worker was out before as well
          have before : ∀ v, Out (s.queue.pc (.inl v)) (s.worker v) := fun v => by
            by_cases same : v = w
            · rw [same, at_empty, hpc]
              exact .inl ⟨enq, rfl⟩
            · rw [← others v same]
              exact out v
          rcases h.last before with empty | ⟨v, at_v, waits⟩
          · exact .inl empty
          · by_cases same : v = w
            · rw [same, hpc] at waits
              have newest : enq = s.queue.epos := by simpa using waits
              exact .inl (found.symm.trans newest)
            · exact .inr ⟨v, at_v, (others v same).trans waits⟩
    | returned => rw [hpc] at busy; cases busy
    | _ => rw [hpc] at kind; cases kind

omit [DecidableEq Sid] in
theorem Stop.flag_of (h : Stop s) {w : Wid} {q : Worker Sid}
    (worker : t.worker = Function.update s.worker w q) (flag : t.shutdown_flag = s.shutdown_flag)
    (mine : q = .empty ∨ q = .left → s.shutdown_flag = true) (v : Wid)
    (at_v : t.worker v = .empty ∨ t.worker v = .left) : t.shutdown_flag = true := by
  rw [flag]
  rw [worker] at at_v
  by_cases same : v = w
  · subst same
    rw [Function.update_self] at at_v
    exact mine at_v
  · rw [Function.update_of_ne same] at at_v
    exact h.flag v at_v

omit [DecidableEq Sid] in
theorem Stop.inside (h : Stop s) {w : Wid} {q : Worker Sid}
    (worker : t.worker = Function.update s.worker w q) (flag : t.shutdown_flag = s.shutdown_flag)
    (calls : ∀ i, t.call i = .busy none → s.call i = .busy none)
    (goes_on : q = .loop ∨ q = .pop ∨ ∃ task calling, q = .run task calling) : Stop t where
  flag := h.flag_of worker flag fun out => by
    rcases goes_on with rfl | rfl | ⟨_, _, rfl⟩ <;> rcases out with none | none <;> cases none
  outside on i busy := h.outside (flag ▸ on) i (calls i busy)
  last out := by
    have mine := out w
    rw [worker, Function.update_self] at mine
    rcases goes_on with rfl | rfl | ⟨_, _, rfl⟩ <;> cases mine

theorem step_stop [Nonempty Wid] (inv : LfqueueModule.Inv size s.queue) (places : Places s)
    (h : Stop s) {a : Act Wid Sid} (ok : InTime s a) (taken : step size s a = some t) : Stop t := by
  have elsewhere : ∀ (i : Sid) (p : Pc Sid) (w : Wid),
      Function.update s.queue.pc (.inr i) p (.inl w) = s.queue.pc (.inl w) := fun i p w =>
    Function.update_of_ne Sum.inl_ne_inr ..
  have busy_before : ∀ (i j : Sid) (c : Call Wid), c ≠ .busy none →
      Function.update s.call i c j = .busy none → s.call j = .busy none := by
    intro i j c other busy
    by_cases same : j = i
    · subst same
      rw [Function.update_self] at busy
      exact absurd busy other
    · rwa [Function.update_of_ne same] at busy
  cases step_cases taken with
  | @executeOut i fresh rest =>
    exact ⟨h.flag, fun on => absurd (ok.symm.trans on) (by decide),
      h.last_same rfl (elsewhere i (.pushLoadPos i)) rfl rfl⟩
  | executeIn fresh running rest =>
    exact h.inside rfl rfl (fun j => busy_before _ j _ (by simp)) (.inr (.inr ⟨_, _, rfl⟩))
  | @again i caller busy answer =>
    exact ⟨h.flag, h.outside, h.last_same rfl (elsewhere i (.pushLoadPos i)) rfl rfl⟩
  | returnOut busy answer =>
    exact ⟨h.flag, fun on j busy => h.outside on j (busy_before _ j _ (by simp) busy),
      h.last_same rfl (fun _ => rfl) rfl rfl⟩
  | returnIn busy answer running =>
    exact h.inside rfl rfl (fun j => busy_before _ j _ (by simp)) (.inr (.inr ⟨_, _, rfl⟩))
  | queue stepped => exact ⟨h.flag, h.outside, h.last_queue inv places stepped⟩
  | @check w epos_first at_loop flag rest =>
    refine ⟨fun _ _ => flag, h.outside, fun out => ?_⟩
    -- nothing is loaded yet
    have mine := out w
    change Out (Function.update s.queue.pc _ _ _) (Function.update s.worker w _ w) at mine
    rw [Function.update_self, Function.update_self] at mine
    rcases mine with ⟨_, none⟩ | none <;> cases epos_first <;> cases none
  | poll at_poll rest => exact h.inside rfl rfl (fun _ busy => busy) (.inr (.inl rfl))
  | @leave w epos_first at_empty answer =>
    refine ⟨h.flag_of rfl rfl fun _ => h.flag w (.inl at_empty), h.outside, fun out => ?_⟩
    have others : ∀ v, v ≠ w → (s.setWorker w .left).worker v = s.worker v := fun v other =>
      Function.update_of_ne other ..
    have before : ∀ v, Out (s.queue.pc (.inl v)) (s.worker v) := fun v => by
      by_cases same : v = w
      · rw [same, at_empty, answer]
        exact .inr rfl
      · exact others v same ▸ out v
    rcases h.last before with empty | ⟨v, at_v, waits⟩
    · exact .inl empty
    · have other : v ≠ w := fun same => by
        rw [same, answer] at waits
        cases waits
      exact .inr ⟨v, (others v other).trans at_v, waits⟩
  | took at_pop answer => exact h.inside rfl rfl (fun _ busy => busy) (.inr (.inr ⟨_, _, rfl⟩))
  | missed at_pop answer => exact h.inside rfl rfl (fun _ busy => busy) (.inl rfl)
  | finish running => exact h.inside rfl rfl (fun _ busy => busy) (.inl rfl)
  | shutdown => exact ⟨fun _ _ => rfl, fun _ => ok, h.last_same rfl (fun _ => rfl) rfl rfl⟩

end Step

theorem reached_good [Nonempty Wid] {s : State Wid Sid}
    (run : ReachedUnder (system Wid Sid size) InTime s) : LfqueueModule.Inv size s.queue ∧ Good s := by
  have queue : ∀ {s}, Reached (system Wid Sid size) s →
      LfqueueModule.Accepted size ∧ LfqueueModule.Inv size s.queue := fun reached =>
    LfqueueModule.reached_inv ((simulates_queue Wid Sid size).reached reached)
  refine ⟨(queue run.reached).2, ?_⟩
  induction run with
  | start made =>
    obtain ⟨-, rfl⟩ := start_eq made
    exact initial_good
  | next before ok taken ih =>
    obtain ⟨accepted, inv⟩ := queue before.reached
    exact ⟨step_places ih.places taken, step_ledger accepted inv ih.places ih.ledger taken,
      step_stop inv ih.places ih.stop ok taken⟩

/-- When all workers have left worker_loop, each submission has been executed once. -/
theorem drained [Nonempty Wid] {s : State Wid Sid}
    (run : ReachedUnder (system Wid Sid size) InTime s) (left : ∀ w, s.worker w = .left) (i : Sid) :
    s.executed.count i = if s.call i = .none then 0 else 1 := by
  obtain ⟨inv, places, ledger, stop⟩ := reached_good run
  have out : ∀ w, Out (s.queue.pc (.inl w)) (s.worker w) := fun w => by
    rw [left w]
    trivial
  have empty : s.queue.dpos = s.queue.epos := by
    rcases stop.last out with empty | ⟨w, at_empty, -⟩
    · exact empty
    · rw [left w] at at_empty
      cases at_empty
  have none_held : ∀ w, s.held w = none := fun w => by
    unfold State.held
    rw [left w]
  have executed : i ∈ s.executed ↔ i ∈ s.queue.pushed := by
    have popped := ledger.popped i
    rw [empty, ← inv.tickets, List.take_length] at popped
    simp only [none_held, reduceCtorEq, exists_const, or_false] at popped
    exact popped.symm
  have place := places.calls i
  have claimed := ledger.claimed i
  split
  · rw [‹s.call i = .none›] at place
    refine List.count_eq_zero.mpr fun mem => ?_
    have past := claimed.mp (executed.mp mem)
    rw [show s.queue.pc (.inr i) = _ from place] at past
    cases past
  · refine List.count_eq_one_of_mem ledger.once (executed.mpr (claimed.mpr ?_))
    cases hc : s.call i with
    | none => exact absurd hc ‹_›
    | busy caller => exact absurd hc (stop.nobody_busy places out i caller)
    | returned =>
      rw [hc] at place
      rw [show s.queue.pc (.inr i) = _ from place]
      rfl

instance [Fintype Sid] (s : State Wid Sid) : (a : Act Wid Sid) → Decidable (InTime s a)
  | .execute _ none => inferInstanceAs (Decidable (s.shutdown_flag = false))
  | .execute _ (some _) | .blocking _ | .queue _ _ | .worker _ _ => .isTrue trivial
  | .shutdown => inferInstanceAs (Decidable (∀ i, s.call i ≠ .busy none))

/-- A worker takes the only task and, before it has run it, the other one leaves; the task then
submits another one, which the first worker takes as well. -/
def twoWorkers : List (Act Bool Bool) :=
  let inQueue := fun x n => List.replicate n (Act.queue x false)
  let poll := fun w => [.worker w true] ++ inQueue (.inl w) 2 ++ [.worker w true]
  let submit := fun i caller => [.execute i caller] ++ inQueue (.inr i) 5 ++ [.blocking i]
  let take := fun w => inQueue (.inl w) 5 ++ [.worker w true]
  submit false none ++ [.shutdown] ++ poll false ++ take false ++ poll true ++
    submit true (some false) ++ [.worker false true] ++ poll false ++ take false ++
      [.worker false true] ++ poll false

def bothLeft : State Bool Bool :=
  (replay (system Bool Bool 2) initial twoWorkers).get (by decide +kernel)

theorem drained_two : bothLeft.executed.count true = 1 := by
  have start : ReachedUnder (system Bool Bool 2) InTime initial := .start rfl
  have run : ReachedUnder (system Bool Bool 2) InTime bothLeft :=
    start.replay twoWorkers (by decide +kernel) (Option.some_get _).symm
  have submitted : bothLeft.call true ≠ .none := by decide +kernel
  have executed := drained run (by decide +kernel) true
  rwa [if_neg submitted] at executed

end Pot.ThreadPoolLfgq
