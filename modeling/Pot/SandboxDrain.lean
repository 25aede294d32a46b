import Pot.SandboxLedger

/-! Shutdown. A worker leaves its loop on the stop flag whatever is queued, and shutdown joins the
workers: what the last of them leaves behind is not run before shutdown returns. -/
namespace Pot.Sandbox
open Transition

variable {Sid Kid : Type} {n : Nat}

/-- The function is of a call that returned before shutdown was called, or still may. -/
def State.owed (s : State Sid Kid n) (sid : Sid) : Prop := s.shutdown = .idle ∨ s.before sid = true

def State.leaves (s : State Sid Kid n) (i : Fin n) : Prop :=
  s.stop_requested i = true ∧ (s.worker i = .loop ∨ ∃ v, s.worker i = .recheck v)

/-- What was accepted before shutdown has left the containers and the hands of the thieves. -/
structure State.Emptied (s : State Sid Kid n) : Prop where
  containers : ∀ c, ∀ x ∈ (s.ctx c).tasks, s.before x.call = false
  thieves : ∀ k task, s.thief k = .run task → s.before task.call = false

def Shutdown.joined : Shutdown → Fin n → Prop
  | .join thread, i => i < thread
  | .returned, _ => True
  | _, _ => False

/-- What shutdown still has to do on its own, once every worker has returned. -/
def Shutdown.left (threads contexts : Nat) : Shutdown → Nat
  | .returned => 0
  | .join thread => threads - thread + 1
  | .notifyAll context => 2 * (contexts - (context + 1)) + threads + 3
  | .fetchAdd context => 2 * (contexts - context) + threads + 2
  | .requestStop thread => threads - thread + 2 * contexts + threads + 3
  | .idle | .exchange => 2 * threads + 2 * contexts + 4

section Places
variable [DecidableEq Sid] {s : State Sid Kid n}

theorem queued_pos {c : Fin n} {x : Item Sid} (queued : x ∈ (s.ctx c).tasks) :
    0 < s.queued x.call := by
  have here : 0 < (s.ctx c).holds x.call :=
    List.countP_pos_iff.mpr ⟨x, queued, decide_eq_true rfl⟩
  exact Nat.lt_of_lt_of_le here (Tally.le_total (Context.holds x.call) s.ctx c)

theorem queued_eq_zero {sid : Sid} (gone : ∀ c, ∀ x ∈ (s.ctx c).tasks, x.call ≠ sid) :
    s.queued sid = 0 :=
  Tally.total_eq_zero.mpr fun c => List.countP_eq_zero.mpr fun x hx => by
    simpa using gone c x hx

theorem running_eq_zero (returned : ∀ i, s.worker i = .returned) (sid : Sid) :
    s.running sid = 0 :=
  Tally.total_eq_zero.mpr fun i => by rw [returned i]; rfl

variable [Fintype Kid]

theorem stolen_pos {k : Kid} {x : Item Sid} (held : s.thief k = .run x) : 0 < s.stolen x.call := by
  have here : 0 < (s.thief k).holds x.call := by
    rw [held, Thief.holds, if_pos rfl]
    exact Nat.one_pos
  exact Nat.lt_of_lt_of_le here (Tally.le_total (Thief.holds x.call) s.thief k)

theorem stolen_eq_zero {sid : Sid} (gone : ∀ k x, s.thief k = .run x → x.call ≠ sid) :
    s.stolen sid = 0 := by
  apply Tally.total_eq_zero.mpr
  intro k
  cases hk : s.thief k with
  | run task => exact if_neg (gone k task hk)
  | _ => rfl

theorem settled_le_one (h : Ledger s) (sid : Sid) : s.settled sid ≤ 1 := by
  have placed := h sid
  have accepted := Bool.toNat_le (s.call sid).accepted
  omega

theorem settled_of_emptied (h : Ledger s) (returned : ∀ i, s.worker i = .returned)
    (emptied : s.Emptied) {sid : Sid} (before : s.before sid = true)
    (answered : s.call sid = .returned) : s.settled sid = 1 := by
  have placed := h sid
  have queued : s.queued sid = 0 := queued_eq_zero fun c x hx eq => by
    cases (emptied.containers c x hx).symm.trans (eq ▸ before)
  have running := running_eq_zero returned sid
  have stolen : s.stolen sid = 0 := stolen_eq_zero fun k x hx eq => by
    cases (emptied.thieves k x hx).symm.trans (eq ▸ before)
  rw [answered] at placed
  simp only [Call.accepted, Bool.toNat_true] at placed
  omega

theorem unsettled_of_left (h : Ledger s) (left : ¬ s.Emptied) :
    ∃ sid, s.before sid = true ∧ s.settled sid = 0 := by
  by_contra none
  refine left ⟨fun c x hx => ?_, fun k task held => ?_⟩
  · by_contra before
    have placed := h x.call
    have accepted := Bool.toNat_le (s.call x.call).accepted
    have here := queued_pos hx
    exact none ⟨x.call, eq_true_of_ne_false before, by omega⟩
  · by_contra before
    have placed := h task.call
    have accepted := Bool.toNat_le (s.call task.call).accepted
    have here := stolen_pos held
    exact none ⟨task.call, eq_true_of_ne_false before, by omega⟩

end Places

theorem moved_returned {s : State Sid Kid n} {j : Fin n} {w : Worker Sid n}
    (running : s.worker j ≠ .returned) (moving : w ≠ .returned) (i : Fin n) :
    Function.update s.worker j w i = .returned ↔ s.worker i = .returned := by
  simp only [Function.update_apply]
  split
  · rename_i same
    rw [same]
    exact iff_of_false moving running
  · exact Iff.rfl

theorem scanning_running (v : Nat) (targets : List (Fin n)) :
    (Worker.scanning v targets : Worker Sid n) ≠ .returned := by
  cases targets <;> exact nofun

theorem setWorker_returned {s : State Sid Kid n} {j i : Fin n} (h : s.worker i = .returned) :
    (s.setWorker j .returned).worker i = .returned := by
  simp only [State.setWorker, Function.update_apply]
  split
  · rfl
  · exact h

/-- What the run has settled, and how far shutdown and the workers are. -/
structure Accounts [DecidableEq Sid] [Fintype Kid] (cfg : Config) (s : State Sid Kid n) : Prop where
  ledger : Ledger s
  shutdown : ShutdownOk cfg s s.shutdown
  asked : ∀ i, s.worker i = .returned → s.stop_requested i = true
  answered : ∀ sid, s.before sid = true → s.call sid = .returned
  joined : ∀ i, s.shutdown.joined i → s.worker i = .returned

theorem initial_accounts [DecidableEq Sid] [Fintype Kid] (cfg : Config) :
    Accounts cfg (initial Sid Kid n) where
  ledger sid := by
    have queued : (initial Sid Kid n).queued sid = 0 := queued_eq_zero fun _ _ hx => nomatch hx
    have running : (initial Sid Kid n).running sid = 0 := Tally.total_eq_zero.mpr fun _ => rfl
    have stolen : (initial Sid Kid n).stolen sid = 0 := Tally.total_eq_zero.mpr fun _ => rfl
    rw [queued, running, stolen]
    rfl
  shutdown := ⟨rfl, rfl, fun _ => rfl⟩
  asked := nofun
  answered := nofun
  joined := nofun

variable [NeZero n]

/-- The last worker to leave leaves nothing behind that was accepted before shutdown, and no
empty function stands in for an accepted one. -/
def Drains (cfg : Config) (s : State Sid Kid n) : Act Sid Kid n → Prop
  | .worker i _ =>
    (s.leaves i → (∀ j, j ≠ i → s.worker j = .returned) → s.Emptied) ∧
    (∀ v x rest, s.worker i = .popOwn v → pop (s.ctx (cfg.home i)).tasks = some (x, rest) →
      s.owed x.call → x.callable = true) ∧
    ∀ v target more x rest, s.worker i = .scan v target more →
      pop (s.ctx target).tasks = some (x, rest) → s.owed x.call → x.callable = true
  | .thief k => ∀ x, s.thief k = .run x → s.owed x.call → x.callable = true
  | _ => True

theorem notify_returned (cfg : Config) (s : State Sid Kid n) (c i : Fin n) (woken : Fin n → Bool) :
    (s.notify cfg c woken).worker i = .returned ↔ s.worker i = .returned := by
  simp only [State.notify]
  split
  · cases s.worker i <;> simp [Worker.unblock]
  · exact Iff.rfl

theorem worker_returned {cfg : Config} {s t : State Sid Kid n} {j : Fin n}
    (step : WorkerSteps cfg s j t) :
    (∀ i, t.worker i = .returned ↔ s.worker i = .returned) ∨
      s.leaves j ∧ t = s.setWorker j .returned := by
  have taken : ∀ {x : Item Sid} {empty : Worker Sid n}, empty ≠ .returned →
      (if x.callable then .run x else empty) ≠ Worker.returned := by
    intro x empty running
    split
    · exact nofun
    · exact running
  cases step with
  | stop at_pc requested => exact .inr ⟨⟨requested, .inl at_pc⟩, rfl⟩
  | @leave v at_pc requested => exact .inr ⟨⟨requested, .inr ⟨v, at_pc⟩⟩, rfl⟩
  | popNone at_pc | skip at_pc =>
    exact .inl (moved_returned (by rw [at_pc]; exact nofun) (scanning_running _ _))
  | popOwn at_pc =>
    rw [take_worker]
    exact .inl (moved_returned (by rw [at_pc]; exact nofun) (taken (scanning_running _ _)))
  | steal at_pc =>
    rw [take_worker]
    exact .inl (moved_returned (by rw [at_pc]; exact nofun) (taken nofun))
  | begin at_pc | load at_pc | run at_pc | stay at_pc | block at_pc | retry at_pc =>
    exact .inl (moved_returned (by rw [at_pc]; exact nofun) nofun)

theorem step_returned [DecidableEq Sid] [DecidableEq Kid] {cfg : Config} {s t : State Sid Kid n}
    {a : Act Sid Kid n} (taken : step cfg s a = some t) :
    (∀ i, t.worker i = .returned ↔ s.worker i = .returned) ∨
      ∃ j busy, a = .worker j busy ∧ s.leaves j ∧ t = s.setWorker j .returned := by
  cases step_cases taken with
  | call step => cases step <;> exact .inl fun _ => Iff.rfl
  | notifyOne at_pc => exact .inl fun i => notify_returned cfg s _ i _
  | @worker j busy t step => exact (worker_returned step).imp_right fun h => ⟨j, busy, rfl, h⟩
  | wake at_pc => exact .inl (moved_returned (by rw [at_pc]; exact nofun) nofun)
  | thief step => cases step <;> exact .inl fun _ => Iff.rfl
  | stop step =>
    cases step with
    | @notifyAll k => exact .inl fun i => notify_returned cfg s (Fin.ofNat n k) i fun _ => true
    | _ => exact .inl fun _ => Iff.rfl
  | _ => exact .inl fun _ => Iff.rfl

theorem not_all_asked {cfg : Config} {s : State Sid Kid n} (ok : ShutdownOk cfg s s.shutdown)
    (idle : s.shutdown = .idle) : ¬ ∀ i, s.stop_requested i = true := by
  intro all
  rw [idle] at ok
  cases (ok.2.2 0).symm.trans (all 0)

theorem shutdown_lowers {cfg : Config} {s t : State Sid Kid n} (step : ShutdownSteps cfg s t) :
    t.executed = s.executed ∧ t.before = s.before ∧
      t.shutdown.left n (cfg.contexts n) < s.shutdown.left n (cfg.contexts n) := by
  cases step with
  | exchange at_pc | refused at_pc | request at_pc | requested at_pc | fetchAdd at_pc
  | counted at_pc | notifyAll at_pc | join at_pc | clear at_pc =>
    refine ⟨rfl, rfl, ?_⟩
    rw [at_pc]
    simp only [Shutdown.left]
    omega

variable [DecidableEq Sid] [DecidableEq Kid]

theorem step_stays_returned {cfg : Config} {s t : State Sid Kid n} {a : Act Sid Kid n}
    (taken : step cfg s a = some t) {i : Fin n} (h : s.worker i = .returned) :
    t.worker i = .returned := by
  rcases step_returned taken with same | ⟨j, busy, -, -, rfl⟩
  · exact (same i).mpr h
  · exact setWorker_returned h

/-- The record of the statements: only the call of shutdown sets `before`, and nothing is taken
back from what has run or was dropped. -/
theorem step_record {cfg : Config} {s t : State Sid Kid n} {a : Act Sid Kid n}
    (taken : step cfg s a = some t) :
    (∀ sid, s.settled sid ≤ t.settled sid) ∧
    (a ≠ .shutdown → t.before = s.before ∧ (t.shutdown = .idle ↔ s.shutdown = .idle)) := by
  have grown : ∀ (l : List Sid) (x sid : Sid), l.count sid ≤ (l ++ [x]).count sid :=
    fun l x sid => by rw [Tally.count_push]; omega
  cases step_cases taken with
  | call step => cases step <;> exact ⟨fun _ => Nat.le_refl _, fun _ => ⟨rfl, Iff.rfl⟩⟩
  | worker step =>
    cases step with
    | popOwn | steal =>
      simp only [State.take]
      split
      · exact ⟨fun _ => Nat.le_refl _, fun _ => ⟨rfl, Iff.rfl⟩⟩
      · exact ⟨fun sid => Nat.add_le_add_left (grown _ _ sid) _, fun _ => ⟨rfl, Iff.rfl⟩⟩
    | run => exact ⟨fun sid => Nat.add_le_add_right (grown _ _ sid) _, fun _ => ⟨rfl, Iff.rfl⟩⟩
    | _ => exact ⟨fun _ => Nat.le_refl _, fun _ => ⟨rfl, Iff.rfl⟩⟩
  | thief step =>
    cases step with
    | run => exact ⟨fun sid => Nat.add_le_add_right (grown _ _ sid) _, fun _ => ⟨rfl, Iff.rfl⟩⟩
    | badFunctionCall =>
      exact ⟨fun sid => Nat.add_le_add_left (grown _ _ sid) _, fun _ => ⟨rfl, Iff.rfl⟩⟩
    | _ => exact ⟨fun _ => Nat.le_refl _, fun _ => ⟨rfl, Iff.rfl⟩⟩
  | shutdown => exact ⟨fun _ => Nat.le_refl _, fun other => absurd rfl other⟩
  | stop step =>
    cases step with
    | exchange at_pc | refused at_pc | request at_pc | requested at_pc | fetchAdd at_pc
    | counted at_pc | notifyAll at_pc | join at_pc | clear at_pc =>
      exact ⟨fun _ => Nat.le_refl _, fun _ => ⟨rfl, by simp [at_pc]⟩⟩
  | _ => exact ⟨fun _ => Nat.le_refl _, fun _ => ⟨rfl, Iff.rfl⟩⟩

theorem step_owed {cfg : Config} {s t : State Sid Kid n} {a : Act Sid Kid n}
    (taken : step cfg s a = some t) (sid : Sid) (unowed : ¬ s.owed sid) : ¬ t.owed sid := by
  by_cases called : a = .shutdown
  · subst called
    cases step_cases taken with
    | shutdown at_pc => exact absurd (.inl at_pc) unowed
  · obtain ⟨before, idle⟩ := (step_record taken).2 called
    rw [State.owed, before, idle]
    exact unowed

theorem step_joined {cfg : Config} {s t : State Sid Kid n} {a : Act Sid Kid n}
    (ok : ShutdownOk cfg s s.shutdown) (h : ∀ i, s.shutdown.joined i → s.worker i = .returned)
    (taken : step cfg s a = some t) : ∀ i, t.shutdown.joined i → t.worker i = .returned := by
  intro i done
  apply step_stays_returned taken
  by_cases called : a = .shutdown
  · subst called
    cases step_cases taken with
    | shutdown => exact absurd done id
  · by_cases stopping : a = .stop
    · subst stopping
      cases step_cases taken with
      | stop step =>
        cases step with
        | refused at_pc stopped =>
          rw [at_pc] at ok
          cases ok.2.1.symm.trans stopped
        | counted => exact absurd done (Nat.not_lt_zero _)
        | @join k at_pc inside joined =>
          rcases Nat.lt_or_eq_of_le (Nat.le_of_lt_succ done) with earlier | here
          · exact h i (by rw [at_pc]; exact earlier)
          · exact (Fin.ext here : i = ⟨k, inside⟩) ▸ joined
        | clear at_pc outside => exact h i (by rw [at_pc]; exact Nat.lt_of_lt_of_le i.2 outside)
        | _ => exact absurd done id
    · rw [(step_keeps (step_cases taken) called stopping).2.2.2] at done
      exact h i done

theorem step_asked {cfg : Config} {s t : State Sid Kid n} {a : Act Sid Kid n}
    (h : ∀ i, s.worker i = .returned → s.stop_requested i = true)
    (taken : step cfg s a = some t) (i : Fin n) (returned : t.worker i = .returned) :
    t.stop_requested i = true := by
  have kept : s.stop_requested i = true → t.stop_requested i = true := by
    intro asked
    by_cases stopping : a = .stop
    · subst stopping
      cases step_cases taken with
      | stop step =>
        cases step with
        | request =>
          simp only [Function.update_apply]
          split
          · rfl
          · exact asked
        | _ => exact asked
    · by_cases called : a = .shutdown
      · subst called
        cases step_cases taken with
        | shutdown => exact asked
      · rw [(step_keeps (step_cases taken) called stopping).2.2.1]
        exact asked
  rcases step_returned taken with same | ⟨j, busy, -, leaves, rfl⟩
  · exact kept (h i ((same i).mp returned))
  · by_cases same : i = j
    · exact kept (same ▸ leaves.1)
    · have before : Function.update s.worker j .returned i = .returned := returned
      exact kept (h i (by rwa [Function.update_of_ne same] at before))

theorem step_answered {cfg : Config} {s t : State Sid Kid n} {a : Act Sid Kid n}
    (h : ∀ sid, s.before sid = true → s.call sid = .returned)
    (taken : step cfg s a = some t) (sid : Sid) (before : t.before sid = true) :
    t.call sid = .returned := by
  have moved : ∀ {d : Sid} {q : Call n}, s.before sid = true → s.call d ≠ .returned →
      Function.update s.call d q sid = .returned := by
    intro d q earlier moving
    by_cases same : sid = d
    · exact absurd (same ▸ h sid earlier) moving
    · rw [Function.update_of_ne same]
      exact h sid earlier
  cases step_cases taken with
  | submit at_pc | notifyOne at_pc => exact moved before (by rw [at_pc]; exact nofun)
  | call step =>
    cases step with
    | full => exact h sid before
    | stopped at_pc | global at_pc | round at_pc | index at_pc | divide at_pc | claim at_pc
    | emplace at_pc | publish at_pc | fetchAdd at_pc =>
      exact moved before (by rw [at_pc]; exact nofun)
  | worker step =>
    cases step with
    | popOwn | steal =>
      rw [(take_keeps ..).1]
      apply h sid
      unfold State.take at before
      split at before <;> exact before
    | _ => exact h sid before
  | thief step => cases step <;> exact h sid before
  | shutdown =>
    cases hc : s.call sid <;> simp_all [Call.hasReturned]
  | stop step => cases step <;> exact h sid before
  | _ => exact h sid before

theorem step_unowed {cfg : Config} {s t : State Sid Kid n} {a : Act Sid Kid n}
    (h : ∀ sid ∈ s.dropped, ¬ s.owed sid) (ok : Drains cfg s a) (taken : step cfg s a = some t) :
    ∀ sid ∈ t.dropped, ¬ t.owed sid := by
  have kept : ∀ sid ∈ s.dropped, ¬ t.owed sid := fun sid old => step_owed taken sid (h sid old)
  have grown : ∀ {x : Item Sid}, x.callable = false → (s.owed x.call → x.callable = true) →
      ∀ sid ∈ s.dropped ++ [x.call], ¬ t.owed sid := by
    intro x empty callable sid old
    rcases List.mem_append.mp old with old | new
    · exact kept sid old
    · cases List.mem_singleton.mp new
      exact step_owed taken x.call fun owed => by cases (callable owed).symm.trans empty
  have took : ∀ {i c : Fin n} {x : Item Sid} {rest : List (Item Sid)} {empty : Worker Sid n},
      (s.owed x.call → x.callable = true) →
      ∀ sid ∈ (s.take i c x rest empty).dropped, ¬ t.owed sid := by
    intro i c x rest empty callable
    simp only [State.take]
    split
    · exact kept
    · exact grown (Bool.eq_false_iff.mpr ‹_›) callable
  cases step_cases taken with
  | call step => cases step <;> exact kept
  | worker step =>
    cases step with
    | popOwn at_pc popped => exact took (ok.2.1 _ _ _ at_pc popped)
    | steal at_pc popped => exact took (ok.2.2 _ _ _ _ _ at_pc popped)
    | _ => exact kept
  | thief step =>
    cases step with
    | badFunctionCall at_pc empty => exact grown empty (ok _ at_pc)
    | _ => exact kept
  | stop step => cases step <;> exact kept
  | _ => exact kept

theorem shutdown_enabled (cfg : Config) {s : State Sid Kid n} (all : ∀ i, s.worker i = .returned)
    (called : s.shutdown ≠ .idle) (going : s.shutdown ≠ .returned) :
    ∃ t, step cfg s .stop = some t := by
  simp only [step]
  cases hs : s.shutdown with
  | idle => exact absurd hs called
  | returned => exact absurd hs going
  | exchange | notifyAll => exact ⟨_, rfl⟩
  | requestStop | fetchAdd =>
    simp only [shutdownStep]
    split <;> exact ⟨_, rfl⟩
  | join =>
    simp only [shutdownStep, all]
    split <;> exact ⟨_, rfl⟩

theorem shutdown_finishes (cfg : Config) {s : State Sid Kid n}
    (all : ∀ i, s.worker i = .returned) (called : s.shutdown ≠ .idle) :
    ∃ as t, replay (system cfg Sid Kid n) s as = some t ∧ t.shutdown = .returned ∧
      t.executed = s.executed ∧ t.before = s.before := by
  induction hk : s.shutdown.left n (cfg.contexts n) using Nat.strongRecOn generalizing s with
  | ind k ih =>
    by_cases going : s.shutdown = .returned
    · exact ⟨[], s, rfl, going, rfl, rfl⟩
    · obtain ⟨t, taken⟩ := shutdown_enabled cfg all called going
      obtain ⟨executed, before, lower⟩ := shutdown_lowers (shutdown_cases taken)
      have called' : t.shutdown ≠ .idle := fun idle =>
        called (((step_record taken).2 nofun).2.mp idle)
      obtain ⟨as, u, run, joined, executed', before'⟩ := ih _ (hk ▸ lower)
        (fun i => step_stays_returned taken (all i)) called' rfl
      exact ⟨.stop :: as, u, (replay_cons taken as).trans run, joined, executed'.trans executed,
        before'.trans before⟩

variable [Fintype Kid]

theorem step_accounts {cfg : Config} {s t : State Sid Kid n} {a : Act Sid Kid n}
    (h : Accounts cfg s) (taken : step cfg s a = some t) : Accounts cfg t where
  ledger := step_ledger h.ledger taken
  shutdown := step_shutdownOk h.shutdown taken
  asked := step_asked h.asked taken
  answered := step_answered h.answered taken
  joined := step_joined h.shutdown h.joined taken

theorem reached_accounts {cfg : Config} {s : State Sid Kid n}
    (reached : Reached (system cfg Sid Kid n) s) : Accounts cfg s :=
  reached.invariant (I := Accounts cfg)
    (fun s (eq : s = initial Sid Kid n) => eq ▸ initial_accounts cfg)
    (fun _ _ _ hi taken => step_accounts hi taken)

theorem step_settled {cfg : Config} {s t : State Sid Kid n} {a : Act Sid Kid n}
    (acc : Accounts cfg s)
    (h : (∀ i, s.worker i = .returned) → ∀ sid, s.before sid = true → s.settled sid = 1)
    (ok : Drains cfg s a) (taken : step cfg s a = some t) (all : ∀ i, t.worker i = .returned)
    (sid : Sid) (before : t.before sid = true) : t.settled sid = 1 := by
  have acc' := step_accounts acc taken
  have called : a ≠ .shutdown := by
    rintro rfl
    cases step_cases taken with
    | shutdown at_pc => exact not_all_asked acc.shutdown at_pc fun i => acc.asked i (all i)
  rw [((step_record taken).2 called).1] at before
  rcases step_returned taken with same | ⟨j, busy, rfl, leaves, rfl⟩
  · have settled := h (fun i => (same i).mp (all i)) sid before
    have kept := (step_record taken).1 sid
    have bound := settled_le_one acc'.ledger sid
    omega
  · have others : ∀ k, k ≠ j → s.worker k = .returned := by
      intro k other
      have now : Function.update s.worker j .returned k = .returned := all k
      rwa [Function.update_of_ne other] at now
    have emptied := ok.1 leaves others
    exact settled_of_emptied acc'.ledger all ⟨emptied.containers, emptied.thieves⟩ before
      (acc.answered sid before)

theorem reached_drained {cfg : Config} {s : State Sid Kid n}
    (reached : ReachedUnder (system cfg Sid Kid n) (Drains cfg) s) :
    Accounts cfg s ∧ (∀ sid ∈ s.dropped, ¬ s.owed sid) ∧
      ((∀ i, s.worker i = .returned) → ∀ sid, s.before sid = true → s.settled sid = 1) := by
  induction reached with
  | start h =>
    cases h
    exact ⟨initial_accounts cfg, nofun, fun all => by cases all 0⟩
  | next _ ok taken ih =>
    obtain ⟨acc, unowed, settled⟩ := ih
    exact ⟨step_accounts acc taken, step_unowed unowed ok taken, step_settled acc settled ok taken⟩

theorem drained_executed {cfg : Config} {s : State Sid Kid n}
    (reached : ReachedUnder (system cfg Sid Kid n) (Drains cfg) s)
    (joined : s.shutdown = .returned) {sid : Sid} (before : s.before sid = true) :
    s.executed.count sid = 1 := by
  obtain ⟨acc, unowed, settled⟩ := reached_drained reached
  have all : ∀ i, s.worker i = .returned := fun i => acc.joined i (by rw [joined]; trivial)
  have once := settled all sid before
  have kept : s.dropped.count sid = 0 :=
    List.count_eq_zero.mpr fun dropped => unowed sid dropped (.inr before)
  rwa [State.settled, kept] at once

theorem left_behind {cfg : Config} {s t : State Sid Kid n} {i : Fin n} {busy : Bool}
    (reached : Reached (system cfg Sid Kid n) s) (leaves : s.leaves i)
    (last : ∀ j, j ≠ i → s.worker j = .returned) (left : ¬ s.Emptied)
    (taken : step cfg s (.worker i busy) = some t) :
    ∃ as u sid, replay (system cfg Sid Kid n) t as = some u ∧ u.shutdown = .returned ∧
      u.before sid = true ∧ u.executed.count sid = 0 := by
  have acc := reached_accounts reached
  obtain ⟨sid, before, unsettled⟩ := unsettled_of_left acc.ledger left
  have gone : t = s.setWorker i .returned := by
    obtain ⟨requested, at_pc | ⟨v, at_pc⟩⟩ := leaves <;>
      simpa [step, at_pc, workerStep, requested] using taken.symm
  subst gone
  have all : ∀ j, (s.setWorker i .returned).worker j = .returned := by
    intro j
    by_cases same : j = i
    · exact same ▸ Function.update_self ..
    · exact setWorker_returned (last j same)
  have called : s.shutdown ≠ .idle := by
    intro idle
    have ok := acc.shutdown
    rw [idle] at ok
    cases (ok.2.2 i).symm.trans leaves.1
  obtain ⟨as, u, run, joined, executed, kept⟩ := shutdown_finishes cfg all called
  refine ⟨as, u, sid, run, joined, kept ▸ before, ?_⟩
  rw [executed]
  exact Nat.eq_zero_of_add_eq_zero_right unsettled

/-- shutdown of any pool: the functions accepted before it have run once when it returns, in the
runs that drain; and whenever the last worker leaves some behind, shutdown can return with one
that has not run. -/
theorem shutdown_drains (cfg : Config) :
    (∀ s : State Sid Kid n, ReachedUnder (system cfg Sid Kid n) (Drains cfg) s →
      s.shutdown = .returned → ∀ sid, s.before sid = true → s.executed.count sid = 1) ∧
    ∀ (s t : State Sid Kid n) (i : Fin n) (busy : Bool), Reached (system cfg Sid Kid n) s →
      s.leaves i → (∀ j, j ≠ i → s.worker j = .returned) → ¬ s.Emptied →
      step cfg s (.worker i busy) = some t →
      ∃ as u sid, replay (system cfg Sid Kid n) t as = some u ∧ u.shutdown = .returned ∧
        u.before sid = true ∧ u.executed.count sid = 0 :=
  ⟨fun _ reached joined _ before => drained_executed reached joined before,
    fun _ _ _ _ reached leaves last left taken => left_behind reached leaves last left taken⟩

def shutdownRun : List (Act Bool Empty 1) :=
  .shutdown :: List.replicate 6 .stop ++ work 1 ++ [.stop, .stop]

def drainedRun : List (Act Bool Empty 1) := submission true true 3 ++ work 4 ++ shutdownRun

def drained : State Bool Empty 1 :=
  (replay gqSystem (initial Bool Empty 1) drainedRun).get rfl

theorem shutdown_drains_drained :
    drained.shutdown = .returned ∧ drained.before true = true ∧
      drained.executed.count true = 1 := by
  have passes : ∀ {s : State Bool Empty 1} {busy : Bool},
      (∀ x ∈ (s.ctx 0).tasks, x.callable = true) →
      s.stop_requested 0 = false ∨ (s.ctx 0).tasks = [] →
      Drains ⟨.gq, "pool"⟩ s (.worker 0 busy) := by
    intro s busy callable stays
    have taken : ∀ {c : Fin 1} {x : Item Bool} {rest : List (Item Bool)},
        pop (s.ctx c).tasks = some (x, rest) → x.callable = true := by
      intro c x rest popped
      rw [Fin.fin_one_eq_zero c] at popped
      exact callable x ((pop_eq_some.mp popped).1 ▸ List.mem_cons_self)
    refine ⟨fun leaves _ => ⟨fun c x hx => ?_, fun k => k.elim⟩,
      fun _ _ _ _ popped _ => taken popped, fun _ _ _ _ _ _ popped _ => taken popped⟩
    rcases stays with running | empty
    · cases running.symm.trans leaves.1
    · rw [Fin.fin_one_eq_zero c, empty] at hx
      cases hx
  have allowed : ReplaysUnder gqSystem (Drains ⟨.gq, "pool"⟩) (initial Bool Empty 1) drainedRun :=
    ⟨trivial, trivial, trivial, trivial, trivial, passes (by decide) (.inl rfl),
      passes (by decide) (.inl rfl), passes (by decide) (.inl rfl), passes (by decide) (.inl rfl),
      trivial, trivial, trivial, trivial, trivial, trivial, trivial,
      passes (by decide) (.inr rfl), trivial, trivial, trivial⟩
  have reached : ReachedUnder gqSystem (Drains ⟨.gq, "pool"⟩) drained :=
    (ReachedUnder.start rfl).replay drainedRun allowed (Option.some_get _).symm
  exact ⟨rfl, rfl, (shutdown_drains ⟨.gq, "pool"⟩).1 drained reached rfl true rfl⟩

/-- shutdown comes before the worker's first look: the accepted function is never run. -/
theorem gq_not_drained :
    ¬ ∀ s, Reached gqSystem s → s.shutdown = .returned → ∀ sid, s.before sid = true →
      s.executed.count sid = 1 := by
  intro drains
  have reached : Reached gqSystem
      ((replay gqSystem (initial Bool Empty 1) (submission true true 3 ++ shutdownRun)).get rfl) :=
    (Reached.start rfl).replay _ (Option.some_get _).symm
  cases drains _ reached rfl true rfl

end Pot.Sandbox
