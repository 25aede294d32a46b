import Mathlib.Data.Fintype.Basic
import Pot.ExecutorsLocal
import Pot.SandboxRoundRobin

/-! Round-robin submission to threads with a queue each: m_threads.clear() destroys the threads and
then the vector's length, while a call that has passed its look at m_stop may still divide by the
length or be inside run(). -/
namespace Pot.ExecutorsLocal
open Transition

variable {cls : ThreadClass} {Sid Kid : Type} {n : Nat}

def Call.uses : Call cls n → Bool
  | .index | .run _ _ => true
  | _ => false

def Call.failed : Call cls n → Bool
  | .divisionByZero | .dangling => true
  | _ => false

/-- m_threads.clear() does not begin while a call is between its look at m_stop and the end of
run(). -/
def ClearsUnused (s : State cls Sid Kid n) : Act Sid Kid n → Prop
  | .stop k => s.shutdown k = .destroy 0 → ∀ sid, (s.call sid).uses = false
  | _ => True

/-- m_threads is as it was built, or the pool is stopped and no call is still to come to it. -/
def Intact (s : State cls Sid Kid n) : Prop :=
  s.size = n ∧ (∀ i, s.alive i = true) ∨ s.m_stop = true ∧ ∀ sid, (s.call sid).uses = false

structure Sound (s : State cls Sid Kid n) : Prop where
  intact : Intact s
  stopped : ∀ k, s.shutdown k ≠ .idle → s.shutdown k ≠ .exchange → s.m_stop = true
  cleared : ∀ k thread, s.shutdown k = .destroy (thread + 1) → ∀ sid, (s.call sid).uses = false
  answers : ∀ sid, (s.call sid).failed = false

theorem after_failed (access : Option cls.Access) (idx : Fin n) :
    (Call.after access idx : Call cls n).failed = false := by
  cases access <;> rfl

section Calls
variable [DecidableEq Sid]

theorem Sound.call {s t : State cls Sid Kid n} (h : Sound s) {sid : Sid} {p : Call cls n}
    (call : t.call = Function.update s.call sid p) (same : t.size = s.size ∧ t.alive = s.alive ∧
      t.m_stop = s.m_stop ∧ t.shutdown = s.shutdown)
    (answers : p.failed = false) (uses : p.uses = true → (s.call sid).uses = true ∨
      s.m_stop = false) : Sound t := by
  obtain ⟨size, alive, stop, shutdown⟩ := same
  have quiet : s.m_stop = true → (∀ sid, (s.call sid).uses = false) → ∀ j, (t.call j).uses = false := by
    intro on unused j
    rw [call, Function.update_apply]
    split
    · by_contra used
      rcases uses (Bool.not_eq_false _ ▸ used) with old | off
      · cases (unused sid).symm.trans old
      · cases on.symm.trans off
    · exact unused j
  refine ⟨?_, fun k => ?_, fun k thread at_pc => ?_, fun j => ?_⟩
  · rw [Intact, size, alive, stop]
    exact h.intact.imp_right fun ⟨on, unused⟩ => ⟨on, quiet on unused⟩
  · rw [shutdown, stop]
    exact h.stopped k
  · rw [shutdown] at at_pc
    exact quiet (h.stopped k (by simp [at_pc]) (by simp [at_pc])) (h.cleared k thread at_pc)
  · rw [call, Function.update_apply]
    split
    · exact answers
    · exact h.answers j

end Calls

section Stops
variable [DecidableEq Kid]

theorem Sound.stop {s t : State cls Sid Kid n} (h : Sound s) {k : Kid} {p : Shutdown}
    (shutdown : t.shutdown = Function.update s.shutdown k p) (call : t.call = s.call)
    (on : t.m_stop = true)
    (clearing : ∀ thread, p = .destroy (thread + 1) → ∀ sid, (s.call sid).uses = false)
    (intact : t.size = s.size ∧ t.alive = s.alive ∨ ∀ sid, (s.call sid).uses = false) : Sound t := by
  refine ⟨?_, fun _ _ _ => on, fun j thread at_pc => ?_, fun sid => ?_⟩
  · rw [Intact, call]
    rcases intact with ⟨size, alive⟩ | unused
    · rw [size, alive]
      exact h.intact.imp_right fun ⟨_, unused⟩ => ⟨on, unused⟩
    · exact .inr ⟨on, unused⟩
  · rw [call]
    rw [shutdown, Function.update_apply] at at_pc
    split at at_pc
    · exact clearing thread at_pc
    · exact h.cleared j thread at_pc
  · rw [call]
    exact h.answers sid

end Stops

variable [DecidableEq Sid] [DecidableEq Kid] [NeZero n]

theorem step_sound {cfg : Config} {s t : State cfg.cls Sid Kid n} {a : Act Sid Kid n} (h : Sound s)
    (unused : ClearsUnused s a) (taken : step cfg s a = some t) : Sound t := by
  cases step_cases taken with
  | execute | stopped => exact h.call rfl ⟨rfl, rfl, rfl, rfl⟩ rfl nofun
  | accepted at_pc running => exact h.call rfl ⟨rfl, rfl, rfl, rfl⟩ rfl fun _ => .inr running
  | @divide sid at_pc none =>
    rcases h.intact with ⟨size, _⟩ | ⟨_, idle⟩
    · exact absurd (size.symm.trans none) (NeZero.ne n)
    · have unused := idle sid
      rw [at_pc] at unused
      cases unused
  | index at_pc => exact h.call rfl ⟨rfl, rfl, rfl, rfl⟩ rfl fun _ => .inl (by rw [at_pc]; rfl)
  | run at_pc =>
    exact h.call rfl ⟨rfl, rfl, rfl, rfl⟩ (after_failed ..) fun _ => .inl (by rw [at_pc]; rfl)
  | @dangle _ sid idx _ at_pc gone =>
    rcases h.intact with ⟨_, alive⟩ | ⟨_, idle⟩
    · cases gone.symm.trans (alive idx)
    · have unused := idle sid
      rw [at_pc] at unused
      cases unused
  | fail => exact h
  | worker => exact ⟨h.intact, h.stopped, h.cleared, h.answers⟩
  | @shutdown k at_pc =>
    refine ⟨h.intact, fun j busy going => ?_, fun j thread clearing => ?_, h.answers⟩
    · simp only [State.setShutdown, Function.update_apply] at busy going
      split at busy
      · rw [if_pos ‹_›] at going
        exact absurd rfl going
      · rw [if_neg ‹_›] at going
        exact h.stopped j busy going
    · simp only [State.setShutdown, Function.update_apply] at clearing
      split at clearing
      · cases clearing
      · exact h.cleared j thread clearing
  | refused _ stop => exact h.stop rfl rfl stop nofun (.inl ⟨rfl, rfl⟩)
  | exchange => exact h.stop rfl rfl rfl nofun (.inl ⟨rfl, rfl⟩)
  | @request k _ at_pc | @requested k _ at_pc | @join k _ at_pc | @joined k _ at_pc =>
    have on := h.stopped k (by simp [at_pc]) (by simp [at_pc])
    exact h.stop rfl rfl on nofun (.inl ⟨rfl, rfl⟩)
  | @destroy k thread at_pc =>
    have on := h.stopped k (by simp [at_pc]) (by simp [at_pc])
    have idle : ∀ sid, (s.call sid).uses = false := by
      cases thread with
      | zero => exact unused at_pc
      | succ thread => exact h.cleared k thread at_pc
    exact h.stop rfl rfl on (fun _ _ => idle) (.inr idle)
  | @cleared k thread at_pc outside =>
    have on := h.stopped k (by simp [at_pc]) (by simp [at_pc])
    have idle : ∀ sid, (s.call sid).uses = false := by
      cases thread with
      | zero => exact absurd (Nat.le_zero.mp outside) (NeZero.ne n)
      | succ thread => exact h.cleared k thread at_pc
    exact h.stop rfl rfl on nofun (.inr idle)

theorem under_sound {cfg : Config} {s : State cfg.cls Sid Kid n}
    (reached : ReachedUnder (system cfg Sid Kid n) ClearsUnused s) : Sound s := by
  refine ReachedUnder.invariant (I := Sound) ?_ (fun _ _ _ h unused taken =>
    step_sound h unused taken) reached
  rintro _ rfl
  exact ⟨.inl ⟨rfl, fun _ => rfl⟩, fun _ busy => absurd rfl busy, nofun, fun _ => rfl⟩

omit [NeZero n] in
theorem update_gone {alive : Fin n → Bool} {thread : Nat} (inside : thread < n)
    (gone : ∀ i : Fin n, i < thread → alive i = false) (i : Fin n) (earlier : i < thread + 1) :
    Function.update alive ⟨thread, inside⟩ false i = false := by
  rw [Function.update_apply]
  split
  · rfl
  · rename_i other
    exact gone i (Nat.lt_of_le_of_ne (Nat.le_of_lt_succ earlier) fun eq => other (Fin.ext eq))

theorem clear_finishes (cfg : Config) {s : State cfg.cls Sid Kid n} {k : Kid} {thread : Nat}
    (at_pc : s.shutdown k = .destroy thread) (inside : thread ≤ n)
    (gone : ∀ i : Fin n, i < thread → s.alive i = false) :
    ∃ as u, replay (system cfg Sid Kid n) s as = some u ∧ u.size = 0 ∧ (∀ i, u.alive i = false) ∧
      u.call = s.call := by
  induction left : n - thread generalizing s thread with
  | zero =>
    have outside : n ≤ thread := Nat.le_of_sub_eq_zero left
    have taken : step cfg s (.stop k) = some ({ s with size := 0 }.setShutdown k .returned) := by
      simp only [step, at_pc, stopStep, dif_neg (Nat.not_lt.mpr outside)]
    refine ⟨[.stop k], { s with size := 0 }.setShutdown k .returned, replay_cons taken [], rfl,
      fun i => gone i (Nat.lt_of_lt_of_le i.2 outside), rfl⟩
  | succ m ih =>
    have before : thread < n := by omega
    have taken : step cfg s (.stop k) =
        some ({ s with alive := Function.update s.alive ⟨thread, before⟩ false }.setShutdown k
          (.destroy (thread + 1))) := by
      simp only [step, at_pc, stopStep, dif_pos before]
    obtain ⟨as, u, run, rest⟩ :=
      ih (s := { s with alive := Function.update s.alive ⟨thread, before⟩ false }.setShutdown k
        (.destroy (thread + 1))) (Function.update_self ..) before (update_gone before gone) (by omega)
    exact ⟨.stop k :: as, u, (replay_cons taken as).trans run, rest⟩

theorem use_fails (cfg : Config) {s : State cfg.cls Sid Kid n} {sid : Sid}
    (used : (s.call sid).uses = true) (size : s.size = 0) (gone : ∀ i, s.alive i = false) :
    ∃ u, step cfg s (.call sid) = some u ∧ (u.call sid).failed = true := by
  cases hc : s.call sid with
  | index =>
    have taken : step cfg s (.call sid) =
        some ({ s with m_next_thread_idx := s.m_next_thread_idx + 1 }.setCall sid .divisionByZero) := by
      simp only [step, hc, callStep, size, if_true]
    exact ⟨_, taken, by simp [State.setCall, Call.failed]⟩
  | run idx access =>
    have taken : step cfg s (.call sid) = some (s.setCall sid .dangling) := by
      simp only [step, hc, callStep, gone, Bool.false_eq_true, if_false]
    exact ⟨_, taken, by simp [State.setCall, Call.failed]⟩
  | _ => rw [hc] at used; cases used

theorem clear_fails {cfg : Config} {s t : State cfg.cls Sid Kid n} {a : Act Sid Kid n}
    (used : ¬ ClearsUnused s a) (taken : step cfg s a = some t) :
    ∃ as u sid, replay (system cfg Sid Kid n) t as = some u ∧ (u.call sid).failed = true := by
  cases a with
  | stop k =>
    simp only [ClearsUnused, Classical.not_imp, not_forall, Bool.not_eq_false] at used
    obtain ⟨at_pc, sid, uses⟩ := used
    have first : 0 < n := Nat.pos_of_ne_zero (NeZero.ne n)
    simp only [step, at_pc, stopStep, dif_pos first] at taken
    have begun : t.shutdown k = .destroy 1 ∧ t.alive = Function.update s.alive ⟨0, first⟩ false ∧
        t.call = s.call := by
      cases taken
      exact ⟨Function.update_self .., rfl, rfl⟩
    obtain ⟨clearing, alive, same⟩ := begun
    obtain ⟨as, u, run, size, gone, call⟩ := clear_finishes cfg clearing first
      (alive ▸ update_gone first fun _ before => absurd before (Nat.not_lt_zero _))
    obtain ⟨v, last, failed⟩ := use_fails cfg (by rw [call, same]; exact uses) size gone
    refine ⟨as ++ [.call sid], v, sid, ?_, failed⟩
    exact (replay_append as _ run).trans (replay_cons last [])
  | _ => exact absurd trivial used

/-- Every call of derived_execute divides by the number of threads that exist, and comes to one of
them, in the runs whose clear() is not overtaken; and one that is overtaken can end in a division
by zero, or in a thread that has been destroyed. -/
theorem round_robin_in_range (Sid Kid : Type) [DecidableEq Sid] [DecidableEq Kid] (n : Nat)
    [NeZero n] :
    (∀ cfg : Sandbox.Config,
      (∀ s, ReachedUnder (Sandbox.system cfg Sid Kid n) Sandbox.ClearsUnused s →
        Sandbox.InRange s ∧ ∀ sid, s.call sid ≠ .divisionByZero) ∧
      ∀ s t a, Reached (Sandbox.system cfg Sid Kid n) s → ¬ Sandbox.ClearsUnused s a →
        Sandbox.step cfg s a = some t →
        ∃ as u sid, replay (Sandbox.system cfg Sid Kid n) t as = some u ∧
          u.call sid = .divisionByZero) ∧
    ∀ cfg : Config,
      (∀ s, ReachedUnder (system cfg Sid Kid n) ClearsUnused s →
        ∀ sid, (s.call sid).failed = false ∧ (s.call sid = .index → s.size ≠ 0 ∧
          s.alive (Fin.ofNat n (s.m_next_thread_idx % s.size)) = true)) ∧
      ∀ s t a, Reached (system cfg Sid Kid n) s → ¬ ClearsUnused s a → step cfg s a = some t →
        ∃ as u sid, replay (system cfg Sid Kid n) t as = some u ∧ (u.call sid).failed = true := by
  refine ⟨fun cfg => ⟨fun s reached => ?_, fun s t a _ used taken => Sandbox.clear_divides used taken⟩,
    fun cfg => ⟨fun s reached sid => ?_, fun s t a _ used taken => clear_fails used taken⟩⟩
  · have sound := (Sandbox.under_sound reached).2
    refine ⟨Sandbox.in_range_of_sound sound, fun sid divided => ?_⟩
    have this := sound sid
    rw [divided] at this
    exact this
  · have sound := under_sound reached
    refine ⟨sound.answers sid, fun at_pc => ?_⟩
    rcases sound.intact with ⟨size, alive⟩ | ⟨_, idle⟩
    · exact ⟨by rw [size]; exact NeZero.ne n, alive _⟩
    · have unused := idle sid
      rw [at_pc] at unused
      cases unused

instance [Fintype Sid] (s : State cls Sid Kid n) : (a : Act Sid Kid n) → Decidable (ClearsUnused s a)
  | .stop k => inferInstanceAs
      (Decidable (s.shutdown k = .destroy 0 → ∀ sid, (s.call sid).uses = false))
  | .execute _ | .call _ | .fail _ | .worker _ | .shutdown _ => isTrue trivial

def shutdownRun : List (Act Unit Unit 1) :=
  [.shutdown (), .stop (), .stop (), .stop (), .worker (Fin.last 0), .stop (), .stop (), .stop (),
    .stop ()]

def submitted : List (Act Unit Unit 1) :=
  [.execute (), .call (), .call (), .call (), .call (), .call (), .call ()]

theorem round_robin_in_range_closed :
    ∃ s : State pot_thread Unit Unit 1,
      replay (system (thread_pool_executor_lq "pool") Unit Unit 1) (initial pot_thread Unit Unit 1)
        (submitted ++ shutdownRun) = some s ∧ s.shutdown () = .returned ∧
        (s.call ()).failed = false := by
  let s := (replay (system (thread_pool_executor_lq "pool") Unit Unit 1)
    (initial pot_thread Unit Unit 1) (submitted ++ shutdownRun)).get rfl
  have reached : ReachedUnder (system (thread_pool_executor_lq "pool") Unit Unit 1) ClearsUnused s :=
    (ReachedUnder.start rfl).replay (submitted ++ shutdownRun) (by decide) (Option.some_get _).symm
  exact ⟨s, (Option.some_get _).symm, rfl,
    (((round_robin_in_range Unit Unit 1).2 (thread_pool_executor_lq "pool")).1 s reached ()).1⟩

/-- shutdown() runs between the look at m_stop and the division. -/
def overtaken : List (Act Unit Unit 1) := [.execute (), .call ()] ++ shutdownRun ++ [.call ()]

theorem clear_overtakes :
    ¬ ∀ s : State pot_thread Unit Unit 1,
      Reached (system (thread_pool_executor_lq "pool") Unit Unit 1) s →
      ∀ sid, (s.call sid).failed = false := by
  intro always
  have reached : Reached (system (thread_pool_executor_lq "pool") Unit Unit 1)
      ((replay (system (thread_pool_executor_lq "pool") Unit Unit 1) (initial pot_thread Unit Unit 1)
        overtaken).get rfl) := Reached.replay (.start rfl) overtaken (Option.some_get _).symm
  cases always _ reached ()

end Pot.ExecutorsLocal
