import Pot.SandboxWakeups

/-! Round-robin submission. derived_execute looks at m_stop before it divides by m_threads.size(),
and m_threads.clear() at the end of shutdown can come between the two. -/
namespace Pot.Sandbox
open Transition

variable {Sid Kid : Type} {n : Nat}

/-- m_threads.clear() does not come while a call is between its look at m_stop and the division. -/
def ClearsUnused (s : State Sid Kid n) : Act Sid Kid n → Prop
  | .stop => ∀ thread, s.shutdown = .join thread → n ≤ thread →
      ∀ sid callable runs, s.call sid ≠ .index callable runs
  | _ => True

/-- The divisor is not zero and the context of the remainder exists. -/
def InRange (s : State Sid Kid n) : Prop :=
  ∀ sid callable runs, s.call sid = .index callable runs →
    s.size ≠ 0 ∧ s.m_next_thread_idx % s.size < n

/-- What derived_execute relies on where it stands. -/
def Call.sound (size : Nat) : Call n → Prop
  | .index _ _ => size = n
  | .divisionByZero => False
  | _ => True

theorem size_of_running {cfg : Config} {s : State Sid Kid n} (ok : ShutdownOk cfg s s.shutdown)
    (running : s.m_stop = false) : s.size = n := by
  cases hs : s.shutdown with
  | returned =>
    rw [hs] at ok
    cases running.symm.trans ok.1
  | notifyAll => rw [hs] at ok; exact ok.1
  | _ => rw [hs] at ok; exact ok.1

variable [NeZero n]

theorem in_range_of_sound {s : State Sid Kid n} (h : ∀ sid, (s.call sid).sound s.size) :
    InRange s := by
  intro sid callable runs at_pc
  have size : s.size = n := by
    have sound := h sid
    rw [at_pc] at sound
    exact sound
  rw [size]
  exact ⟨NeZero.ne n, Nat.mod_lt _ (Nat.pos_of_ne_zero (NeZero.ne n))⟩

variable [DecidableEq Sid] [DecidableEq Kid]

theorem step_sound {cfg : Config} {s t : State Sid Kid n} {a : Act Sid Kid n}
    (ok : ShutdownOk cfg s s.shutdown) (h : ∀ sid, (s.call sid).sound s.size)
    (unused : ClearsUnused s a) (taken : step cfg s a = some t) :
    ∀ sid, (t.call sid).sound t.size := by
  have called : ∀ {sid : Sid} {c : Call n}, c.sound s.size →
      ∀ other, (Function.update s.call sid c other).sound s.size := by
    intro sid c sound other
    rw [Function.update_apply]
    split
    · exact sound
    · exact h other
  cases step_cases taken with
  | submit | notifyOne => exact called trivial
  | call step =>
    cases step with
    | round _ running => exact called (size_of_running ok running)
    | divide at_pc none =>
      have sound := h ‹Sid›
      rw [at_pc] at sound
      exact absurd (none.symm.trans sound).symm (NeZero.ne n)
    | full => exact h
    | _ => exact called trivial
  | worker step =>
    cases step with
    | popOwn | steal => simp only [State.take]; split <;> exact h
    | _ => exact h
  | thief step => cases step <;> exact h
  | stop step =>
    cases step with
    | @clear k at_pc outside =>
      intro sid
      change (s.call sid).sound 0
      cases hc : s.call sid with
      | index callable runs => exact absurd hc (unused k at_pc outside sid callable runs)
      | divisionByZero => exact (show (Call.divisionByZero : Call n).sound s.size from hc ▸ h sid)
      | _ => trivial
    | _ => exact h
  | _ => exact h

theorem under_sound {cfg : Config} {s : State Sid Kid n}
    (reached : ReachedUnder (system cfg Sid Kid n) ClearsUnused s) :
    ShutdownOk cfg s s.shutdown ∧ ∀ sid, (s.call sid).sound s.size := by
  induction reached with
  | start eq => cases eq; exact ⟨⟨rfl, rfl, fun _ => rfl⟩, fun _ => trivial⟩
  | next _ unused taken ih =>
    exact ⟨step_shutdownOk ih.1 taken, step_sound ih.1 ih.2 unused taken⟩

theorem clear_divides {cfg : Config} {s t : State Sid Kid n} {a : Act Sid Kid n}
    (used : ¬ ClearsUnused s a) (taken : step cfg s a = some t) :
    ∃ as u sid, replay (system cfg Sid Kid n) t as = some u ∧ u.call sid = .divisionByZero := by
  cases a with
  | stop =>
    simp only [ClearsUnused, ne_eq, not_forall, not_not] at used
    obtain ⟨thread, at_pc, outside, sid, callable, runs, at_index⟩ := used
    simp only [step, at_pc, shutdownStep, dif_neg (Nat.not_lt.mpr outside)] at taken
    cases taken
    have divided : step cfg { s with size := 0, shutdown := .returned } (.call sid) =
        some ({ s with size := 0, shutdown := .returned,
                       m_next_thread_idx := s.m_next_thread_idx + 1 }.setCall sid .divisionByZero) := by
      simp only [step, at_index, callStep, if_true]
    exact ⟨[.call sid], _, sid, replay_cons divided [], Function.update_self ..⟩
  | _ => exact absurd trivial used

end Pot.Sandbox
