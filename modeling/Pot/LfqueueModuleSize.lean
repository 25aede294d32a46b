import Pot.LfqueueModuleCalls
import Pot.LfqueueModuleInvariant

/-! size() and available_space() load epos first and dpos after it. What is popped between the two
loads may have been pushed between them as well; the difference then comes out below zero, as a
size_t near 2 ^ 64. -/
namespace Pot.LfqueueModule
open Transition

variable {Tid T : Type} {size : Nat} [DecidableEq Tid]

/-- A call of thread `i` that counts: it loads epos in `s`, the others go on until it loads dpos in
`u`, and it returns `result`. -/
structure Counts (size : Nat) (s : State Tid T) (i : Tid) (during : List (Tid × Act T))
    (u : State Tid T) (result : Nat) : Prop where
  load : s.pc i = .sizeEpos ∨ s.pc i = .spaceEpos
  run : replay (system Tid T size) s ((i, .go false) :: during) = some u
  others : ∀ a ∈ during, a.1 ≠ i
  returns : ∃ t, step size u (i, .go false) = some t ∧ t.pc i = .returned (.count result)

/-- How many more positions are popped between the two loads than were queued at the first one. -/
def State.ahead (s u : State Tid T) : Nat := (u.dpos - s.dpos) - (s.epos - s.dpos)

/-- None more, or so many that 2 ^ 64 makes up for them. -/
def Covered (size : Nat) (s u : State Tid T) : Prop :=
  s.ahead u % 2 ^ 64 = 0 ∨ 2 ^ 64 ≤ s.ahead u % 2 ^ 64 + size

theorem step_other {s t : State Tid T} {a : Tid × Act T} (taken : step size s a = some t) {i : Tid}
    (other : a.1 ≠ i) : t.pc i = s.pc i ∧ s.dpos ≤ t.dpos := by
  obtain ⟨p, moved, counters⟩ := step_cases taken
  refine ⟨?_, ?_⟩
  · rw [moved]
    exact Function.update_of_ne other.symm ..
  · rcases counters with ⟨-, same⟩ | ⟨-, same⟩ | ⟨-, next⟩
    · exact Nat.le_of_eq same.symm
    · exact Nat.le_of_eq same.symm
    · exact next ▸ Nat.le_succ _

/-- size_t of the difference of the counters. -/
theorem toNat_difference (enq deq : Nat) :
    (BitVec.ofNat 64 enq - BitVec.ofNat 64 deq).toNat =
      if deq ≤ enq then (enq - deq) % 2 ^ 64 else (2 ^ 64 - (deq - enq) % 2 ^ 64) % 2 ^ 64 := by
  rw [BitVec.toNat_sub, BitVec.toNat_ofNat, BitVec.toNat_ofNat]
  split <;> omega

/-- While the others go on, the caller stands before its second load. -/
theorem waiting {s u : State Tid T} {i : Tid} {p : Pc T} (during : List (Tid × Act T))
    (others : ∀ a ∈ during, a.1 ≠ i)
    (run : replay (system Tid T size) (s.goto i p) during = some u) :
    u.pc i = p ∧ s.dpos ≤ u.dpos := by
  have preserves : ∀ x a y, x.pc i = p ∧ s.dpos ≤ x.dpos → a.1 ≠ i →
      (system Tid T size).step x a = some y → y.pc i = p ∧ s.dpos ≤ y.dpos := by
    intro x a y h other taken
    obtain ⟨same, grows⟩ := step_other taken other
    exact ⟨same.trans h.1, Nat.le_trans h.2 grows⟩
  exact replay_among preserves ⟨goto_self .., Nat.le_refl _⟩ during others run

theorem Counts.result_eq {s u : State Tid T} {i : Tid} {during : List (Tid × Act T)} {result : Nat}
    (call : Counts size s i during u result) : s.dpos ≤ u.dpos ∧
      (result = (BitVec.ofNat 64 s.epos - BitVec.ofNat 64 u.dpos).toNat ∨
        result = (BitVec.ofNat 64 size -
          (BitVec.ofNat 64 s.epos - BitVec.ofNat 64 u.dpos)).toNat) := by
  obtain ⟨load, run, others, t, returns, answer⟩ := call
  rcases load with at_size | at_space
  · have loaded : (system Tid T size).step s (i, .go false) = some (s.goto i (.sizeDpos s.epos)) := by
      simp only [system, step, at_size, access]
    rw [replay_cons loaded] at run
    obtain ⟨at_load, grows⟩ := waiting during others run
    simp only [step, at_load, access, Option.some.injEq] at returns
    rw [← returns, goto_self] at answer
    cases answer
    exact ⟨grows, .inl rfl⟩
  · have loaded : (system Tid T size).step s (i, .go false) =
        some (s.goto i (.spaceDpos s.epos)) := by
      simp only [system, step, at_space, access]
    rw [replay_cons loaded] at run
    obtain ⟨at_load, grows⟩ := waiting during others run
    simp only [step, at_load, access, Option.some.injEq] at returns
    rw [← returns, goto_self] at answer
    cases answer
    exact ⟨grows, .inr rfl⟩

/-- The result of size() and of available_space() is at most capacity() if and only if the pops
between the two loads are covered by what was queued at the first one. -/
theorem count_le_iff {s u : State Tid T} (reached : Reached (system Tid T size) s) {i : Tid}
    {during : List (Tid × Act T)} {result : Nat} (call : Counts size s i during u result) :
    result ≤ size ↔ Covered size s u := by
  obtain ⟨accepted, h⟩ := reached_inv reached
  have large := accepted.large
  have order := h.order
  have ring := h.ring
  obtain ⟨grows, counted⟩ := call.result_eq
  have ahead : s.ahead u = u.dpos - s.epos := by
    unfold State.ahead
    omega
  have difference := toNat_difference s.epos u.dpos
  unfold Covered
  rw [ahead]
  rcases counted with rfl | rfl
  · rw [difference]
    split <;> omega
  · rw [BitVec.toNat_sub, BitVec.toNat_ofNat, difference]
    split <;> omega

/-- A queue of two cells, empty; thread true is about to load epos for size(). -/
def sizing : State Bool Nat :=
  (replay (system Bool Nat 2) initial [(true, .call .size)]).get rfl

def pushing : List (Bool × Act Nat) :=
  (false, .call (.push_back 7)) :: List.replicate 5 (false, .go false)

def popping : List (Bool × Act Nat) := (false, .call .pop) :: List.replicate 5 (false, .go false)

def pushedBetween : State Bool Nat :=
  (replay (system Bool Nat 2) sizing ((true, .go false) :: pushing)).get rfl

def poppedBetween : State Bool Nat :=
  (replay (system Bool Nat 2) sizing ((true, .go false) :: (pushing ++ popping))).get rfl

/-- The push between the loads is not seen. -/
theorem count_le_iff_pushed : Covered 2 sizing pushedBetween := by
  have reached : Reached (system Bool Nat 2) sizing :=
    (Reached.start rfl).replay _ (Option.some_get _).symm
  have call : Counts 2 sizing true pushing pushedBetween 0 :=
    ⟨.inl rfl, (Option.some_get _).symm, by decide, _, rfl, rfl⟩
  exact (count_le_iff reached call).mp (by decide)

/-- The push and the pop of 7 between the two loads make the size 0 - 1. -/
theorem size_exceeds_capacity :
    ¬ ∀ size (s u : State Bool Nat) i during result, Reached (system Bool Nat size) s →
      Counts size s i during u result → result ≤ size := by
  intro bounded
  have reached : Reached (system Bool Nat 2) sizing :=
    (Reached.start rfl).replay _ (Option.some_get _).symm
  have call : Counts 2 sizing true (pushing ++ popping) poppedBetween (2 ^ 64 - 1) :=
    ⟨.inl rfl, (Option.some_get _).symm, by decide, _, rfl, rfl⟩
  exact absurd (bounded _ _ _ _ _ _ reached call) (by decide)

end Pot.LfqueueModule
