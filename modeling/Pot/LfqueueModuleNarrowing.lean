import Pot.LfqueueModuleInvariant

/-! The comparison of a sequence number with a position in 32 bits. It is exact as long as the two
lie between the same odd multiples of 2 ^ 31; a position that has long been overtaken may lie any
number of them behind. -/
namespace Pot.LfqueueModule
open Transition Residues

variable {Tid T : Type} {size : Nat}

/-- `static_cast<int>(v)` -/
def narrow (v : Nat) : Int := (BitVec.ofNat 32 v).toInt

/-- The subtraction does not overflow, and the sign is that of the true difference. -/
structure Exact (sequence position : Nat) : Prop where
  fits : -2 ^ 31 ≤ narrow sequence - narrow position ∧ narrow sequence - narrow position < 2 ^ 31
  negative : diff sequence position < 0 ↔ sequence < position
  zero : diff sequence position = 0 ↔ sequence = position

/-- How many odd multiples of 2 ^ 31 lie above `a` and not above `b`. -/
def crossed (a b : Nat) : Nat := (b + 2 ^ 31) / 2 ^ 32 - (a + 2 ^ 31) / 2 ^ 32

/-- Behind the position no odd multiple of 2 ^ 31 is crossed; ahead of it the distance is less than
2 ^ 31 after the turns that are. -/
def Near (sequence position : Nat) : Prop :=
  if sequence ≤ position then crossed sequence position = 0
  else 2 ^ 32 * crossed position sequence < sequence - position ∧
    sequence - position < 2 ^ 32 * crossed position sequence + 2 ^ 31

/-- The sequence number and the position that this step subtracts. -/
def compared (size : Nat) (s : State Tid T) : Tid × Act T → Option (Nat × Nat)
  | (i, .go _) => match s.pc i with
    | .pushLoadSeq _ pos => some (s.seqAt size pos, pos)
    | .popLoadSeq pos => some (s.seqAt size pos, pos + 1)
    | _ => none
  | _ => none

def ComparesExactly (size : Nat) (s : State Tid T) (a : Tid × Act T) : Prop :=
  ∀ c ∈ compared size s a, Exact c.1 c.2

def ComparesNear (size : Nat) (s : State Tid T) (a : Tid × Act T) : Prop :=
  ∀ c ∈ compared size s a, Near c.1 c.2

theorem narrow_eq (v : Nat) : narrow v = v - 2 ^ 32 * (((v + 2 ^ 31) / 2 ^ 32 : Nat) : Int) := by
  unfold narrow
  rw [BitVec.toInt_ofNat', Int.bmod_eq_emod]
  split <;> omega

theorem diff_eq {sequence position : Nat}
    (fits : -2 ^ 31 ≤ narrow sequence - narrow position ∧
      narrow sequence - narrow position < 2 ^ 31) :
    diff sequence position = narrow sequence - narrow position := by
  unfold diff
  rw [BitVec.toInt_sub]
  exact Int.bmod_eq_of_le_mul_two (by unfold narrow at fits; push_cast; omega)
    (by unfold narrow at fits; push_cast; omega)

theorem exact_iff {sequence position : Nat} (behind : position ≤ sequence + 2 ^ 30) :
    Exact sequence position ↔ Near sequence position := by
  have left := narrow_eq sequence
  have right := narrow_eq position
  unfold Near crossed
  constructor
  · rintro ⟨fits, negative, zero⟩
    rw [diff_eq fits] at negative zero
    split <;> omega
  · intro near
    have fits : -2 ^ 31 ≤ narrow sequence - narrow position ∧
        narrow sequence - narrow position < 2 ^ 31 := by
      split at near <;> omega
    refine ⟨fits, ?_, ?_⟩
    · rw [diff_eq fits]
      split at near <;> omega
    · rw [diff_eq fits]
      split at near <;> omega

section Reached

variable (accepted : Accepted size) {s : State Tid T} (h : Inv size s)
include accepted h

/-- What a cell says of an older position that maps to it. -/
theorem seq_of_round {q : Nat} (from_dpos : s.dpos ≤ q) (below : q < s.dpos + size) :
    q + 1 ≤ s.seqAt size q + size := by
  have small := accepted.small
  rcases h.cells q from_dpos below with ⟨_, _, _⟩ | free | ⟨_, _⟩ <;> omega

/-- However long ago the position was loaded, its cell is no more than one round behind. -/
theorem push_behind {pos : Nat} (loaded : pos ≤ s.epos) : pos ≤ s.seqAt size pos + size := by
  have ring := h.ring
  have positive : 0 < size := Nat.lt_of_lt_of_le (by decide) accepted.small
  obtain ⟨q, from_dpos, below, slots⟩ := exists_in_round positive pos s.dpos
  have same : s.seqAt size pos = s.seqAt size q := seqAt_congr s <| by
    rw [accepted.slot_mod, accepted.slot_mod, slots]
  have round := seq_of_round accepted h from_dpos below
  rcases Nat.lt_or_ge q pos with before | after
  · -- a full queue: the position is one round after dpos
    have next := next_round slots before
    have full : q = s.dpos ∧ pos = s.epos := by omega
    have newest := (seq_epos accepted h).2.1
    rw [full.2]
    exact newest
  · omega

theorem pop_behind {pos : Nat} (loaded : pos ≤ s.dpos) : pos + 1 ≤ s.seqAt size pos + size := by
  have positive : 0 < size := Nat.lt_of_lt_of_le (by decide) accepted.small
  obtain ⟨q, from_dpos, below, slots⟩ := exists_in_round positive pos s.dpos
  have same : s.seqAt size pos = s.seqAt size q := seqAt_congr s <| by
    rw [accepted.slot_mod, accepted.slot_mod, slots]
  have round := seq_of_round accepted h from_dpos below
  omega

theorem compared_behind [DecidableEq Tid] {a : Tid × Act T} {c : Nat × Nat}
    (step : compared size s a = some c) : c.2 ≤ c.1 + 2 ^ 30 := by
  have large := accepted.large
  obtain ⟨i, act⟩ := a
  cases act with
  | call => cases step
  | go spurious =>
    have ok := h.threads i
    simp only [compared] at step
    split at step
    · rename_i data pos at_load
      cases step
      rw [at_load] at ok
      have := push_behind accepted h ok
      omega
    · rename_i pos at_load
      cases step
      rw [at_load] at ok
      have := pop_behind accepted h ok
      omega
    · cases step

end Reached

variable [DecidableEq Tid]

/-- Every comparison of a run is exact if and only if each is of numbers that are near. -/
theorem narrow_exact_iff {s : State Tid T} (reached : Reached (system Tid T size) s)
    (as : List (Tid × Act T)) :
    ReplaysUnder (system Tid T size) (ComparesExactly size) s as ↔
      ReplaysUnder (system Tid T size) (ComparesNear size) s as := by
  induction as generalizing s with
  | nil => exact Iff.rfl
  | cons a as ih =>
    obtain ⟨accepted, h⟩ := reached_inv reached
    have here : ComparesExactly size s a ↔ ComparesNear size s a :=
      forall₂_congr fun c step => exact_iff (compared_behind accepted h step)
    cases taken : (system Tid T size).step s a with
    | none => simp only [ReplaysUnder, taken, and_false]
    | some t => rw [replaysUnder_cons taken, replaysUnder_cons taken, here, ih (reached.next taken)]

def alone (i : Tid) (c : Call T) : List (Tid × Act T) :=
  (i, .call c) :: List.replicate 5 (i, .go false)

/-- What a call of its own changes, seen by the next calls. -/
structure Left (size : Nat) (s t : State Tid T) (i : Tid) (epos dpos pos sequence : Nat) : Prop where
  resting : (t.pc i).resting = true
  epos : t.epos = epos
  dpos : t.dpos = dpos
  sequence : ∀ q, t.seqAt size q = if slot size q = slot size pos then sequence else s.seqAt size q

theorem diff_self (v : Nat) : diff v v = 0 := by
  unfold diff
  rw [BitVec.sub_self, BitVec.toInt_zero]

theorem push_alone {s : State Tid T} {i : Tid} (resting : (s.pc i).resting = true)
    (free : s.seqAt size s.epos = s.epos) (data : T) :
    ∃ t, replay (system Tid T size) s (alone i (.push_back data)) = some t ∧
      Left size s t i (s.epos + 1) s.dpos s.epos (s.epos + 1) := by
  have none_between : diff (s.buffer (slot size s.epos)).m_sequence s.epos = 0 := by
    rw [show (s.buffer (slot size s.epos)).m_sequence = s.epos from free, diff_self]
  refine ⟨({ s.setCell size s.epos ⟨s.epos + 1, some data⟩ with
    epos := s.epos + 1, pushed := s.pushed ++ [data] }).goto i (.returned (.pushed true)), ?_, ?_⟩
  · simp only [alone, List.replicate, replay, system, step, resting, Call.first, access, State.goto,
      State.setCell, none_between, Function.update_self, Function.update_idem, Option.bind_some,
      ↓reduceIte, and_true, lt_self_iff_false]
  · exact ⟨by rw [goto_self]; rfl, rfl, rfl, fun q => seqAt_setCell s s.epos q _⟩

theorem pop_alone {s : State Tid T} {i : Tid} (resting : (s.pc i).resting = true)
    (published : s.seqAt size s.dpos = s.dpos + 1) :
    ∃ t, replay (system Tid T size) s (alone i .pop) = some t ∧
      Left size s t i s.epos (s.dpos + 1) s.dpos (s.dpos + (size - 1) + 1) := by
  have none_between : diff (s.buffer (slot size s.dpos)).m_sequence (s.dpos + 1) = 0 := by
    rw [show (s.buffer (slot size s.dpos)).m_sequence = s.dpos + 1 from published, diff_self]
  refine ⟨({ s.setCell size s.dpos ⟨s.dpos + (size - 1) + 1, none⟩ with dpos := s.dpos + 1 }).goto i
    (.returned (.popped s.dpos (s.buffer (slot size s.dpos)).m_data)), ?_, ?_⟩
  · simp only [alone, List.replicate, replay, system, step, resting, Call.first, access, State.goto,
      State.setCell, none_between, Function.update_self, Function.update_idem, Option.bind_some,
      ↓reduceIte, and_true, lt_self_iff_false]
  · exact ⟨by rw [goto_self]; rfl, rfl, rfl, fun q => seqAt_setCell s s.dpos q _⟩

/-- A queue of two cells is empty after any number of pushes and pops in turn. -/
theorem emptied_reached (n : Nat) : ∃ s, Reached (system Unit Unit 2) s ∧
    (s.pc ()).resting = true ∧ s.epos = n ∧ s.dpos = n ∧ s.seqAt 2 n = n ∧
      s.seqAt 2 (n + 1) = n + 1 := by
  induction n with
  | zero => exact ⟨initial, .start rfl, rfl, rfl, rfl, rfl, rfl⟩
  | succ n ih =>
    obtain ⟨s, reached, resting, epos, dpos, free, next⟩ := ih
    subst epos
    obtain ⟨t, pushing, pushed⟩ := push_alone resting free ()
    have stored := pushed.sequence s.epos
    rw [if_pos rfl] at stored
    have published : t.seqAt 2 t.dpos = t.dpos + 1 := by
      rw [pushed.dpos, dpos]
      exact stored
    obtain ⟨u, popping, popped⟩ := pop_alone pushed.resting published
    have oldest : t.dpos = s.epos := pushed.dpos.trans dpos
    have others : slot 2 (s.epos + 1) ≠ slot 2 s.epos := by
      unfold slot
      rw [Nat.and_two_pow_sub_one_eq_mod _ 1, Nat.and_two_pow_sub_one_eq_mod _ 1]
      omega
    have again : slot 2 (s.epos + 1 + 1) = slot 2 s.epos := by
      unfold slot
      rw [Nat.and_two_pow_sub_one_eq_mod _ 1, Nat.and_two_pow_sub_one_eq_mod _ 1]
      omega
    refine ⟨u, (reached.replay _ pushing).replay _ popping, popped.resting, popped.epos.trans
      pushed.epos, popped.dpos.trans (congrArg (· + 1) oldest), ?_, ?_⟩
    · rw [popped.sequence, oldest, if_neg others, pushed.sequence, if_neg others, next]
    · rw [popped.sequence, oldest, if_pos again]

/-- The pop of an empty queue after 2 ^ 31 - 1 pushes and pops subtracts the least int from the
greatest. -/
theorem empty_pop_overflows :
    ¬ ∀ size s, Reached (system Unit Unit size) s → ∀ a, ComparesExactly size s a := by
  intro exact
  obtain ⟨s, reached, resting, -, dpos, free, -⟩ := emptied_reached (2 ^ 31 - 1)
  have called : (system Unit Unit 2).step s ((), .call .pop) = some (s.goto () .popLoadPos) := by
    simp only [system, step, resting, if_true]
    rfl
  have loaded : (system Unit Unit 2).step (s.goto () .popLoadPos) ((), .go false) =
      some ((s.goto () .popLoadPos).goto () (.popLoadSeq s.dpos)) := by
    simp only [system, step, goto_self]
    rfl
  have compares := exact 2 _ ((reached.next called).next loaded) ((), .go false)
    (2 ^ 31 - 1, 2 ^ 31) (by
      simp only [compared, goto_self]
      rw [dpos]
      exact congrArg some (Prod.ext free rfl))
  exact absurd compares.fits (by decide)

instance (sequence position : Nat) : Decidable (Near sequence position) :=
  inferInstanceAs (Decidable (ite ..))

instance (s : State Tid T) (a : Tid × Act T) : Decidable (ComparesNear size s a) :=
  inferInstanceAs (Decidable (∀ c ∈ compared size s a, _))

/-- A push and two pops of a new queue, the second of which finds nothing. -/
theorem narrow_exact_two :
    ReplaysUnder (system Unit Nat 2) (ComparesExactly 2) initial
      (alone () (.push_back 7) ++ alone () .pop ++
        [((), .call .pop), ((), .go false), ((), .go false)]) := by
  have reached : Reached (system Unit Nat 2) initial := .start rfl
  exact (narrow_exact_iff reached _).mpr (by decide)

end Pot.LfqueueModule
