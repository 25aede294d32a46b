import Mathlib.Data.BitVec
import Mathlib.Data.Nat.ModEq

/-! Counters modulo a power of two: a counter is known by its residue, the difference of two that
are not far apart by its signed residue, and a mask of low bits by the remainder. -/
namespace Residues

variable {w : Nat}

theorem ofNat_add (a b : Nat) : BitVec.ofNat w a + BitVec.ofNat w b = BitVec.ofNat w (a + b) :=
  (BitVec.ofNat_add a b).symm

/-- The signed difference of two residues is the difference when it fits. -/
theorem toInt_sub {a b : Nat} (above : (a : Int) - b < 2 ^ (w - 1)) (below : (b : Int) - a ≤ 2 ^ (w - 1))
    (positive : 0 < w) : (BitVec.ofNat w a - BitVec.ofNat w b).toInt = (a : Int) - b := by
  have half : (2 : Int) ^ w = 2 * 2 ^ (w - 1) := by
    obtain ⟨k, rfl⟩ := Nat.exists_eq_add_of_lt positive
    simp [pow_succ, Int.mul_comm]
  rw [BitVec.toInt_sub, BitVec.toInt_ofNat', BitVec.toInt_ofNat', ← Int.sub_bmod]
  refine Int.bmod_eq_of_le_mul_two ?_ ?_
  · push_cast
    omega
  · push_cast
    omega

theorem toNat_and_mask {k : Nat} (within : k ≤ w) (a : Nat) :
    (BitVec.ofNat w a &&& BitVec.ofNat w (2 ^ k - 1)).toNat = a % 2 ^ k := by
  have small : 2 ^ k - 1 < 2 ^ w := by
    have := Nat.pow_le_pow_right (by decide : 0 < 2) within
    have := Nat.two_pow_pos k
    omega
  rw [BitVec.toNat_and, BitVec.toNat_ofNat, BitVec.toNat_ofNat, Nat.mod_eq_of_lt small,
    Nat.and_two_pow_sub_one_eq_mod, Nat.mod_mod_of_dvd _ (Nat.pow_dvd_pow 2 within)]

/-- Within one round of the ring no two counters share a slot. -/
theorem eq_of_mod_eq {a b n : Nat} (same : a % n = b % n) (after : a ≤ b) (near : b < a + n) :
    a = b := by
  have divides := (Nat.modEq_iff_dvd' after).mp same
  have := Nat.eq_zero_of_dvd_of_lt divides (by omega)
  omega

/-- A later counter at the same slot is a round later at least. -/
theorem next_round {a b n : Nat} (same : a % n = b % n) (after : a < b) : a + n ≤ b := by
  by_contra near
  have := eq_of_mod_eq same (Nat.le_of_lt after) (Nat.lt_of_not_le near)
  omega

theorem next_slot {a n : Nat} (two : 2 ≤ n) : (a + 1) % n ≠ a % n := by
  intro same
  have := next_round same.symm (Nat.lt_succ_self a)
  omega

/-- Each slot has one counter in every round. -/
theorem exists_in_round {n : Nat} (positive : 0 < n) (a d : Nat) :
    ∃ b, d ≤ b ∧ b < d + n ∧ b % n = a % n := by
  induction d with
  | zero => exact ⟨a % n, Nat.zero_le _, by simpa using Nat.mod_lt a positive, Nat.mod_mod ..⟩
  | succ d ih =>
    obtain ⟨b, from_d, before, same⟩ := ih
    rcases Nat.eq_or_lt_of_le from_d with rfl | after
    · exact ⟨d + n, by omega, by omega, (Nat.add_mod_right ..).trans same⟩
    · exact ⟨b, after, by omega, same⟩

end Residues
