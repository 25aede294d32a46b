import Mathlib.Data.Int.Range
import Mathlib.Data.List.Nodup
import Mathlib.Data.List.Range
import Mathlib.Tactic.Ring

/-! Integer ranges cut into pieces of one length, the last of which may be shorter. -/
namespace Chunks

def piece (start size stop : Int) (k : Nat) : List Int :=
  Int.range (start + k * size) (min (start + k * size + size) stop)

theorem range_empty {a b : Int} (none : b ≤ a) : Int.range a b = [] := by
  rw [Int.range, Int.toNat_of_nonpos (by omega)]
  rfl

theorem range_append {a b c : Int} (first : a ≤ b) (second : b ≤ c) :
    Int.range a b ++ Int.range b c = Int.range a c := by
  obtain ⟨m, rfl⟩ := Int.le.dest first
  obtain ⟨n, rfl⟩ := Int.le.dest second
  have left : (a + m - a).toNat = m := by omega
  have right : (a + m + n - (a + m)).toNat = n := by omega
  have all : (a + m + n - a).toNat = m + n := by omega
  simp only [Int.range, left, right, all, List.range_add, List.map_append, List.map_map]
  congr 1
  refine List.map_congr_left fun r _ => ?_
  simp only [Function.comp, Int.natCast_add]
  omega

theorem range_succ {a b : Int} (forward : a ≤ b) : Int.range a (b + 1) = Int.range a b ++ [b] := by
  rw [← range_append forward (Int.le_add_one (le_refl b))]
  have one : (b + 1 - b).toNat = 1 := by omega
  rw [Int.range, Int.range, one]
  simp

theorem range_nodup (a b : Int) : (Int.range a b).Nodup :=
  List.Nodup.map (fun _ _ same => by simpa using same) List.nodup_range

theorem count_range (a b i : Int) :
    (Int.range a b).count i = if a ≤ i ∧ i < b then 1 else 0 := by
  split
  · exact List.count_eq_one_of_mem (range_nodup a b) (Int.mem_range_iff.mpr ‹_›)
  · exact List.count_eq_zero.mpr fun member => ‹¬ _› (Int.mem_range_iff.mp member)

/-- The pieces in their order are the range, as far as they go. -/
theorem pieces_flatten {start size stop : Int} (positive : 0 < size) (ordered : start ≤ stop)
    (n : Nat) :
    (List.range n).flatMap (piece start size stop) =
      Int.range start (min (start + n * size) stop) := by
  induction n with
  | zero => simp [range_empty, ordered]
  | succ n ih =>
    have next : start + ((n + 1 : Nat) : Int) * size = start + n * size + size := by
      push_cast
      ring
    rw [List.range_succ, List.flatMap_append, List.flatMap_singleton, ih, next, piece]
    have forward : start ≤ start + n * size := by
      have := Int.mul_nonneg (Int.natCast_nonneg n) (Int.le_of_lt positive)
      omega
    rcases Int.le_total (start + n * size) stop with inside | outside
    · rw [min_eq_left inside]
      exact range_append forward (le_min (by omega) inside)
    · rw [min_eq_right outside, min_eq_right (by omega), range_empty outside, List.append_nil]

theorem rounded_up {length size : Int} (some : 0 < length) (positive : 0 < size) :
    0 < (length + size - 1).tdiv size ∧ length ≤ (length + size - 1).tdiv size * size ∧
      ((length + size - 1).tdiv size - 1) * size < length := by
  rw [Int.tdiv_eq_ediv_of_nonneg (by omega)]
  have split := Int.mul_ediv_add_emod (length + size - 1) size
  have low := Int.emod_nonneg (length + size - 1) (Int.ne_of_gt positive)
  have high := Int.emod_lt_of_pos (length + size - 1) positive
  rw [Int.mul_comm] at split
  have before : ((length + size - 1) / size - 1) * size =
      (length + size - 1) / size * size - size := by
    ring
  have one : 1 ≤ (length + size - 1) / size := (Int.le_ediv_iff_mul_le positive).mpr (by omega)
  exact ⟨by omega, by omega, by omega⟩

end Chunks
