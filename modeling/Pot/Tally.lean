import Mathlib.Algebra.BigOperators.Group.Finset.Piecewise
import Mathlib.Algebra.Order.BigOperators.Group.Finset

/-! Sums and counts over a finite family of parties, and how they change when one party moves. -/
namespace Tally

variable {ι α : Type*} [Fintype ι]

def total (w : α → Nat) (f : ι → α) : Nat := ∑ i, w (f i)

def count (p : α → Bool) (f : ι → α) : Nat := (Finset.univ.filter (fun i => p (f i) = true)).card

def weight (p : α → Bool) (a : α) : Nat := (p a).toNat

theorem count_total (p : α → Bool) (f : ι → α) : count p f = total (weight p) f := by
  rw [count, Finset.card_filter]
  refine Finset.sum_congr rfl fun i _ => ?_
  cases hp : p (f i) <;> simp [weight, hp]

theorem total_congr {w : α → Nat} {f g : ι → α} (same : ∀ i, w (f i) = w (g i)) :
    total w f = total w g :=
  Finset.sum_congr rfl fun i _ => same i

theorem total_eq_zero {w : α → Nat} {f : ι → α} : total w f = 0 ↔ ∀ i, w (f i) = 0 := by
  simp [total, Finset.sum_eq_zero_iff]

theorem le_total (w : α → Nat) (f : ι → α) (i : ι) : w (f i) ≤ total w f :=
  Finset.single_le_sum (f := fun i => w (f i)) (fun _ _ => Nat.zero_le _) (Finset.mem_univ i)

theorem count_eq_zero {p : α → Bool} {f : ι → α} : count p f = 0 ↔ ∀ i, p (f i) = false := by
  simp [count, Finset.filter_eq_empty_iff]

theorem count_pos {p : α → Bool} {f : ι → α} : 0 < count p f ↔ ∃ i, p (f i) = true := by
  simp [count, Finset.card_pos, Finset.filter_nonempty_iff]

theorem count_le_one {p : α → Bool} {f : ι → α} :
    count p f ≤ 1 ↔ ∀ i j, p (f i) = true → p (f j) = true → i = j := by
  simp only [count, Finset.card_le_one, Finset.mem_filter, Finset.mem_univ, true_and]
  exact ⟨fun h i j hi hj => h i hi j hj, fun h i hi j hj => h i j hi hj⟩

theorem count_push [BEq α] [LawfulBEq α] (l : List α) (x y : α) [Decidable (x = y)] :
    (l ++ [x]).count y = l.count y + if x = y then 1 else 0 := by
  rw [List.count_append, List.count_singleton]
  simp only [beq_iff_eq]

variable [DecidableEq ι]

theorem total_update (w : α → Nat) (f : ι → α) (i : ι) (a : α) :
    total w (Function.update f i a) + w (f i) = total w f + w a := by
  have split : ∀ g : ι → α, total w g = w (g i) + ∑ j ∈ Finset.univ.erase i, w (g j) := fun g =>
    (Finset.add_sum_erase Finset.univ (fun j => w (g j)) (Finset.mem_univ i)).symm
  have rest : ∑ j ∈ Finset.univ.erase i, w (Function.update f i a j) =
      ∑ j ∈ Finset.univ.erase i, w (f j) := by
    refine Finset.sum_congr rfl fun j hj => ?_
    rw [Function.update_of_ne (Finset.ne_of_mem_erase hj)]
  rw [split (Function.update f i a), split f, Function.update_self, rest]
  omega

theorem count_update (p : α → Bool) (f : ι → α) (i : ι) (a : α) :
    count p (Function.update f i a) + weight p (f i) = count p f + weight p a := by
  rw [count_total, count_total]
  exact total_update (weight p) f i a

end Tally
