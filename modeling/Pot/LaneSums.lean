import Mathlib.Algebra.BigOperators.Intervals

/-! A product of elements against the product of lanes that add theirs up. The elements stand in
blocks of lanes, each lane of a block as long as the others, with a remainder in each block. -/
namespace LaneSums

section Products
variable {R : Type*} [CommMonoid R]

theorem prod_range (f : Nat → R) (n : Nat) :
    ((List.range n).map f).prod = ∏ i ∈ Finset.range n, f i :=
  rfl

theorem foldl_mul {ι : Type*} (f : ι → R) (l : List ι) (a : R) :
    l.foldl (fun product i => product * f i) a = a * (l.map f).prod := by
  induction l generalizing a with
  | nil => exact (mul_one a).symm
  | cons i l ih => rw [List.foldl_cons, ih, List.map_cons, List.prod_cons, mul_assoc]

theorem prod_windows (f : Nat → R) (lanes vectors : Nat) :
    ∏ i ∈ Finset.range (vectors * lanes), f i =
      ∏ k ∈ Finset.range lanes, ((List.range vectors).map fun j => f (j * lanes + k)).prod := by
  simp only [prod_range]
  induction vectors with
  | zero => simp
  | succ q ih =>
    rw [Nat.succ_mul, Finset.prod_range_add, ih, ← Finset.prod_mul_distrib]
    exact Finset.prod_congr rfl fun k _ => (Finset.prod_range_succ ..).symm

theorem prod_ones (q : Nat) : (List.replicate q (1 : R)).prod = 1 := by
  rw [List.prod_replicate, one_pow]

end Products

theorem foldl_register {R ι κ : Type*} [AddMonoid R] (v : ι → κ → R) (l : List ι) (k : κ) :
    l.foldl (fun sum i => sum + v i) 0 k = (l.map fun i => v i k).sum := by
  have shifted : ∀ acc : κ → R,
      l.foldl (fun sum i => sum + v i) acc k = acc k + (l.map fun i => v i k).sum := by
    induction l with
    | nil => exact fun acc => (add_zero (acc k)).symm
    | cons i l ih =>
      intro acc
      rw [List.foldl_cons, ih, Pi.add_apply, List.map_cons, List.sum_cons, add_assoc]
  rw [shifted, Pi.zero_apply, zero_add]

section Sums
variable {R : Type*} [CommMonoid R] [AddCommMonoid R]

/-- A sum is the product but for a factor that depends on the number of summands only. -/
def Factors (R : Type*) [CommMonoid R] [AddCommMonoid R] : Prop :=
  ∀ x y : R, x + y = x * y * (1 + 1)

theorem sum_short {l : List R} (short : l.length ≤ 1) : l.sum = l.prod * (l.length • (1 : R)) := by
  match l with
  | [] => simp
  | [x] => rw [List.sum_singleton, List.prod_singleton, List.length_singleton, one_nsmul, mul_one]
  | _ :: _ :: _ => simp at short

theorem sum_factors (law : Factors R) (l : List R) : l.sum = l.prod * (l.length • (1 : R)) := by
  induction l with
  | nil => exact sum_short (Nat.zero_le 1)
  | cons x l ih =>
    have next : (l.length + 1) • (1 : R) = l.length • (1 : R) * (1 + 1) := by
      rw [succ_nsmul, law, mul_one]
    rw [List.sum_cons, ih, law, List.prod_cons, List.length_cons, next, mul_assoc, mul_assoc,
      mul_assoc]

/-- Two summands and zeros show the factor. -/
theorem factors_of_sums {n : Nat} (many : 2 ≤ n)
    (sums : ∀ l : List R, l.length = n → l.sum = l.prod * (n • (1 : R))) : Factors R := by
  have pair : ∀ x y : R, x + y = x * y * ((0 : R) ^ (n - 2) * n • (1 : R)) := fun x y => by
    have whole := sums (x :: y :: List.replicate (n - 2) 0)
      (by rw [List.length_cons, List.length_cons, List.length_replicate]; omega)
    rw [List.sum_cons, List.sum_cons, List.sum_replicate, nsmul_zero, add_zero, List.prod_cons,
      List.prod_cons, List.prod_replicate] at whole
    rw [whole, mul_assoc, mul_assoc, mul_assoc]
  intro x y
  have ones := pair 1 1
  rw [one_mul, one_mul] at ones
  rw [ones]
  exact pair x y

variable (blocks lanes : Nat)

/-- The product of the lanes' products, and of their sums. -/
def products (lane : Nat → Nat → List R) (tail : Nat → R) : R :=
  ∏ b ∈ Finset.range blocks, (∏ k ∈ Finset.range lanes, (lane b k).prod) * tail b

def sums (lane : Nat → Nat → List R) (tail : Nat → R) : R :=
  ∏ b ∈ Finset.range blocks, (∏ k ∈ Finset.range lanes, (lane b k).sum) * tail b

def ones (vectors : Nat → Nat) : R := ∏ b ∈ Finset.range blocks, (vectors b • (1 : R)) ^ lanes

variable {blocks lanes} {vectors : Nat → Nat}

theorem sums_eq (lane : Nat → Nat → List R) (tail : Nat → R)
    (factors : ∀ b < blocks, ∀ k < lanes,
      (lane b k).sum = (lane b k).prod * (vectors b • (1 : R))) :
    sums blocks lanes lane tail = products blocks lanes lane tail * ones blocks lanes vectors := by
  rw [sums, products, ones, ← Finset.prod_mul_distrib]
  refine Finset.prod_congr rfl fun b inside => ?_
  have block : ∏ k ∈ Finset.range lanes, (lane b k).sum =
      ∏ k ∈ Finset.range lanes, ((lane b k).prod * (vectors b • (1 : R))) :=
    Finset.prod_congr rfl fun k within =>
      factors b (Finset.mem_range.mp inside) k (Finset.mem_range.mp within)
  rw [block, Finset.prod_mul_distrib, Finset.prod_const, Finset.card_range, mul_right_comm]

/-- Ones everywhere but in the first lane of one block. -/
def probe (vectors : Nat → Nat) (block : Nat) (l : List R) (b k : Nat) : List R :=
  if b = block ∧ k = 0 then l else List.replicate (vectors b) 1

theorem sum_ones (q : Nat) : (List.replicate q (1 : R)).sum = q • (1 : R) := List.sum_replicate ..

theorem ones_eq_one (same : sums blocks lanes (fun b _ => List.replicate (vectors b) (1 : R)) 1 =
    products blocks lanes (fun b _ => List.replicate (vectors b) 1) 1) :
    ones (R := R) blocks lanes vectors = 1 := by
  have whole : products blocks lanes (fun b _ => List.replicate (vectors b) (1 : R)) 1 = 1 := by
    simp [products]
  rw [sums_eq _ _ fun b _ k _ => by rw [sum_ones, prod_ones, one_mul], whole, one_mul] at same
  exact same

variable {block : Nat} {l : List R}

omit [AddCommMonoid R] in
theorem products_probe (inside : block < blocks) (some : 1 ≤ lanes) :
    products blocks lanes (probe vectors block l) 1 = l.prod := by
  rw [products, Finset.prod_eq_single block, Finset.prod_eq_single 0]
  · simp [probe]
  · intro k _ other
    rw [probe, if_neg fun here => other here.2, prod_ones]
  · intro none
    exact absurd (Finset.mem_range.mpr some) none
  · intro b _ other
    rw [Finset.prod_eq_one fun k _ => by
      rw [probe, if_neg fun here => other here.1, prod_ones], one_mul, Pi.one_apply]
  · intro none
    exact absurd (Finset.mem_range.mpr inside) none

/-- The rest of the product is the same whatever stands in the lane. -/
theorem sums_probe (vectors : Nat → Nat) (l : List R) (inside : block < blocks)
    (some : 1 ≤ lanes) : ∃ rest : R,
    sums blocks lanes (probe vectors block l) 1 = l.sum * rest ∧
      ones blocks lanes vectors = vectors block • (1 : R) * rest := by
  have here := Finset.mem_range.mpr inside
  have first := Finset.mem_range.mpr some
  refine ⟨(∏ _k ∈ (Finset.range lanes).erase 0, vectors block • (1 : R)) *
    ∏ b ∈ (Finset.range blocks).erase block, (vectors b • (1 : R)) ^ lanes, ?_, ?_⟩
  · rw [sums, ← Finset.mul_prod_erase _ _ here, ← Finset.mul_prod_erase _ _ first]
    have lane : (probe vectors block l block 0).sum = l.sum := by rw [probe, if_pos ⟨rfl, rfl⟩]
    have lanes_same : ∏ k ∈ (Finset.range lanes).erase 0, (probe vectors block l block k).sum =
        ∏ _k ∈ (Finset.range lanes).erase 0, vectors block • (1 : R) :=
      Finset.prod_congr rfl fun k other => by
        rw [probe, if_neg fun same => Finset.ne_of_mem_erase other same.2, sum_ones]
    have blocks_same : ∏ b ∈ (Finset.range blocks).erase block,
        (∏ k ∈ Finset.range lanes, (probe vectors block l b k).sum) * (1 : Nat → R) b =
          ∏ b ∈ (Finset.range blocks).erase block, (vectors b • (1 : R)) ^ lanes :=
      Finset.prod_congr rfl fun b other => by
        rw [Pi.one_apply, mul_one, Finset.prod_congr rfl fun k _ => by
          rw [probe, if_neg fun same => Finset.ne_of_mem_erase other same.1, sum_ones],
          Finset.prod_const, Finset.card_range]
    rw [lane, lanes_same, blocks_same, Pi.one_apply, mul_one, mul_assoc]
  · rw [ones, ← Finset.mul_prod_erase _ _ here]
    have power : (vectors block • (1 : R)) ^ lanes = vectors block • (1 : R) *
        ∏ _k ∈ (Finset.range lanes).erase 0, vectors block • (1 : R) := by
      rw [Finset.mul_prod_erase _ (fun _ => vectors block • (1 : R)) first, Finset.prod_const,
        Finset.card_range]
    rw [power, mul_assoc]

/-- A lane that comes out right among ones has its product but for the factor. -/
theorem sum_of_probe (inside : block < blocks) (some : 1 ≤ lanes)
    (balanced : ones (R := R) blocks lanes vectors = 1)
    (same : sums blocks lanes (probe vectors block l) 1 =
      products blocks lanes (probe vectors block l) 1) :
    l.sum = l.prod * (vectors block • (1 : R)) := by
  obtain ⟨rest, total, factor⟩ := sums_probe vectors l inside some
  rw [products_probe inside some, total] at same
  rw [balanced] at factor
  rw [← same, mul_assoc, mul_comm rest, ← factor, mul_one]

end Sums
end LaneSums
