import Mathlib.Algebra.Ring.Int.Defs
import Pot.ReduceSimd

/-! dot_simd (modules, algorithms/dot_simd.cppm). The blocks, their whole vectors and their tails
are those of elementwise_reduce_simd. parfor waits for its tasks one after the other, and a run
that ends has ended all of them. -/
namespace Pot.DotSimd
open ReduceSimd

variable {R : Type}

/-- exec.thread_count() and lane_width are in the shape, the latter as scalar_count. -/
structure Call (R : Type) extends Shape where
  a : Nat → R
  b : Nat → R

section Model
variable [Zero R] [Add R] [Mul R]

def Call.acc (c : Call R) (block_idx : Nat) : Register c.toShape R :=
  (c.loads block_idx).foldl
    (fun acc i => acc + loadu c.toShape c.a i * loadu c.toShape c.b i) 0

/-- What is left in partial_sums[block_idx]. -/
def Call.block_sum (c : Call R) (block_idx : Nat) : R :=
  (c.tail block_idx).foldl (fun block_sum i => block_sum + c.a i * c.b i)
    ((List.finRange c.scalar_count).foldl (fun block_sum k => block_sum + c.acc block_idx k) 0)

def Call.Returns (c : Call R) (total : R) : Prop :=
  if c.n = 0 then total = 0
  else Reduce.Results c.block_count c.thread_count (fun total v => total + v) 0 c.block_sum total

/-- elementwise_reduce_simd with * for elements and + for sums. -/
def Call.reduction (c : Call R) : ReduceSimd.Call R R :=
  ⟨c.toShape, c.a, c.b, fun va vb => va * vb, fun x y => x * y, fun x y => x + y, 0⟩

theorem returns_reduction (c : Call R) (total : R) :
    c.Returns total ↔ c.reduction.Returns total :=
  Iff.rfl

end Model

section Sum
variable [NonUnitalNonAssocSemiring R]

theorem sequential_eq (c : Call R) :
    c.reduction.scalar.sequential = ∑ i ∈ Finset.range c.n, c.a i * c.b i := by
  have folded : ((List.range c.n).map fun i => c.a i * c.b i).sum =
      ((List.range c.n).map fun i => c.a i * c.b i).foldl (fun total v => total + v) 0 :=
    List.sum_eq_foldl
  rw [List.foldl_map] at folded
  exact folded.symm

theorem returns_iff (c : Call R) (threads : 1 ≤ c.thread_count) (lanes : 1 ≤ c.scalar_count)
    (total : R) : c.Returns total ↔ total = ∑ i ∈ Finset.range c.n, c.a i * c.b i := by
  have agrees : c.reduction.Returns total ↔ c.reduction.scalar.Returns total :=
    agrees_add c.toShape threads lanes R c.a c.b (fun va vb => va * vb) (fun x y => x * y)
      (fun _ _ _ => rfl) total
  have associative : Std.Associative c.reduction.scalar.reduce_op := ⟨add_assoc⟩
  have identity : Std.LawfulIdentity c.reduction.scalar.reduce_op c.reduction.scalar.identity :=
    { left_id := zero_add, right_id := add_zero }
  rw [returns_reduction, agrees, Reduce.returns_iff c.reduction.scalar threads, sequential_eq]

end Sum

/-- dot_simd returns the dot product and nothing else, whatever the order its blocks are done in.
Nothing is read beyond the arrays, and neither the threads nor the lanes show in the result. -/
theorem returns_dot [CommRing R] (c : Call R) (threads : 1 ≤ c.thread_count)
    (lanes : 1 ≤ c.scalar_count) :
    (∀ total, c.Returns total ↔ total = ∑ i ∈ Finset.range c.n, c.a i * c.b i) ∧
      (∀ block_idx, (∀ i ∈ c.loads block_idx, ∀ k < c.scalar_count, i + k < c.n) ∧
        ∀ i ∈ c.tail block_idx, i < c.n) ∧
      ∀ thread_count scalar_count, 1 ≤ thread_count → 1 ≤ scalar_count → ∀ total,
        (⟨⟨c.n, thread_count, scalar_count⟩, c.a, c.b⟩ : Call R).Returns total ↔
          c.Returns total := by
  refine ⟨returns_iff c threads lanes, fun block_idx => ⟨fun i load k lane => ?_, fun i =>
    c.tail_below⟩, fun thread_count scalar_count others wide total => ?_⟩
  · have := c.load_below lanes load
    have := c.end_le block_idx
    omega
  · rw [returns_iff c threads lanes]
    exact returns_iff ⟨⟨c.n, thread_count, scalar_count⟩, c.a, c.b⟩ others wide total

def tens : Call Int := ⟨⟨10, 4, 2⟩, fun i => i, fun i => i + 1⟩

theorem returns_dot_tens : tens.Returns 330 ∧ ¬ tens.Returns 331 :=
  ⟨((returns_dot tens (by decide) (by decide)).1 330).mpr rfl,
    fun other => absurd (((returns_dot tens (by decide) (by decide)).1 331).mp other) (by decide)⟩

end Pot.DotSimd
