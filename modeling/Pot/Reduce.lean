import Pot.Folds
import Pot.Parfor

/-! elementwise_reduce (algorithms/reduce.h): the blocks are folded by the tasks of parfor, each
into its own place of a vector, and the vector is folded in the end. An element of the vector is
written by itself here, as in each std::vector but that of bool (ReducePacked). -/
namespace Pot.Reduce
open Transition

variable {T R : Type}

structure Call (T R : Type) where
  a : Nat → T
  b : Nat → T
  n : Nat
  elem_op : T → T → R
  reduce_op : R → R → R
  identity : R
  thread_count : Nat

def Call.elem (c : Call T R) (i : Nat) : R := c.elem_op (c.a i) (c.b i)

def Call.block_count (c : Call T R) : Nat := max 1 c.thread_count

def Call.block_size (c : Call T R) : Nat := (c.n + c.block_count - 1) / c.block_count

def Call.indices (c : Call T R) (block_idx : Nat) : List Nat :=
  List.range' (block_idx * c.block_size)
    (min c.n (block_idx * c.block_size + c.block_size) - block_idx * c.block_size)

def Call.sum (c : Call T R) (block_idx : Nat) : R :=
  (c.indices block_idx).foldl (fun sum i => c.reduce_op sum (c.elem i)) c.identity

def parfor (block_count thread_count : Nat) : Parfor.Call := ⟨-1, 0, block_count, thread_count⟩

/-- The vector after func has been called for the blocks of `visited` in this order. -/
def partials (block_count : Nat) (identity : R) (sum : Nat → R) (visited : List Int) : List R :=
  Folds.writes sum (visited.map Int.toNat) (List.replicate block_count identity)

/-- What a run can return whose blocks are `sum`. -/
def Results (block_count thread_count : Nat) (reduce_op : R → R → R) (identity : R)
    (sum : Nat → R) (result : R) : Prop :=
  (parfor block_count thread_count).Divides ∧
    ∃ s, Reached (parfor block_count thread_count).tasks.system s ∧
      Terminal (parfor block_count thread_count).tasks.system s ∧
      result = (partials block_count identity sum s.visited).foldl reduce_op identity

def Call.Returns (c : Call T R) (result : R) : Prop :=
  if c.n = 0 then result = c.identity
  else Results c.block_count c.thread_count c.reduce_op c.identity c.sum result

/-- The left fold in the order of the indices. -/
def Call.sequential (c : Call T R) : R :=
  (List.range c.n).foldl (fun total i => c.reduce_op total (c.elem i)) c.identity

/-- The order of the blocks does not show in the vector. -/
theorem partials_ended {block_count thread_count : Nat} (some : 1 ≤ block_count)
    (identity : R) (sum : Nat → R) {s : Loops.State}
    (reached : Reached (parfor block_count thread_count).tasks.system s)
    (ended : Terminal (parfor block_count thread_count).tasks.system s) :
    partials block_count identity sum s.visited = (List.range block_count).map sum := by
  have ordered : (0 : Int) < block_count := by omega
  have mode : (parfor block_count thread_count).static_chunk_size ≠ 0 :=
    Int.neg_ne_zero.mpr one_ne_zero
  have all : s.visited.Perm (Int.range 0 block_count) :=
    (Loops.visited_all reached ended).trans (List.Perm.of_eq (Parfor.all_eq ordered mode))
  have blocks : (Int.range 0 block_count).map Int.toNat = List.range block_count := by
    simp [Int.range, Function.comp_def]
  have order : (s.visited.map Int.toNat).Perm
      (List.range (List.replicate block_count identity).length) := by
    rw [List.length_replicate, ← blocks]
    exact all.map Int.toNat
  rw [partials, Folds.writes_all order, List.length_replicate]

/-- With a thread there is one result, the fold of the blocks in their order. -/
theorem results_iff {block_count thread_count : Nat} (some : 1 ≤ block_count)
    (threads : 1 ≤ thread_count) (reduce_op : R → R → R) (identity : R) (sum : Nat → R)
    (result : R) : Results block_count thread_count reduce_op identity sum result ↔
      result = ((List.range block_count).map sum).foldl reduce_op identity := by
  constructor
  · rintro ⟨-, s, reached, ended, rfl⟩
    rw [partials_ended some identity sum reached ended]
  · rintro rfl
    have start : Reached (parfor block_count thread_count).tasks.system
        ⟨(parfor block_count thread_count).tasks.start, []⟩ := .start rfl
    obtain ⟨as, s, run, ended⟩ := Loops.completes start
    have reached := Reached.replay start as run
    refine ⟨Parfor.divides threads (Int.neg_ne_zero.mpr one_ne_zero), s, reached, ended, ?_⟩
    rw [partials_ended some identity sum reached ended]

theorem block_count_pos (c : Call T R) : 1 ≤ c.block_count := Nat.le_max_left ..

theorem blocks_cover (c : Call T R) : c.n ≤ c.block_count * c.block_size := by
  have split := Nat.div_add_mod (c.n + c.block_count - 1) c.block_count
  have rest := Nat.mod_lt (c.n + c.block_count - 1) (block_count_pos c)
  unfold Call.block_size
  omega

theorem indices_flatten (c : Call T R) :
    (List.range c.block_count).flatMap c.indices = List.range c.n := by
  have cover := blocks_cover c
  refine (Folds.blocks_flatten c.n c.block_size c.block_count).trans ?_
  rw [Nat.min_eq_left cover]

theorem fold_elems (c : Call T R) (indices : List Nat) :
    indices.foldl (fun sum i => c.reduce_op sum (c.elem i)) c.identity =
      (indices.map c.elem).foldl c.reduce_op c.identity := by
  rw [List.foldl_map]

/-- The blocks, each folded from the identity, fold to the sequential result. -/
theorem fold_sums (c : Call T R) [Std.Associative c.reduce_op]
    [Std.LawfulIdentity c.reduce_op c.identity] :
    ((List.range c.block_count).map c.sum).foldl c.reduce_op c.identity = c.sequential := by
  have sums : c.sum = fun idx => ((c.indices idx).map c.elem).foldl c.reduce_op c.identity :=
    funext fun idx => fold_elems c (c.indices idx)
  rw [sums, Folds.fold_blocks (f := c.reduce_op) (fun idx => (c.indices idx).map c.elem),
    ← List.map_flatMap, indices_flatten, Call.sequential, fold_elems]

theorem returns_iff (c : Call T R) [Std.Associative c.reduce_op]
    [Std.LawfulIdentity c.reduce_op c.identity] (threads : 1 ≤ c.thread_count) (result : R) :
    c.Returns result ↔ result = c.sequential := by
  unfold Call.Returns
  split
  · rename_i none
    rw [Call.sequential, none, List.range_zero, List.foldl_nil]
  · rw [results_iff (block_count_pos c) threads, fold_sums]

end Pot.Reduce
