import Pot.Parfor
import Pot.ParforNestedDeadlock

/-! A parfor whose func calls parfor for each index: the tree that the two chunk loops give, and
when its calls deadlock on a pool. -/
namespace Pot.ParforNested
open Transition

inductive Task where
  | caller
  | chunk (k : Nat)
  /-- a chunk of the call for an index -/
  | inner (i : Int) (l : Nat)
  deriving DecidableEq

/-- The outer call and the one of each of its indices, with what parfor asserts. -/
structure Calls where
  outer : Parfor.Call
  inner : Int → Parfor.Call
  ordered : outer.from_ < outer.to_
  mode : outer.static_chunk_size ≠ 0
  inner_ordered : ∀ i, (inner i).from_ < (inner i).to_
  inner_mode : ∀ i, (inner i).static_chunk_size ≠ 0

namespace Calls

variable (c : Calls)

def innerChunks (i : Int) : List Task := (List.range (c.inner i).tasks.loops).map (Task.inner i)

def chunks : List Task := (List.range c.outer.tasks.loops).map Task.chunk

def stages : Task → List (List Task)
  | .caller => [c.chunks]
  | .chunk k =>
    if k < c.outer.tasks.loops then
      (Int.range (c.outer.tasks.start k) (c.outer.tasks.stop k)).map c.innerChunks
    else []
  | .inner _ _ => []

def rank : Task → Nat
  | .caller => 2
  | .chunk _ => 1
  | .inner _ _ => 0

variable {c}

theorem loops_pos {call : Parfor.Call} (ordered : call.from_ < call.to_)
    (mode : call.static_chunk_size ≠ 0) : 0 < call.tasks.loops := by
  have some := (Parfor.partition_chunks ordered mode).some
  change 0 < call.numChunks.toNat
  omega

theorem mem_chunks {t : Task} : t ∈ c.chunks ↔ ∃ k < c.outer.tasks.loops, t = .chunk k := by
  simp only [chunks, List.mem_map, List.mem_range]
  exact ⟨fun ⟨k, less, same⟩ => ⟨k, less, same.symm⟩, fun ⟨k, less, same⟩ => ⟨k, less, same.symm⟩⟩

theorem mem_innerChunks {i : Int} {t : Task} (mem : t ∈ c.innerChunks i) : ∃ l, t = .inner i l := by
  obtain ⟨l, -, same⟩ := List.mem_map.mp mem
  exact ⟨l, same.symm⟩

theorem mem_stages {t u : Task} (mem : u ∈ (c.stages t).flatten) :
    (t = .caller ∧ ∃ k < c.outer.tasks.loops, u = .chunk k) ∨
    ∃ k < c.outer.tasks.loops, t = .chunk k ∧ ∃ i l, u = .inner i l ∧
      c.outer.chunkStart k ≤ i ∧ i < c.outer.chunkEnd k := by
  obtain ⟨stage, stages, inside⟩ := List.mem_flatten.mp mem
  cases t with
  | caller => exact .inl ⟨rfl, mem_chunks.mp (List.mem_singleton.mp stages ▸ inside)⟩
  | chunk k =>
    simp only [Calls.stages] at stages
    split at stages
    · rename_i less
      obtain ⟨i, range, rfl⟩ := List.mem_map.mp stages
      obtain ⟨l, rfl⟩ := mem_innerChunks inside
      exact .inr ⟨k, less, rfl, i, l, rfl, Int.mem_range_iff.mp range⟩
    · cases stages
  | inner i l => cases stages

theorem stages_nodup (t : Task) : (c.stages t).flatten.Nodup := by
  have injective : ∀ i, Function.Injective (Task.inner i) := fun i l m same => by cases same; rfl
  cases t with
  | caller =>
    simp only [stages, List.flatten_singleton]
    exact List.Nodup.map (fun j k same => by cases same; rfl) List.nodup_range
  | chunk k =>
    simp only [stages]
    split
    · rw [← List.flatMap_def]
      refine List.nodup_flatMap.mpr
        ⟨fun i _ => List.Nodup.map (injective i) List.nodup_range, ?_⟩
      refine List.Pairwise.imp (fun {i j} differ u left right => ?_) (Chunks.range_nodup _ _)
      obtain ⟨l, same⟩ := mem_innerChunks left
      obtain ⟨m, same'⟩ := mem_innerChunks right
      cases same.symm.trans same'
      exact differ rfl
    · exact List.nodup_nil
  | inner i l => exact List.nodup_nil

def tree (c : Calls) : StagedTree Task where
  root := .caller
  stages := c.stages
  rank := rank
  lower t stage mem u inside := by
    rcases mem_stages (List.mem_flatten_of_mem mem inside) with
      ⟨rfl, k, -, rfl⟩ | ⟨k, -, rfl, i, l, rfl, -⟩ <;> exact Nat.lt_succ_self _
  some t stage mem := by
    cases t with
    | caller =>
      rw [List.mem_singleton.mp mem]
      exact List.ne_nil_of_mem (mem_chunks.mpr ⟨0, loops_pos c.ordered c.mode, rfl⟩)
    | chunk k =>
      simp only [stages] at mem
      split at mem
      · obtain ⟨i, -, rfl⟩ := List.mem_map.mp mem
        have some := loops_pos (c.inner_ordered i) (c.inner_mode i)
        simp only [innerChunks, ne_eq, List.map_eq_nil_iff, List.range_eq_nil]
        omega
      · cases mem
    | inner i l => cases mem
  top t mem := by
    rcases mem_stages mem with ⟨-, k, -, no⟩ | ⟨k, -, -, i, l, no, -⟩ <;> cases no
  once := stages_nodup
  parent t u v left right := by
    rcases mem_stages left with ⟨rfl, j, -, rfl⟩ | ⟨j, jless, rfl, i, l, rfl, from_, to_⟩
    · rcases mem_stages right with ⟨rfl, -⟩ | ⟨k, -, -, i, l, no, -⟩
      · rfl
      · cases no
    · rcases mem_stages right with ⟨-, k, -, no⟩ | ⟨k, kless, rfl, i', l', same, from', to'⟩
      · cases no
      · cases same
        have numChunks : (c.outer.tasks.loops : Int) = c.outer.numChunks :=
          Int.toNat_of_nonneg (Int.le_of_lt (Parfor.partition_chunks c.ordered c.mode).some)
        exact congrArg Task.chunk ((Parfor.partition_chunks c.ordered c.mode).disjoint j k
          (by omega) (by omega) i from_ to_ from' to')

theorem occupies_chunk {k : Nat} (less : k < c.outer.tasks.loops) :
    c.tree.occupies (.chunk k) = 1 := by
  have numChunks : (c.outer.tasks.loops : Int) = c.outer.numChunks :=
    Int.toNat_of_nonneg (Int.le_of_lt (Parfor.partition_chunks c.ordered c.mode).some)
  have nonempty := (Parfor.partition_chunks c.ordered c.mode).nonempty k (by omega)
  have stages : c.tree.stages (.chunk k) =
      (Int.range (c.outer.tasks.start k) (c.outer.tasks.stop k)).map c.innerChunks := if_pos less
  have some : c.tree.stages (.chunk k) ≠ [] := by
    rw [stages]
    exact List.ne_nil_of_mem
      (List.mem_map_of_mem (Int.mem_range_iff.mpr ⟨Int.le_refl _, nonempty⟩))
  have heavy := c.tree.heavy_mem some
  rw [stages] at heavy
  obtain ⟨i, -, same⟩ := List.mem_map.mp heavy
  have leaves : c.tree.load (c.tree.heavy (.chunk k)) = 0 := by
    rw [← same]
    refine List.sum_eq_zero fun w mem => ?_
    obtain ⟨t, inside, rfl⟩ := List.mem_map.mp mem
    obtain ⟨l, rfl⟩ := mem_innerChunks inside
    exact c.tree.occupies_eq_zero.mpr rfl
  rw [c.tree.occupies_heavy some, leaves]

theorem tree_width : c.tree.width = c.outer.tasks.loops := by
  have ones : c.chunks.map c.tree.occupies = List.replicate c.outer.tasks.loops 1 := by
    refine List.eq_replicate_iff.mpr ⟨by simp [chunks], fun w mem => ?_⟩
    obtain ⟨t, inside, rfl⟩ := List.mem_map.mp mem
    obtain ⟨k, less, rfl⟩ := mem_chunks.mp inside
    exact occupies_chunk less
  calc c.tree.width = c.tree.load c.chunks := Nat.max_zero _
    _ = c.outer.tasks.loops := by rw [StagedTree.load, ones, List.sum_replicate_nat, Nat.mul_one]

end Calls

/-- In the automatic mode there are as many chunks as threads as soon as there are as many
indices. -/
theorem automatic_chunks_reach {c : Parfor.Call} (ordered : c.from_ < c.to_)
    (automatic : c.static_chunk_size < 0) (threads : 1 ≤ c.thread_count) :
    (c.thread_count : Int) ≤ c.numChunks ↔ (c.thread_count : Int) ≤ c.to_ - c.from_ := by
  have mode : c.static_chunk_size ≠ 0 := by omega
  obtain ⟨-, whole, short⟩ := Parfor.numChunks_rounded ordered mode
  have size : c.chunk_size = max 1 (c.numIterations / c.thread_count) := by
    rw [Parfor.Call.chunk_size, WhenAll.chunkSize, if_pos automatic, Int.tdiv_eq_ediv_of_nonneg]
    unfold Parfor.Call.numIterations
    omega
  have positive := Parfor.chunk_size_positive mode
  change _ ↔ (c.thread_count : Int) ≤ c.numIterations
  constructor
  · intro many
    by_contra few
    have none : c.numIterations / c.thread_count = 0 :=
      Int.ediv_eq_zero_of_lt (by unfold Parfor.Call.numIterations; omega) (by omega)
    rw [size, none] at short
    simp only [zero_le_one, sup_of_le_left, mul_one] at short
    omega
  · intro many
    by_contra few
    have share : c.chunk_size = c.numIterations / c.thread_count := by
      rw [size]
      exact max_eq_right ((Int.le_ediv_iff_mul_le (by omega)).mpr (by omega))
    have fits : c.chunk_size * c.thread_count ≤ c.numIterations := by
      rw [share]
      exact Int.ediv_mul_le _ (by omega)
    have covered : c.numIterations ≤ (c.thread_count - 1) * c.chunk_size :=
      whole.trans (Int.mul_le_mul_of_nonneg_right (by omega) (Int.le_of_lt positive))
    have less : (c.thread_count - 1) * c.chunk_size = c.chunk_size * c.thread_count - c.chunk_size := by
      ring
    omega

/-- A parfor whose func calls parfor deadlocks a pool exactly if it makes a chunk for each worker;
in the automatic mode, exactly if it has an index for each worker. -/
theorem nested_parfor_deadlocks_iff (c : Calls) {queue_size : Nat} (positive : 0 < queue_size)
    (workers : 1 ≤ c.outer.thread_count) :
    (Deadlocks c.tree queue_size c.outer.thread_count ↔
      (c.outer.thread_count : Int) ≤ c.outer.numChunks) ∧
    (c.outer.static_chunk_size < 0 → (Deadlocks c.tree queue_size c.outer.thread_count ↔
      (c.outer.thread_count : Int) ≤ c.outer.to_ - c.outer.from_)) := by
  have chunks : Deadlocks c.tree queue_size c.outer.thread_count ↔
      (c.outer.thread_count : Int) ≤ c.outer.numChunks := by
    rw [(deadlocks_iff c.tree positive workers).1, Calls.tree_width]
    have some := (Parfor.partition_chunks c.ordered c.mode).some
    change _ ≤ c.outer.numChunks.toNat ↔ _
    omega
  exact ⟨chunks, fun automatic =>
    chunks.trans (automatic_chunks_reach c.ordered automatic workers)⟩

/-- A parfor over rows, each of which is a parfor over eight columns, on four threads. -/
def rows (to_ : Int) (some : 0 < to_) : Calls where
  outer := ⟨-1, 0, to_, 4⟩
  inner _ := ⟨-1, 0, 8, 4⟩
  ordered := some
  mode := Int.negSucc_ne_zero 0
  inner_ordered _ := by decide
  inner_mode _ := by decide

theorem nested_parfor_deadlocks_iff_rows : Deadlocks (rows 4 (by decide)).tree 1024 4 ∧
    ¬ Deadlocks (rows 3 (by decide)).tree 1024 4 := by
  have four : Deadlocks (rows 4 (by decide)).tree 1024 4 ↔ (4 : Int) ≤ 4 - 0 :=
    (nested_parfor_deadlocks_iff (rows 4 (by decide)) (by decide) (by decide)).2 (by decide)
  have three : Deadlocks (rows 3 (by decide)).tree 1024 4 ↔ (4 : Int) ≤ 3 - 0 :=
    (nested_parfor_deadlocks_iff (rows 3 (by decide)) (by decide) (by decide)).2 (by decide)
  exact ⟨four.mpr (by decide), fun no => absurd (three.mp no) (by decide)⟩

end Pot.ParforNested
