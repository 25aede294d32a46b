import Mathlib.Tactic.Linarith
import Pot.Loops
import Pot.WhenAll

/-! The chunk loop of algorithms/parfor.h. IndexType is unbounded here (ParforWidth has the
machine types); func returns from each call. -/
namespace Pot.Parfor
open Transition

structure Call where
  static_chunk_size : Int
  from_ : Int
  to_ : Int
  thread_count : Nat

def Call.numIterations (c : Call) : Int := c.to_ - c.from_

def Call.chunk_size (c : Call) : Int :=
  WhenAll.chunkSize c.static_chunk_size c.numIterations c.thread_count

def Call.numChunks (c : Call) : Int :=
  WhenAll.numChunks c.static_chunk_size c.from_ c.to_ c.thread_count

/-- Neither `numIterations / thread_count` nor the division for numChunks is by zero. -/
def Call.Divides (c : Call) : Prop :=
  (c.static_chunk_size < 0 → c.thread_count ≠ 0) ∧ c.chunk_size ≠ 0

instance (c : Call) : Decidable c.Divides := inferInstanceAs (Decidable (_ ∧ _))

def Call.chunkStart (c : Call) (chunkIndex : Nat) : Int := c.from_ + chunkIndex * c.chunk_size

def Call.chunkEnd (c : Call) (chunkIndex : Nat) : Int :=
  min (c.chunkStart chunkIndex + c.chunk_size) c.to_

/-- The tasks: each calls func for the indices of its own chunk in turn. -/
def Call.tasks (c : Call) : Loops.Family := ⟨c.numChunks.toNat, c.chunkStart, c.chunkEnd⟩

/-- The chunks cut [from, to) up without a gap and without an overlap. -/
structure Call.Partition (c : Call) : Prop where
  some : 0 < c.numChunks
  nonempty : ∀ k : Nat, k < c.numChunks → c.chunkStart k < c.chunkEnd k
  first : c.chunkStart 0 = c.from_
  consecutive : ∀ k : Nat, k + 1 < c.numChunks → c.chunkEnd k = c.chunkStart (k + 1)
  last : ∀ k : Nat, k + 1 = c.numChunks → c.chunkEnd k = c.to_
  disjoint : ∀ j k : Nat, j < c.numChunks → k < c.numChunks → ∀ i, c.chunkStart j ≤ i →
    i < c.chunkEnd j → c.chunkStart k ≤ i → i < c.chunkEnd k → j = k
  cover : ∀ i, (∃ k : Nat, k < c.numChunks ∧ c.chunkStart k ≤ i ∧ i < c.chunkEnd k) ↔
    c.from_ ≤ i ∧ i < c.to_

variable {c : Call}

theorem chunk_size_positive (mode : c.static_chunk_size ≠ 0) : 0 < c.chunk_size := by
  rw [Call.chunk_size, WhenAll.chunkSize]
  split
  · exact lt_of_lt_of_le Int.one_pos (le_max_left ..)
  · omega

theorem divides (threads : 1 ≤ c.thread_count) (mode : c.static_chunk_size ≠ 0) : c.Divides :=
  ⟨fun _ => Nat.ne_of_gt threads, Int.ne_of_gt (chunk_size_positive mode)⟩

theorem chunkStart_le (mode : c.static_chunk_size ≠ 0) {j k : Nat} (before : j < k) :
    c.chunkStart j + c.chunk_size ≤ c.chunkStart k := by
  have steps : ((j + 1 : Nat) : Int) * c.chunk_size ≤ k * c.chunk_size :=
    Int.mul_le_mul_of_nonneg_right (by omega) (Int.le_of_lt (chunk_size_positive mode))
  rw [Call.chunkStart, Call.chunkStart]
  push_cast at steps
  linarith

variable (ordered : c.from_ < c.to_) (mode : c.static_chunk_size ≠ 0)
include ordered mode

theorem numChunks_rounded : 0 < c.numChunks ∧ c.numIterations ≤ c.numChunks * c.chunk_size ∧
    (c.numChunks - 1) * c.chunk_size < c.numIterations := by
  have some : 0 < c.numIterations := by rw [Call.numIterations]; omega
  exact Chunks.rounded_up some (chunk_size_positive mode)

theorem chunkStart_lt {k : Nat} (inside : k < c.numChunks) : c.chunkStart k < c.to_ := by
  have rounded := (numChunks_rounded ordered mode).2.2
  have steps : (k : Int) * c.chunk_size ≤ (c.numChunks - 1) * c.chunk_size :=
    Int.mul_le_mul_of_nonneg_right (by omega) (Int.le_of_lt (chunk_size_positive mode))
  unfold Call.numIterations at rounded
  unfold Call.chunkStart
  omega

theorem chunkEnd_last {k : Nat} (last : k + 1 = c.numChunks) : c.chunkEnd k = c.to_ := by
  have rounded := (numChunks_rounded ordered mode).2.1
  rw [← last, Int.add_mul, Int.one_mul, Call.numIterations] at rounded
  rw [Call.chunkEnd, Call.chunkStart]
  exact min_eq_right (by omega)

/-- The iterations of all tasks in the order of the chunks. -/
theorem all_eq : c.tasks.all = Int.range c.from_ c.to_ := by
  have rounded := numChunks_rounded ordered mode
  have pieces := Chunks.pieces_flatten (chunk_size_positive mode) (Int.le_of_lt ordered)
    c.numChunks.toNat
  rw [Int.toNat_of_nonneg (Int.le_of_lt rounded.1)] at pieces
  refine pieces.trans ?_
  have whole := rounded.2.1
  unfold Call.numIterations at whole
  rw [min_eq_right (by omega)]

theorem partition_chunks : c.Partition where
  some := (numChunks_rounded ordered mode).1
  nonempty k inside :=
    lt_min (lt_add_of_pos_right _ (chunk_size_positive mode)) (chunkStart_lt ordered mode inside)
  first := by simp [Call.chunkStart]
  consecutive k inside := by
    have next := chunkStart_lt ordered mode (k := k + 1) (by omega)
    have step : c.chunkStart (k + 1) = c.chunkStart k + c.chunk_size := by
      simp only [Call.chunkStart]
      push_cast
      ring
    rw [Call.chunkEnd, ← step]
    exact min_eq_left (Int.le_of_lt next)
  last k := chunkEnd_last ordered mode
  disjoint j k _ _ i fromJ toJ fromK toK := by
    have endJ : c.chunkEnd j ≤ c.chunkStart j + c.chunk_size := min_le_left ..
    have endK : c.chunkEnd k ≤ c.chunkStart k + c.chunk_size := min_le_left ..
    rcases Nat.lt_trichotomy j k with before | same | after
    · have := chunkStart_le mode before
      omega
    · exact same
    · have := chunkStart_le mode after
      omega
  cover i := by
    have member : i ∈ c.tasks.all ↔ c.from_ ≤ i ∧ i < c.to_ := by
      rw [all_eq ordered mode, Int.mem_range_iff]
    rw [← member, Loops.Family.all, List.mem_flatMap]
    simp only [List.mem_range, Int.mem_range_iff, Call.tasks, Int.lt_toNat]

/-- However the tasks run, nothing is called twice, and in the end everything has been called. -/
theorem called_once {s : Loops.State} (reached : Reached c.tasks.system s) (i : Int) :
    s.visited.count i ≤ (if c.from_ ≤ i ∧ i < c.to_ then 1 else 0) ∧
      (Terminal c.tasks.system s →
        s.visited.count i = if c.from_ ≤ i ∧ i < c.to_ then 1 else 0) := by
  rw [← Chunks.count_range, ← all_eq ordered mode]
  exact ⟨Loops.visited_le reached i, fun ended => (Loops.visited_all reached ended).count_eq i⟩

omit mode in
/-- One chunk each, and the rest of the division makes less than one more each. -/
theorem automatic_chunks (threads : 1 ≤ c.thread_count) (automatic : c.static_chunk_size < 0) :
    c.numChunks ≤ 2 * c.thread_count - 1 := by
  have rounded := (numChunks_rounded ordered (Int.ne_of_lt automatic)).2.2
  have size : c.chunk_size = max 1 (c.numIterations / c.thread_count) := by
    rw [Call.chunk_size, WhenAll.chunkSize, if_pos automatic, Int.tdiv_eq_ediv_of_nonneg]
    unfold Call.numIterations
    omega
  have split := Int.mul_ediv_add_emod c.numIterations c.thread_count
  have rest := Int.emod_lt_of_pos c.numIterations (b := c.thread_count) (by omega)
  rcases Int.lt_or_le (c.numIterations / c.thread_count) 1 with few | many
  · have one : c.chunk_size = 1 := by rw [size, max_eq_left (by omega)]
    have fewer : c.numIterations < c.thread_count :=
      (Int.ediv_lt_iff_lt_mul (by omega)).mp few |>.trans_eq (Int.one_mul _)
    rw [one] at rounded
    omega
  · rw [size, max_eq_right many] at rounded
    by_contra more
    have chunks : (2 * (c.thread_count : Int) - 1) * (c.numIterations / c.thread_count) ≤
        (c.numChunks - 1) * (c.numIterations / c.thread_count) :=
      Int.mul_le_mul_of_nonneg_right (by omega) (by omega)
    have spare := Int.mul_nonneg (Int.sub_nonneg_of_le many)
      (by omega : (0 : Int) ≤ c.thread_count - 1)
    linarith

/-- The chunks are a partition of the range, the tasks call func once for each of its indices
in every order they can run in, and automatic chunks are fewer than two a thread. -/
theorem partition (threads : 1 ≤ c.thread_count) :
    c.Partition ∧
      (∀ s, Reached c.tasks.system s → ∀ i,
        s.visited.count i ≤ (if c.from_ ≤ i ∧ i < c.to_ then 1 else 0) ∧
        (Terminal c.tasks.system s →
          s.visited.count i = if c.from_ ≤ i ∧ i < c.to_ then 1 else 0)) ∧
      (∀ s, Reached c.tasks.system s →
        ∃ as t, replay c.tasks.system s as = some t ∧ Terminal c.tasks.system t) ∧
      (c.static_chunk_size < 0 → c.numChunks ≤ 2 * c.thread_count - 1) :=
  ⟨partition_chunks ordered mode, fun _ reached => called_once ordered mode reached,
    fun _ reached => Loops.completes reached, automatic_chunks ordered threads⟩

omit ordered mode in
theorem partition_seven : (⟨-1, 3, 10, 4⟩ : Call).Partition ∧
    (⟨-1, 3, 10, 4⟩ : Call).numChunks = 7 :=
  ⟨(partition (c := ⟨-1, 3, 10, 4⟩) (by decide) (by decide) (by decide)).1, by decide⟩

end Pot.Parfor
