import Pot.ReduceSimd

/-! The tiling of elementwise_reduce_simd (algorithms/reduce.h): what each block reads of the
arrays, in whole vectors and one by one. -/
namespace Pot.ReduceSimd.Shape

/-- How often a block loads index `j` in a vector, and how often its scalar loop comes to it. -/
def vectorLoads (s : Shape) (block_idx j : Nat) : Nat :=
  (s.loads block_idx).countP fun i => decide (i ≤ j ∧ j < i + s.scalar_count)

def scalarSteps (s : Shape) (block_idx j : Nat) : Nat := (s.tail block_idx).count j

/-- One block of the call consumes the index, in one vector or in one step of its scalar loop. -/
structure ConsumedOnce (s : Shape) (j block_idx : Nat) : Prop where
  block : block_idx < s.block_count
  once : s.vectorLoads block_idx j = 1 ∧ s.scalarSteps block_idx j = 0 ∨
    s.vectorLoads block_idx j = 0 ∧ s.scalarSteps block_idx j = 1
  alone : ∀ other, other ≠ block_idx →
    s.vectorLoads other j = 0 ∧ s.scalarSteps other j = 0

variable (s : Shape)

theorem vectorLoads_eq (lanes : 1 ≤ s.scalar_count) (block_idx j : Nat) :
    s.vectorLoads block_idx j =
      if s.begin_ block_idx ≤ j ∧ j < s.rest block_idx then 1 else 0 := by
  have row : ∀ k, (decide (s.begin_ block_idx + k * s.scalar_count ≤ j ∧
      j < s.begin_ block_idx + k * s.scalar_count + s.scalar_count)) =
        decide (s.begin_ block_idx ≤ j ∧ k = (j - s.begin_ block_idx) / s.scalar_count) := by
    intro k
    apply decide_eq_decide.mpr
    by_cases before : s.begin_ block_idx ≤ j
    · have quotient := Nat.div_eq_iff (x := j - s.begin_ block_idx) (y := k) lanes
      constructor
      · exact fun inside => ⟨before, (quotient.mpr (by omega)).symm⟩
      · intro same
        have := quotient.mp same.2.symm
        omega
    · exact ⟨fun inside => by omega, fun same => absurd same.1 before⟩
  rw [vectorLoads, s.loads_eq lanes, s.rest_eq lanes, List.countP_map]
  simp only [Function.comp_def, row]
  by_cases before : s.begin_ block_idx ≤ j
  · simp only [before, true_and]
    have counted : (List.range (s.vectors block_idx)).countP
        (fun k => decide (k = (j - s.begin_ block_idx) / s.scalar_count)) =
          (List.range (s.vectors block_idx)).count ((j - s.begin_ block_idx) / s.scalar_count) :=
      List.countP_congr fun k _ => by simp
    rw [counted, List.count_range]
    have inside := Nat.div_lt_iff_lt_mul (x := j - s.begin_ block_idx) (y := s.vectors block_idx)
      lanes
    by_cases short : (j - s.begin_ block_idx) / s.scalar_count < s.vectors block_idx
    · rw [if_pos short, if_pos (by have := inside.mp short; omega)]
    · rw [if_neg short, if_neg (by have := mt inside.mpr short; omega)]
  · simp [before]

theorem scalarSteps_eq (block_idx j : Nat) : s.scalarSteps block_idx j =
    if s.rest block_idx ≤ j ∧ j < s.end_ block_idx then 1 else 0 := by
  rw [scalarSteps, tail]
  by_cases inside : s.rest block_idx ≤ j ∧ j < s.end_ block_idx
  · rw [if_pos inside]
    exact List.count_eq_one_of_mem List.nodup_range' (List.mem_range'_1.mpr (by omega))
  · rw [if_neg inside]
    exact List.count_eq_zero.mpr fun member => inside (by
      have := List.mem_range'_1.mp member
      omega)

theorem rest_between (lanes : 1 ≤ s.scalar_count) (block_idx : Nat) :
    s.begin_ block_idx ≤ s.rest block_idx ∧
      s.rest block_idx ≤ max (s.begin_ block_idx) (s.end_ block_idx) := by
  have split := s.block_split block_idx
  rw [s.rest_eq lanes]
  omega

theorem elems_per_block_pos (lanes : 1 ≤ s.scalar_count) : 0 < s.elems_per_block :=
  Nat.lt_of_lt_of_le lanes (Nat.le_max_left ..)

/-- The blocks are consecutive pieces of elems_per_block, cut off at the end. -/
theorem in_block_iff (lanes : 1 ≤ s.scalar_count) (block_idx j : Nat) :
    s.begin_ block_idx ≤ j ∧ j < s.end_ block_idx ↔
      j < s.n ∧ j / s.elems_per_block = block_idx := by
  have quotient := Nat.div_eq_iff (x := j) (y := block_idx) (s.elems_per_block_pos lanes)
  have positive := s.elems_per_block_pos lanes
  unfold end_ begin_
  omega

theorem last_block (lanes : 1 ≤ s.scalar_count) {j : Nat} (inside : j < s.n) :
    j / s.elems_per_block < s.block_count := by
  apply (Nat.div_lt_iff_lt_mul (s.elems_per_block_pos lanes)).mpr
  exact Nat.lt_of_lt_of_le inside s.blocks_cover

/-- What a block does with an index: at most one of the two, and only with its own. -/
theorem consumed_cases (lanes : 1 ≤ s.scalar_count) (block_idx j : Nat) :
    (s.begin_ block_idx ≤ j ∧ j < s.end_ block_idx ∧
      (s.vectorLoads block_idx j = 1 ∧ s.scalarSteps block_idx j = 0 ∨
        s.vectorLoads block_idx j = 0 ∧ s.scalarSteps block_idx j = 1)) ∨
    (¬ (s.begin_ block_idx ≤ j ∧ j < s.end_ block_idx) ∧
      s.vectorLoads block_idx j = 0 ∧ s.scalarSteps block_idx j = 0) := by
  have between := s.rest_between lanes block_idx
  rw [s.vectorLoads_eq lanes, s.scalarSteps_eq]
  by_cases inside : s.begin_ block_idx ≤ j ∧ j < s.end_ block_idx
  · left
    refine ⟨inside.1, inside.2, ?_⟩
    by_cases whole : j < s.rest block_idx
    · exact .inl ⟨if_pos ⟨inside.1, whole⟩, if_neg (by omega)⟩
    · exact .inr ⟨if_neg (by omega), if_pos (by omega)⟩
  · exact .inr ⟨inside, if_neg (by omega), if_neg (by omega)⟩

theorem consumed_once (lanes : 1 ≤ s.scalar_count) {j : Nat} (inside : j < s.n) :
    s.ConsumedOnce j (j / s.elems_per_block) where
  block := s.last_block lanes inside
  once := by
    have mine := (s.in_block_iff lanes (j / s.elems_per_block) j).mpr ⟨inside, rfl⟩
    rcases s.consumed_cases lanes (j / s.elems_per_block) j with ⟨_, _, once⟩ | ⟨outside, _⟩
    · exact once
    · exact absurd mine outside
  alone other different := by
    rcases s.consumed_cases lanes other j with ⟨after, before, _⟩ | ⟨_, none⟩
    · exact absurd ((s.in_block_iff lanes other j).mp ⟨after, before⟩).2.symm different
    · exact none

theorem past_end (lanes : 1 ≤ s.scalar_count) {block_idx : Nat} (past : s.n ≤ s.begin_ block_idx) :
    s.loads block_idx = [] ∧ s.tail block_idx = [] := by
  have none : s.end_ block_idx - s.begin_ block_idx = 0 := by
    have := s.end_le block_idx
    omega
  have vectors : s.vectors block_idx = 0 := by rw [Shape.vectors, none, Nat.zero_div]
  rw [s.loads_eq lanes, tail, s.rest_eq lanes, vectors]
  simp [none]

/-- Every index is consumed once, by one block, and nothing else is read: the vectors stay inside
the arrays, the scalar loops too, and the blocks past the end are empty. -/
theorem tiles (s : Shape) (lanes : 1 ≤ s.scalar_count) :
    (∀ j < s.n, ∃ block_idx, s.ConsumedOnce j block_idx) ∧
      (∀ block_idx < s.block_count, (∀ i ∈ s.loads block_idx, i + s.scalar_count ≤ s.n) ∧
        ∀ i ∈ s.tail block_idx, i < s.n) ∧
      ∀ block_idx < s.block_count, s.n ≤ s.begin_ block_idx →
        s.loads block_idx = [] ∧ s.tail block_idx = [] :=
  ⟨fun _ inside => ⟨_, s.consumed_once lanes inside⟩,
    fun block_idx _ => ⟨fun _ load => Nat.le_trans (s.load_below lanes load) (s.end_le block_idx),
      fun _ => s.tail_below⟩,
    fun _ _ => s.past_end lanes⟩

/-- Nine elements, four threads and two lanes: blocks of three, and the fourth begins at the end. -/
theorem tiles_nine : (∃ block_idx, (⟨9, 4, 2⟩ : Shape).ConsumedOnce 8 block_idx) ∧
    (⟨9, 4, 2⟩ : Shape).loads 3 = [] ∧ (⟨9, 4, 2⟩ : Shape).tail 3 = [] := by
  have tiled := tiles ⟨9, 4, 2⟩ (by decide)
  exact ⟨tiled.1 8 (by decide), tiled.2.2 3 (by decide) (by decide)⟩

/-- A sum or a product in size_t. -/
def size_t (v : Nat) : Nat := v % 2 ^ 64

theorem size_t_eq {v : Nat} (small : v < 2 ^ 64) : size_t v = v := Nat.mod_eq_of_lt small

def machineElems (s : Shape) : Nat :=
  max s.scalar_count (size_t (s.n + s.block_count - 1) / s.block_count)

def machineBegin (s : Shape) (block_idx : Nat) : Nat := size_t (block_idx * s.machineElems)

def machineEnd (s : Shape) (block_idx : Nat) : Nat :=
  min s.n (size_t (s.machineBegin block_idx + s.machineElems))

def machineLoop (s : Shape) (end_ : Nat) : Nat → Nat → List Nat × Nat
  | 0, i => ([], i)
  | rounds + 1, i =>
    if size_t (i + s.scalar_count) ≤ end_ then
      (i :: (s.machineLoop end_ rounds (size_t (i + s.scalar_count))).1,
        (s.machineLoop end_ rounds (size_t (i + s.scalar_count))).2)
    else ([], i)

section Machine
variable {s : Shape} (some : 0 < s.n) (small : s.n < 2 ^ 63)
include some small

/-- Rounding the blocks up at most doubles the arrays. -/
theorem blocks_reach (narrow : s.scalar_count < 2 ^ 64) :
    s.block_count * s.elems_per_block < 2 ^ 64 := by
  have few : s.block_count ≤ max 1 (s.n / s.scalar_count) := Nat.min_le_right ..
  have fewer : s.n / s.scalar_count ≤ s.n := Nat.div_le_self ..
  have rounded : s.block_count * ((s.n + s.block_count - 1) / s.block_count) ≤
      s.n + s.block_count - 1 := Nat.mul_div_le ..
  have whole : s.block_count * s.scalar_count ≤ max 1 (s.n / s.scalar_count) * s.scalar_count :=
    Nat.mul_le_mul_right _ few
  have divided : s.n / s.scalar_count * s.scalar_count ≤ s.n := Nat.div_mul_le_self ..
  rw [← Nat.mul_max_mul_right, Nat.one_mul] at whole
  rw [elems_per_block, ← Nat.mul_max_mul_left]
  omega

theorem machineElems_eq : s.machineElems = s.elems_per_block := by
  have few : s.block_count ≤ max 1 (s.n / s.scalar_count) := Nat.min_le_right ..
  have fewer : s.n / s.scalar_count ≤ s.n := Nat.div_le_self ..
  rw [machineElems, size_t_eq (by omega), elems_per_block]

theorem bounds_exact (narrow : s.scalar_count < 2 ^ 64) {block_idx : Nat}
    (block : block_idx < s.block_count) :
    s.machineBegin block_idx = s.begin_ block_idx ∧ s.machineEnd block_idx = s.end_ block_idx ∧
      s.begin_ block_idx + s.elems_per_block < 2 ^ 64 := by
  have reach := blocks_reach some small narrow
  have row : (block_idx + 1) * s.elems_per_block ≤ s.block_count * s.elems_per_block :=
    Nat.mul_le_mul_right _ block
  rw [Nat.succ_mul] at row
  have begins : s.machineBegin block_idx = s.begin_ block_idx := by
    rw [machineBegin, machineElems_eq some small, size_t_eq (by omega), begin_]
  have inside : s.begin_ block_idx + s.elems_per_block < 2 ^ 64 := Nat.lt_of_le_of_lt row reach
  refine ⟨begins, ?_, inside⟩
  rw [machineEnd, begins, machineElems_eq some small, size_t_eq inside, end_]

omit some small in
theorem loop_exact {end_ : Nat} (narrow : end_ + s.scalar_count < 2 ^ 64) (rounds i : Nat)
    (here : i + s.scalar_count < 2 ^ 64) : s.machineLoop end_ rounds i = s.loop end_ rounds i := by
  induction rounds generalizing i with
  | zero => rfl
  | succ rounds ih =>
    unfold machineLoop loop
    rw [size_t_eq here]
    split
    · rw [ih (i + s.scalar_count) (by omega)]
    · rfl

/-- No sum or product of the blocks of an array leaves size_t. -/
theorem machine_exact (narrow : s.n + s.scalar_count < 2 ^ 64) {block_idx : Nat}
    (block : block_idx < s.block_count) (rounds : Nat) :
    s.machineEnd block_idx = s.end_ block_idx ∧
      s.machineLoop (s.machineEnd block_idx) rounds (s.machineBegin block_idx) =
        s.loop (s.end_ block_idx) rounds (s.begin_ block_idx) := by
  obtain ⟨begins, ends, inside⟩ := bounds_exact some small (by omega) block
  have below := s.end_le block_idx
  have wide : s.scalar_count ≤ s.elems_per_block := Nat.le_max_left ..
  rw [begins, ends]
  exact ⟨rfl, loop_exact (by omega) rounds _ (by omega)⟩

end Machine

/-- The last of two blocks of ten elements on four lanes. -/
theorem machine_exact_last :
    (⟨10, 3, 4⟩ : Shape).machineEnd 1 = 10 ∧
      (⟨10, 3, 4⟩ : Shape).machineLoop ((⟨10, 3, 4⟩ : Shape).machineEnd 1) 10
        ((⟨10, 3, 4⟩ : Shape).machineBegin 1) = ([5], 9) :=
  machine_exact (s := ⟨10, 3, 4⟩) (by decide) (by decide) (by decide) (by decide) 10

end Pot.ReduceSimd.Shape
