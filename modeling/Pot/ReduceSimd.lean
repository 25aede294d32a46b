import Mathlib.Algebra.BigOperators.Fin
import Pot.LaneSums
import Pot.Reduce

/-! elementwise_reduce_simd (algorithms/reduce.h). A block adds whole vectors up lane by lane, then
joins the lanes and what is left of the block with reduce_op. -/
namespace Pot.ReduceSimd

structure Shape where
  n : Nat
  thread_count : Nat
  scalar_count : Nat

namespace Shape

def block_count (s : Shape) : Nat := min (max 1 s.thread_count) (max 1 (s.n / s.scalar_count))

def elems_per_block (s : Shape) : Nat :=
  max s.scalar_count ((s.n + s.block_count - 1) / s.block_count)

def begin_ (s : Shape) (block_idx : Nat) : Nat := block_idx * s.elems_per_block

def end_ (s : Shape) (block_idx : Nat) : Nat := min s.n (s.begin_ block_idx + s.elems_per_block)

/-- The loop over whole vectors: where each begins, and where the loop ends. A round for each
index is more than enough. -/
def loop (s : Shape) (end_ : Nat) : Nat → Nat → List Nat × Nat
  | 0, i => ([], i)
  | rounds + 1, i =>
    if i + s.scalar_count ≤ end_ then
      (i :: (s.loop end_ rounds (i + s.scalar_count)).1,
        (s.loop end_ rounds (i + s.scalar_count)).2)
    else ([], i)

def loads (s : Shape) (block_idx : Nat) : List Nat :=
  (s.loop (s.end_ block_idx) (s.end_ block_idx) (s.begin_ block_idx)).1

def rest (s : Shape) (block_idx : Nat) : Nat :=
  (s.loop (s.end_ block_idx) (s.end_ block_idx) (s.begin_ block_idx)).2

/-- The scalar loop goes on from there. -/
def tail (s : Shape) (block_idx : Nat) : List Nat :=
  List.range' (s.rest block_idx) (s.end_ block_idx - s.rest block_idx)

end Shape

/-- simd_forced: a value for each lane. -/
abbrev Register (s : Shape) (α : Type) := Fin s.scalar_count → α

structure Call (T R : Type) extends Shape where
  a : Nat → T
  b : Nat → T
  simd_elem_op : Register toShape T → Register toShape T → Register toShape R
  scalar_elem_op : T → T → R
  reduce_op : R → R → R
  identity : R

variable {T R : Type}

def loadu (s : Shape) (ptr : Nat → T) (i : Nat) : Register s T := fun k => ptr (i + k)

section Model
variable [Zero R] [Add R]

def Call.lanes (c : Call T R) (block_idx : Nat) : Register c.toShape R :=
  (c.loads block_idx).foldl
    (fun sum i => sum + c.simd_elem_op (loadu c.toShape c.a i) (loadu c.toShape c.b i)) 0

def Call.sum (c : Call T R) (block_idx : Nat) : R :=
  (c.tail block_idx).foldl
    (fun block_sum i => c.reduce_op block_sum (c.scalar_elem_op (c.a i) (c.b i)))
    ((List.finRange c.scalar_count).foldl
      (fun block_sum k => c.reduce_op block_sum (c.lanes block_idx k)) c.identity)

def Call.Returns (c : Call T R) (result : R) : Prop :=
  if c.n = 0 then result = c.identity
  else Reduce.Results c.block_count c.thread_count c.reduce_op c.identity c.sum result

end Model

/-- elementwise_reduce on the same arguments. -/
def Call.scalar (c : Call T R) : Reduce.Call T R :=
  ⟨c.a, c.b, c.n, c.scalar_elem_op, c.reduce_op, c.identity, c.thread_count⟩

def Call.elem (c : Call T R) (i : Nat) : R := c.scalar_elem_op (c.a i) (c.b i)

def Call.Lanewise (c : Call T R) : Prop :=
  ∀ (x y : Register c.toShape T) (k : Fin c.scalar_count),
    c.simd_elem_op x y k = c.scalar_elem_op (x k) (y k)

namespace Shape
variable (s : Shape)

def vectors (block_idx : Nat) : Nat := (s.end_ block_idx - s.begin_ block_idx) / s.scalar_count

theorem loop_eq (lanes : 1 ≤ s.scalar_count) (end_ rounds i : Nat)
    (enough : (end_ - i) / s.scalar_count ≤ rounds) :
    s.loop end_ rounds i = ((List.range ((end_ - i) / s.scalar_count)).map
      fun j => i + j * s.scalar_count, i + (end_ - i) / s.scalar_count * s.scalar_count) := by
  induction rounds generalizing i with
  | zero =>
    rw [Nat.le_zero.mp enough, loop]
    simp
  | succ rounds ih =>
    unfold loop
    split
    · rename_i fits
      have more : (end_ - i) / s.scalar_count =
          (end_ - (i + s.scalar_count)) / s.scalar_count + 1 := by
        have split : end_ - i = end_ - (i + s.scalar_count) + s.scalar_count := by omega
        rw [split, Nat.add_div_right _ lanes]
      rw [ih (i + s.scalar_count) (by omega), more, List.range_succ_eq_map]
      simp only [List.map_cons, List.map_map, Nat.zero_mul, Nat.add_zero, Function.comp_def,
        Nat.succ_eq_add_one, Nat.add_mul, Nat.one_mul]
      have shift : ∀ j, i + s.scalar_count + j = i + (j + s.scalar_count) := fun j => by omega
      simp only [shift]
    · have none : (end_ - i) / s.scalar_count = 0 := Nat.div_eq_of_lt (by omega)
      rw [none]
      simp

theorem loads_eq (lanes : 1 ≤ s.scalar_count) (b : Nat) :
    s.loads b = (List.range (s.vectors b)).map fun j => s.begin_ b + j * s.scalar_count := by
  have enough : (s.end_ b - s.begin_ b) / s.scalar_count ≤ s.end_ b :=
    Nat.le_trans (Nat.div_le_self ..) (Nat.sub_le ..)
  rw [loads, s.loop_eq lanes _ _ _ enough, vectors]

theorem rest_eq (lanes : 1 ≤ s.scalar_count) (b : Nat) :
    s.rest b = s.begin_ b + s.vectors b * s.scalar_count := by
  have enough : (s.end_ b - s.begin_ b) / s.scalar_count ≤ s.end_ b :=
    Nat.le_trans (Nat.div_le_self ..) (Nat.sub_le ..)
  rw [rest, s.loop_eq lanes _ _ _ enough, vectors]

theorem block_count_pos : 1 ≤ s.block_count :=
  Nat.le_min.mpr ⟨Nat.le_max_left .., Nat.le_max_left ..⟩

theorem blocks_cover : s.n ≤ s.block_count * s.elems_per_block := by
  have split := Nat.div_add_mod (s.n + s.block_count - 1) s.block_count
  have rest := Nat.mod_lt (s.n + s.block_count - 1) s.block_count_pos
  have large : s.block_count * ((s.n + s.block_count - 1) / s.block_count) ≤
      s.block_count * s.elems_per_block := Nat.mul_le_mul_left _ (Nat.le_max_right ..)
  omega

theorem block_split (b : Nat) :
    s.end_ b - s.begin_ b = s.vectors b * s.scalar_count +
      (s.end_ b - (s.begin_ b + s.vectors b * s.scalar_count)) := by
  have fits := Nat.div_mul_le_self (s.end_ b - s.begin_ b) s.scalar_count
  rw [← vectors] at fits
  omega

theorem tail_short (lanes : 1 ≤ s.scalar_count) (b : Nat) :
    s.end_ b - (s.begin_ b + s.vectors b * s.scalar_count) < s.scalar_count := by
  have split := Nat.div_add_mod' (s.end_ b - s.begin_ b) s.scalar_count
  have rest := Nat.mod_lt (s.end_ b - s.begin_ b) lanes
  rw [← vectors] at split
  omega

theorem block_short (b : Nat) : s.end_ b - s.begin_ b ≤ s.elems_per_block := by
  have := Nat.min_le_right s.n (s.begin_ b + s.elems_per_block)
  unfold end_
  omega

/-- A vector ends where its block ends, and no block goes on beyond the arrays. -/
theorem load_below (lanes : 1 ≤ s.scalar_count) {block_idx i : Nat}
    (load : i ∈ s.loads block_idx) : i + s.scalar_count ≤ s.end_ block_idx := by
  rw [s.loads_eq lanes] at load
  obtain ⟨j, member, rfl⟩ := List.mem_map.mp load
  have row : (j + 1) * s.scalar_count ≤ s.vectors block_idx * s.scalar_count :=
    Nat.mul_le_mul_right _ (List.mem_range.mp member)
  have fits : s.vectors block_idx * s.scalar_count ≤ s.end_ block_idx - s.begin_ block_idx :=
    Nat.div_mul_le_self ..
  have some := Nat.le_mul_of_pos_left s.scalar_count (Nat.succ_pos j)
  rw [Nat.succ_mul] at row
  omega

theorem end_le (block_idx : Nat) : s.end_ block_idx ≤ s.n := Nat.min_le_left ..

theorem tail_below {block_idx i : Nat} (member : i ∈ s.tail block_idx) : i < s.n := by
  have inside := List.mem_range'_1.mp member
  have := s.end_le block_idx
  omega

theorem blocks_flatten : (List.range s.block_count).flatMap
    (fun b => List.range' (s.begin_ b) (s.end_ b - s.begin_ b)) = List.range s.n := by
  refine (Folds.blocks_flatten s.n s.elems_per_block s.block_count).trans ?_
  rw [Nat.min_eq_left s.blocks_cover]

/-- The elements of one lane of a block, and the product of its tail. -/
def lane (x : Nat → R) (b k : Nat) : List R :=
  (List.range (s.vectors b)).map fun j => x (s.begin_ b + j * s.scalar_count + k)

section Product
variable [CommMonoid R] (x : Nat → R)

def remainder (b : Nat) : R := ((s.tail b).map x).prod

theorem block_product (lanes : 1 ≤ s.scalar_count) (b : Nat) :
    ((List.range' (s.begin_ b) (s.end_ b - s.begin_ b)).map x).prod =
      (∏ k ∈ Finset.range s.scalar_count, (s.lane x b k).prod) * s.remainder x b := by
  have windows := LaneSums.prod_windows (fun i => x (s.begin_ b + i)) s.scalar_count (s.vectors b)
  have joined : List.range' (s.begin_ b) (s.vectors b * s.scalar_count) ++
      List.range' (s.begin_ b + 1 * (s.vectors b * s.scalar_count))
        (s.end_ b - (s.begin_ b + s.vectors b * s.scalar_count)) = List.range' (s.begin_ b)
          (s.vectors b * s.scalar_count +
            (s.end_ b - (s.begin_ b + s.vectors b * s.scalar_count))) := List.range'_append
  rw [Nat.one_mul, ← s.block_split b] at joined
  rw [← joined, List.map_append, List.prod_append, remainder, tail, s.rest_eq lanes]
  congr 1
  rw [List.range'_eq_map_range, List.map_map, LaneSums.prod_range]
  refine windows.trans (Finset.prod_congr rfl fun k _ => ?_)
  simp only [lane, Nat.add_assoc]

theorem products_eq (lanes : 1 ≤ s.scalar_count) :
    LaneSums.products s.block_count s.scalar_count (s.lane x) (s.remainder x) =
      ∏ i ∈ Finset.range s.n, x i := by
  rw [← LaneSums.prod_range, ← s.blocks_flatten, List.map_flatMap, List.flatMap_def,
    List.prod_flatten, List.map_map, LaneSums.prod_range, LaneSums.products]
  exact Finset.prod_congr rfl fun b _ => (s.block_product x lanes b).symm

end Product
end Shape

section Sum
variable [AddCommMonoid R]

theorem lanes_eq (c : Call T R) (lanewise : c.Lanewise) (lanes : 1 ≤ c.scalar_count) (b : Nat)
    (k : Fin c.scalar_count) : c.lanes b k = (c.lane c.elem b k).sum := by
  rw [Call.lanes, LaneSums.foldl_register, c.loads_eq lanes, List.map_map, Shape.lane]
  congr 1
  refine List.map_congr_left fun j _ => ?_
  exact lanewise ..

variable [CommMonoid R]

/-- With a product for reduce_op a block is the product of the lanes' sums and of its tail. -/
theorem sum_eq (c : Call T R) (mul : c.reduce_op = fun x y => x * y) (one : c.identity = 1)
    (lanewise : c.Lanewise) (lanes : 1 ≤ c.scalar_count) (b : Nat) : c.sum b =
      (∏ k ∈ Finset.range c.scalar_count, (c.lane c.elem b k).sum) * c.remainder c.elem b := by
  rw [Call.sum, mul, one, LaneSums.foldl_mul, LaneSums.foldl_mul, one_mul, Shape.remainder]
  congr 1
  rw [Finset.prod_range, Fin.prod_univ_def]
  exact congrArg List.prod (List.map_congr_left fun k _ => lanes_eq c lanewise lanes b k)

theorem returns_iff (c : Call T R) (mul : c.reduce_op = fun x y => x * y) (one : c.identity = 1)
    (lanewise : c.Lanewise) (lanes : 1 ≤ c.scalar_count) (threads : 1 ≤ c.thread_count)
    (some : c.n ≠ 0) (result : R) : c.Returns result ↔ result =
      LaneSums.sums c.block_count c.scalar_count (c.lane c.elem) (c.remainder c.elem) := by
  rw [Call.Returns, if_neg some, Reduce.results_iff c.block_count_pos threads, mul, one,
    LaneSums.sums, ← List.prod_eq_foldl, LaneSums.prod_range]
  simp only [sum_eq c mul one lanewise lanes]

end Sum

/-- For a shape and an operator, whatever the elements are. -/
def Agrees [AddCommMonoid R] (s : Shape) (reduce_op : R → R → R) (identity : R) : Prop :=
  ∀ (T : Type) (a b : Nat → T) (simd_elem_op : Register s T → Register s T → Register s R)
    (scalar_elem_op : T → T → R),
    (⟨s, a, b, simd_elem_op, scalar_elem_op, reduce_op, identity⟩ : Call T R).Lanewise →
    ∀ result,
      (⟨s, a, b, simd_elem_op, scalar_elem_op, reduce_op, identity⟩ : Call T R).Returns result ↔
      (⟨s, a, b, simd_elem_op, scalar_elem_op, reduce_op, identity⟩ : Call T R).scalar.Returns
        result

/-- An array of identities comes out as identity, and where a lane adds elements up, the addition
is reduce_op but for what it makes of two identities. -/
structure Balances [AddCommMonoid R] (s : Shape) (reduce_op : R → R → R) (identity : R) :
    Prop where
  identities : ((List.range s.block_count).flatMap fun b =>
    List.replicate s.scalar_count (s.vectors b • identity)).foldl reduce_op identity = identity
  pairs : (∃ b < s.block_count, 2 ≤ s.vectors b) →
    ∀ x y, x + y = reduce_op (reduce_op x y) (identity + identity)

section Agreement
variable [CommMonoid R] {s : Shape}

theorem scalar_returns_iff (c : Call T R) (mul : c.reduce_op = fun x y => x * y)
    (one : c.identity = 1) (lanes : 1 ≤ c.scalar_count) (threads : 1 ≤ c.thread_count)
    (result : R) : c.scalar.Returns result ↔ result =
      LaneSums.products c.block_count c.scalar_count (c.lane c.elem) (c.remainder c.elem) := by
  have associative : Std.Associative c.scalar.reduce_op := by
    rw [Call.scalar, mul]
    exact ⟨mul_assoc⟩
  have identity : Std.LawfulIdentity c.scalar.reduce_op c.scalar.identity := by
    rw [Call.scalar, mul, one]
    exact { left_id := one_mul, right_id := mul_one }
  rw [Reduce.returns_iff c.scalar threads, c.products_eq c.elem lanes, Reduce.Call.sequential]
  simp only [Call.scalar, mul, one]
  rw [LaneSums.foldl_mul, one_mul, LaneSums.prod_range]
  rfl

/-- The array whose elements are 1 outside the first lane of one block. -/
def probe (s : Shape) (block : Nat) (l : List R) (i : Nat) : R :=
  if i / s.elems_per_block = block ∧ i % s.elems_per_block % s.scalar_count = 0 then
    l.getD (i % s.elems_per_block / s.scalar_count) 1
  else 1

theorem probe_at (lanes : 1 ≤ s.scalar_count) (block : Nat) (l : List R) {b j k : Nat}
    (inside : j * s.scalar_count + k < s.elems_per_block) (lane : k < s.scalar_count) :
    probe s block l (s.begin_ b + j * s.scalar_count + k) =
      if b = block ∧ k = 0 then l.getD j 1 else 1 := by
  have place : (s.begin_ b + j * s.scalar_count + k) / s.elems_per_block = b := by
    rw [Shape.begin_, Nat.add_assoc, Nat.add_comm, Nat.add_mul_div_right _ _ (by omega),
      Nat.div_eq_of_lt inside, Nat.zero_add]
  have offset : (s.begin_ b + j * s.scalar_count + k) % s.elems_per_block =
      j * s.scalar_count + k := by
    rw [Shape.begin_, Nat.add_assoc, Nat.add_comm, Nat.add_mul_mod_self_right,
      Nat.mod_eq_of_lt inside]
  have row : (j * s.scalar_count + k) / s.scalar_count = j := by
    rw [Nat.add_comm, Nat.add_mul_div_right _ _ lanes, Nat.div_eq_of_lt lane, Nat.zero_add]
  have column : (j * s.scalar_count + k) % s.scalar_count = k := by
    rw [Nat.add_comm, Nat.add_mul_mod_self_right, Nat.mod_eq_of_lt lane]
  rw [probe, place, offset, row, column]

theorem probe_lane (lanes : 1 ≤ s.scalar_count) {block : Nat} {l : List R}
    (length : l.length = s.vectors block) (b : Nat) {k : Nat} (lane : k < s.scalar_count) :
    s.lane (probe s block l) b k = LaneSums.probe s.vectors block l b k := by
  have values : s.lane (probe s block l) b k = (List.range (s.vectors b)).map fun j =>
      if b = block ∧ k = 0 then l.getD j 1 else 1 := by
    refine List.map_congr_left fun j member => probe_at lanes block l ?_ lane
    have short := s.block_short b
    have split := s.block_split b
    have row : (j + 1) * s.scalar_count ≤ s.vectors b * s.scalar_count :=
      Nat.mul_le_mul_right _ (List.mem_range.mp member)
    rw [Nat.succ_mul] at row
    omega
  rw [values, LaneSums.probe]
  split
  · rename_i here
    rw [here.1, ← length]
    refine List.ext_getElem (by simp) fun j _ inside => ?_
    simp [inside]
  · simp [List.map_const']

theorem probe_remainder (lanes : 1 ≤ s.scalar_count) {block : Nat} {l : List R}
    (length : l.length = s.vectors block) (b : Nat) : s.remainder (probe s block l) b = 1 := by
  rw [Shape.remainder]
  refine List.prod_eq_one fun x member => ?_
  obtain ⟨i, inside, rfl⟩ := List.mem_map.mp member
  rw [Shape.tail, s.rest_eq lanes, List.mem_range'_1] at inside
  obtain ⟨k, rfl⟩ := Nat.exists_eq_add_of_le inside.1
  have short := s.block_short b
  have split := s.block_split b
  have tail := s.tail_short lanes b
  rw [probe_at lanes block l (by omega) (by omega)]
  split
  · rename_i here
    rw [here.1, ← length, List.getD_eq_default _ _ (le_refl _)]
  · rfl

variable [AddCommMonoid R]

def productCall (s : Shape) (x : Nat → R) : Call R R :=
  ⟨s, x, x, fun v _ => v, fun v _ => v, fun x y => x * y, 1⟩

/-- With a product for reduce_op: the sums of the lanes are to make the product of their products,
for all elements. -/
theorem agrees_products (threads : 1 ≤ s.thread_count) (lanes : 1 ≤ s.scalar_count)
    (some : s.n ≠ 0) : Agrees s (fun x y : R => x * y) 1 ↔ ∀ x : Nat → R,
      LaneSums.sums s.block_count s.scalar_count (s.lane x) (s.remainder x) =
        LaneSums.products s.block_count s.scalar_count (s.lane x) (s.remainder x) := by
  constructor
  · intro agrees x
    have lanewise : (productCall s x).Lanewise := fun _ _ _ => rfl
    have both := agrees R x x (fun v _ => v) (fun v _ => v) lanewise
    have returned := (returns_iff (productCall s x) rfl rfl lanewise lanes threads some _).mpr rfl
    exact (scalar_returns_iff (productCall s x) rfl rfl lanes threads _).mp ((both _).mp returned)
  · intro same T a b simd_elem_op scalar_elem_op lanewise result
    rw [returns_iff _ rfl rfl lanewise lanes threads some,
      scalar_returns_iff _ rfl rfl lanes threads, same]

theorem products_agree_iff (lanes : 1 ≤ s.scalar_count) : (∀ x : Nat → R,
      LaneSums.sums s.block_count s.scalar_count (s.lane x) (s.remainder x) =
        LaneSums.products s.block_count s.scalar_count (s.lane x) (s.remainder x)) ↔
    LaneSums.ones (R := R) s.block_count s.scalar_count s.vectors = 1 ∧
      ((∃ b < s.block_count, 2 ≤ s.vectors b) → LaneSums.Factors R) := by
  constructor
  · intro same
    have ones : LaneSums.ones (R := R) s.block_count s.scalar_count s.vectors = 1 := by
      refine LaneSums.ones_eq_one ?_
      have constant := same fun _ => 1
      have values : s.lane (fun _ => (1 : R)) = fun b _ => List.replicate (s.vectors b) 1 := by
        funext b k
        simp [Shape.lane, List.map_const']
      have rest : s.remainder (fun _ => (1 : R)) = 1 := by
        funext b
        simp [Shape.remainder]
      rw [values, rest] at constant
      exact constant
    refine ⟨ones, fun ⟨block, inside, many⟩ => LaneSums.factors_of_sums many fun l length => ?_⟩
    refine LaneSums.sum_of_probe inside lanes ones ?_
    have probed := same (probe s block l)
    have sums : LaneSums.sums s.block_count s.scalar_count (s.lane (probe s block l))
        (s.remainder (probe s block l)) =
          LaneSums.sums s.block_count s.scalar_count (LaneSums.probe s.vectors block l) 1 :=
      Finset.prod_congr rfl fun b _ => by
        rw [probe_remainder lanes length, Pi.one_apply, Finset.prod_congr rfl fun k lane => by
          rw [probe_lane lanes length b (Finset.mem_range.mp lane)]]
    have products : LaneSums.products s.block_count s.scalar_count (s.lane (probe s block l))
        (s.remainder (probe s block l)) =
          LaneSums.products s.block_count s.scalar_count (LaneSums.probe s.vectors block l) 1 :=
      Finset.prod_congr rfl fun b _ => by
        rw [probe_remainder lanes length, Pi.one_apply, Finset.prod_congr rfl fun k lane => by
          rw [probe_lane lanes length b (Finset.mem_range.mp lane)]]
    rw [← sums, ← products, probed]
  · rintro ⟨ones, factors⟩ x
    rw [LaneSums.sums_eq (s.lane x) (s.remainder x), ones, mul_one]
    intro b inside k _
    have length : (s.lane x b k).length = s.vectors b := by
      rw [Shape.lane, List.length_map, List.length_range]
    rw [← length]
    rcases Nat.lt_or_ge (s.vectors b) 2 with few | many
    · exact LaneSums.sum_short (by omega)
    · exact LaneSums.sum_factors (factors ⟨b, inside, many⟩) _

theorem balances_iff : Balances s (fun x y : R => x * y) 1 ↔
    LaneSums.ones (R := R) s.block_count s.scalar_count s.vectors = 1 ∧
      ((∃ b < s.block_count, 2 ≤ s.vectors b) → LaneSums.Factors R) := by
  have folded : ((List.range s.block_count).flatMap fun b =>
      List.replicate s.scalar_count (s.vectors b • (1 : R))).foldl (fun x y => x * y) 1 =
        LaneSums.ones (R := R) s.block_count s.scalar_count s.vectors := by
    rw [← List.prod_eq_foldl, List.flatMap_def, List.prod_flatten, List.map_map,
      LaneSums.prod_range, LaneSums.ones]
    exact Finset.prod_congr rfl fun b _ => List.prod_replicate ..
  constructor
  · exact fun balances => ⟨folded ▸ balances.identities, balances.pairs⟩
  · exact fun both => ⟨folded.trans both.1, both.2⟩

theorem agrees_mul_iff (threads : 1 ≤ s.thread_count) (lanes : 1 ≤ s.scalar_count) :
    Agrees s (fun x y : R => x * y) 1 ↔ (s.n ≠ 0 → Balances s (fun x y : R => x * y) 1) := by
  by_cases some : s.n = 0
  · refine ⟨fun _ nonzero => absurd some nonzero, fun _ => ?_⟩
    intro T a b simd_elem_op scalar_elem_op _ result
    rw [Call.Returns, if_pos some, Reduce.Call.Returns]
    exact (if_pos (c := s.n = 0) some).symm ▸ Iff.rfl
  · rw [agrees_products threads lanes some, products_agree_iff lanes, ← balances_iff]
    exact ⟨fun balances _ => balances, fun balances => balances some⟩

end Agreement

theorem agrees_add [AddCommMonoid R] (s : Shape) (threads : 1 ≤ s.thread_count)
    (lanes : 1 ≤ s.scalar_count) : Agrees s (fun x y : R => x + y) 0 := by
  let _ : CommMonoid R :=
    { mul := fun x y => x + y
      one := 0
      mul_assoc := add_assoc
      mul_comm := add_comm
      one_mul := zero_add
      mul_one := add_zero }
  refine (agrees_mul_iff (R := R) threads lanes).mpr fun _ => ⟨?_, fun _ x y => ?_⟩
  · refine Folds.fold_identities fun v member => ?_
    obtain ⟨b, -, inside⟩ := List.mem_flatMap.mp member
    exact (List.eq_of_mem_replicate inside).trans (nsmul_zero _)
  · exact ((congrArg (x + y + ·) (add_zero (0 : R))).trans (add_zero (x + y))).symm

/-- The vectors are added up with +, whatever reduce_op is. For one shape this agrees with the
scalar reduction exactly where the shape balances, and for all shapes only if reduce_op is +. -/
theorem agrees_iff [AddCommMonoid R] (reduce_op : R → R → R) (identity : R)
    [Std.Associative reduce_op] [Std.Commutative reduce_op]
    [Std.LawfulIdentity reduce_op identity] :
    (∀ s : Shape, 1 ≤ s.thread_count → 1 ≤ s.scalar_count →
      (Agrees s reduce_op identity ↔ (s.n ≠ 0 → Balances s reduce_op identity))) ∧
    ((∀ s : Shape, 1 ≤ s.thread_count → 1 ≤ s.scalar_count → Agrees s reduce_op identity) ↔
      ∀ x y, reduce_op x y = x + y) := by
  have left : ∀ x, reduce_op identity x = x := Std.LawfulLeftIdentity.left_id
  have right : ∀ x, reduce_op x identity = x := Std.LawfulRightIdentity.right_id
  let _ : CommMonoid R :=
    { mul := reduce_op
      one := identity
      mul_assoc := Std.Associative.assoc
      mul_comm := Std.Commutative.comm
      one_mul := left
      mul_one := right }
  have single : ∀ s : Shape, 1 ≤ s.thread_count → 1 ≤ s.scalar_count →
      (Agrees s reduce_op identity ↔ (s.n ≠ 0 → Balances s reduce_op identity)) :=
    fun s threads lanes => agrees_mul_iff threads lanes
  refine ⟨single, fun agrees x y => ?_, fun plus s threads lanes => ?_⟩
  · have balances := (single ⟨2, 1, 1⟩ (le_refl 1) (le_refl 1)).mp
      (agrees ⟨2, 1, 1⟩ (le_refl 1) (le_refl 1)) two_ne_zero
    have twice : reduce_op identity (2 • identity) = identity := balances.identities
    rw [left, two_nsmul] at twice
    have pair := balances.pairs ⟨0, by decide, by decide⟩ x y
    rw [twice, right] at pair
    exact pair.symm
  · have zero : identity = 0 := by
      rw [← add_zero identity, ← plus, left]
    rw [zero, funext fun x => funext (plus x)]
    exact agrees_add s threads lanes

/-- Two lanes of + with an identity of 0: any array of five. -/
theorem agrees_iff_sum : Agrees (R := Int) ⟨5, 2, 2⟩ (· + ·) 0 :=
  ((agrees_iff (R := Int) (· + ·) 0).2.mpr fun _ _ => rfl) ⟨5, 2, 2⟩ (by decide) (by decide)

def threes : Call Int Int :=
  ⟨⟨8, 1, 4⟩, fun _ => 3, fun _ => 1, fun x y => x * y, (· * ·), (· * ·), 1⟩

theorem product_of_sums : Std.Associative threes.reduce_op ∧ Std.Commutative threes.reduce_op ∧
    Std.LawfulIdentity threes.reduce_op threes.identity ∧ threes.Lanewise ∧
    threes.Returns 1296 ∧ ¬ threes.scalar.Returns 1296 ∧ threes.scalar.Returns 6561 := by
  have lanewise : threes.Lanewise := fun _ _ _ => rfl
  have simd := returns_iff threes rfl rfl lanewise (by decide) (by decide) (by decide)
  have scalar := scalar_returns_iff threes rfl rfl (by decide) (by decide)
  refine ⟨⟨mul_assoc⟩, ⟨mul_comm⟩, { left_id := one_mul, right_id := mul_one }, lanewise, ?_⟩
  rw [simd, scalar, scalar]
  refine ⟨?_, ?_, ?_⟩ <;> decide

end Pot.ReduceSimd
