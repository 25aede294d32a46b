import Mathlib.Data.BitVec

/-! Short words packed side by side in a long one, and the operations of the long word against
those of the short ones. -/
namespace PackedLanes

/-- The i-th word of `u` bits, the lowest first. -/
def lane {W : Nat} (u : Nat) (x : BitVec W) (i : Nat) : BitVec u := x.extractLsb' (u * i) u

variable {W u n : Nat}

theorem lane_toNat (x : BitVec W) (i : Nat) : (lane u x i).toNat = x.toNat / 2 ^ (u * i) % 2 ^ u := by
  rw [lane, BitVec.extractLsb'_toNat, Nat.shiftRight_eq_div_pow]

theorem lane_getLsbD (x : BitVec W) (i k : Nat) :
    (lane u x i).getLsbD k = (decide (k < u) && x.getLsbD (u * i + k)) := by
  rw [lane, BitVec.getLsbD_extractLsb']

theorem lane_self (x : BitVec u) : lane u x 0 = x := BitVec.extractLsb'_eq_self

theorem lane_append_zero {V : Nat} (x : BitVec V) (y : BitVec u) : lane u (x ++ y) 0 = y := by
  refine BitVec.eq_of_getLsbD_eq fun k short => ?_
  rw [lane_getLsbD, BitVec.getLsbD_append]
  simp [short]

theorem lane_append_succ {V : Nat} (x : BitVec V) (y : BitVec u) (i : Nat) :
    lane u (x ++ y) (i + 1) = lane u x i := by
  refine BitVec.eq_of_getLsbD_eq fun k short => ?_
  have place : u * (i + 1) + k = u + (u * i + k) := by rw [Nat.mul_succ]; omega
  have beyond : ¬ u + (u * i + k) < u := by omega
  rw [lane_getLsbD, lane_getLsbD, BitVec.getLsbD_append, place]
  simp [beyond]

theorem lane_lane {V : Nat} (x : BitVec V) (W_eq : W = u * n) {g j : Nat} (inside : j < n) :
    lane u (lane W x g) j = lane u x (n * g + j) := by
  refine BitVec.eq_of_getLsbD_eq fun k short => ?_
  have room : u * j + u ≤ u * n := by
    rw [← Nat.mul_succ]
    exact Nat.mul_le_mul_left u inside
  have place : W * g + (u * j + k) = u * (n * g + j) + k := by
    rw [W_eq, Nat.mul_add, Nat.mul_assoc, Nat.add_assoc]
  have fits : u * j + k < W := by omega
  rw [lane_getLsbD, lane_getLsbD, lane_getLsbD, place, decide_eq_true fits, Bool.true_and]

theorem eq_iff_lanes (W_eq : W = u * n) (x y : BitVec W) :
    x = y ↔ ∀ j, j < n → lane u x j = lane u y j := by
  refine ⟨fun same j _ => by rw [same], fun lanes => ?_⟩
  refine BitVec.eq_of_getLsbD_eq fun i inside => ?_
  have positive : 0 < u := Nat.pos_of_ne_zero fun zero => by simp [W_eq, zero] at inside
  have place : i / u < n := Nat.div_lt_of_lt_mul (W_eq ▸ inside)
  have bit := congrArg (fun z => z.getLsbD (i % u)) (lanes (i / u) place)
  simp only [lane_getLsbD, decide_eq_true (Nat.mod_lt i positive), Bool.true_and,
    Nat.div_add_mod] at bit
  exact bit

/-- The carry into the i-th word. -/
def carry (u x y i : Nat) : Nat := (x % 2 ^ (u * i) + y % 2 ^ (u * i)) / 2 ^ (u * i)

theorem carry_zero (u x y : Nat) : carry u x y 0 = 0 := by
  simp [carry, Nat.mod_one]

theorem carry_succ (u x y i : Nat) : carry u x y (i + 1) =
    (x / 2 ^ (u * i) % 2 ^ u + y / 2 ^ (u * i) % 2 ^ u + carry u x y i) / 2 ^ u := by
  have split : 2 ^ (u * (i + 1)) = 2 ^ (u * i) * 2 ^ u := by rw [Nat.mul_succ, Nat.pow_add]
  have positive : 0 < 2 ^ (u * i) := Nat.two_pow_pos _
  have parts : x % 2 ^ (u * i) + 2 ^ (u * i) * (x / 2 ^ (u * i) % 2 ^ u) +
      (y % 2 ^ (u * i) + 2 ^ (u * i) * (y / 2 ^ (u * i) % 2 ^ u)) =
      x % 2 ^ (u * i) + y % 2 ^ (u * i) +
        2 ^ (u * i) * (x / 2 ^ (u * i) % 2 ^ u + y / 2 ^ (u * i) % 2 ^ u) := by
    rw [Nat.mul_add]
    omega
  rw [carry, carry, split, Nat.mod_mul, Nat.mod_mul, ← Nat.div_div_eq_div_mul, parts,
    Nat.add_mul_div_left _ _ positive, Nat.add_comm]

theorem sum_digit (u x y i : Nat) : (x + y) / 2 ^ (u * i) % 2 ^ u =
    (x / 2 ^ (u * i) % 2 ^ u + y / 2 ^ (u * i) % 2 ^ u + carry u x y i) % 2 ^ u := by
  have positive : 0 < 2 ^ (u * i) := Nat.two_pow_pos _
  have parts : x + y = x % 2 ^ (u * i) + y % 2 ^ (u * i) +
      2 ^ (u * i) * (x / 2 ^ (u * i) + y / 2 ^ (u * i)) := by
    rw [Nat.mul_add]
    have := Nat.mod_add_div x (2 ^ (u * i))
    have := Nat.mod_add_div y (2 ^ (u * i))
    omega
  have quotient : (x + y) / 2 ^ (u * i) = carry u x y i + (x / 2 ^ (u * i) + y / 2 ^ (u * i)) := by
    rw [carry, ← Nat.add_mul_div_left _ _ positive, ← parts]
  rw [quotient, Nat.add_comm (carry u x y i), Nat.add_mod (x / 2 ^ (u * i) + y / 2 ^ (u * i)),
    Nat.add_mod (x / 2 ^ (u * i)), ← Nat.add_mod _ (carry u x y i)]

/-- No carry as far as the short sums are right, and conversely. -/
theorem carry_eq_zero_iff (u x y i : Nat) : (∀ j, j ≤ i → carry u x y j = 0) ↔
    ∀ j, j < i → x / 2 ^ (u * j) % 2 ^ u + y / 2 ^ (u * j) % 2 ^ u < 2 ^ u := by
  have positive : 0 < 2 ^ u := Nat.two_pow_pos _
  constructor
  · intro none j before
    have next := none (j + 1) before
    rw [carry_succ, none j (Nat.le_of_lt before), Nat.add_zero, Nat.div_eq_zero_iff] at next
    exact next.resolve_left (Nat.ne_of_gt positive)
  · intro short j below
    induction j with
    | zero => exact carry_zero u x y
    | succ j ih =>
      rw [carry_succ, ih (by omega), Nat.add_zero]
      exact Nat.div_eq_of_lt (short j below)

theorem carry_le_one (u x y i : Nat) : carry u x y i ≤ 1 := by
  have positive : 0 < 2 ^ (u * i) := Nat.two_pow_pos _
  have := Nat.mod_lt x positive
  have := Nat.mod_lt y positive
  unfold carry
  exact Nat.le_of_lt_succ ((Nat.div_lt_iff_lt_mul positive).mpr (by omega))

theorem digit_mod {i : Nat} (inside : i < n) (z : Nat) :
    z % 2 ^ (u * n) / 2 ^ (u * i) % 2 ^ u = z / 2 ^ (u * i) % 2 ^ u := by
  have split : u * n = u * i + u * (n - i) := by rw [← Nat.mul_add, Nat.add_sub_of_le (Nat.le_of_lt inside)]
  have longer : u ≤ u * (n - i) := Nat.le_mul_of_pos_right u (Nat.sub_pos_of_lt inside)
  rw [split, Nat.pow_add, Nat.mod_mul_right_div_self,
    Nat.mod_mod_of_dvd _ (Nat.pow_dvd_pow 2 longer)]

theorem lane_add (W_eq : W = u * n) (x y : BitVec W) {i : Nat} (inside : i < n) :
    lane u (x + y) i =
      lane u x i + lane u y i + BitVec.ofNat u (carry u x.toNat y.toNat i) := by
  subst W_eq
  refine BitVec.eq_of_toNat_eq ?_
  rw [lane_toNat, BitVec.toNat_add, digit_mod inside, sum_digit, BitVec.toNat_add,
    BitVec.toNat_add, lane_toNat, lane_toNat, BitVec.toNat_ofNat, ← Nat.add_mod]

/-- The sum of two words is that of their lanes when no lane but the last has a carry. -/
theorem lane_add_iff (W_eq : W = u * n) (long : 0 < u) (x y : BitVec W) :
    (∀ j, j < n → lane u (x + y) j = lane u x j + lane u y j) ↔
      ∀ j, j + 1 < n → (lane u x j).toNat + (lane u y j).toNat < 2 ^ u := by
  have exact_iff : ∀ j, j < n → (lane u (x + y) j = lane u x j + lane u y j ↔
      carry u x.toNat y.toNat j = 0) := by
    intro j inside
    have small : carry u x.toNat y.toNat j < 2 ^ u :=
      Nat.lt_of_le_of_lt (carry_le_one ..) (Nat.one_lt_two_pow (Nat.ne_of_gt long))
    rw [lane_add W_eq x y inside, BitVec.add_right_eq_self, ← BitVec.toNat_inj, BitVec.toNat_ofNat,
      Nat.mod_eq_of_lt small, BitVec.toNat_zero]
  simp only [lane_toNat]
  constructor
  · intro lanes j inside
    refine (carry_eq_zero_iff u x.toNat y.toNat (j + 1)).mp (fun k below => ?_) j j.lt_succ_self
    exact (exact_iff k (by omega)).mp (lanes k (by omega))
  · intro short j inside
    refine (exact_iff j inside).mpr ?_
    refine (carry_eq_zero_iff u x.toNat y.toNat j).mpr (fun k below => ?_) j (Nat.le_refl j)
    exact short k (by omega)

theorem lane_not (W_eq : W = u * n) (x : BitVec W) {i : Nat} (inside : i < n) :
    lane u (~~~x) i = ~~~lane u x i := by
  refine BitVec.eq_of_getLsbD_eq fun k short => ?_
  have room : u * i + u ≤ u * n := by
    rw [← Nat.mul_succ]
    exact Nat.mul_le_mul_left u inside
  have fits : u * i + k < W := by omega
  rw [lane_getLsbD, BitVec.getLsbD_not, BitVec.getLsbD_not, lane_getLsbD, decide_eq_true short,
    decide_eq_true fits]
  simp

/-- The difference of two words is that of their lanes when no lane but the last borrows. -/
theorem lane_sub_iff (W_eq : W = u * n) (long : 0 < u) (x y : BitVec W) :
    (∀ j, j < n → lane u (x - y) j = lane u x j - lane u y j) ↔
      ∀ j, j + 1 < n → (lane u y j).toNat ≤ (lane u x j).toNat := by
  -- x - y is the complement of the sum of y and the complement of x
  have sum : ∀ {v} (z w : BitVec v), z - w = ~~~(~~~z + w) := fun z w => by
    rw [BitVec.not_add_eq_not_neg, BitVec.not_not]
  have lanes : (∀ j, j < n → lane u (x - y) j = lane u x j - lane u y j) ↔
      ∀ j, j < n → lane u (~~~x + y) j = lane u (~~~x) j + lane u y j := by
    refine forall₂_congr fun j inside => ?_
    rw [sum x y, sum (lane u x j), lane_not W_eq _ inside, BitVec.not_inj, lane_not W_eq _ inside]
  rw [lanes, lane_add_iff W_eq long]
  refine forall₂_congr fun j inside => ?_
  have := (lane u x j).isLt
  rw [lane_not W_eq _ (by omega), BitVec.toNat_not]
  omega

theorem lane_and (x y : BitVec W) (i : Nat) : lane u (x &&& y) i = lane u x i &&& lane u y i :=
  BitVec.extractLsb'_and

theorem lane_or (x y : BitVec W) (i : Nat) : lane u (x ||| y) i = lane u x i ||| lane u y i :=
  BitVec.extractLsb'_or

theorem lane_xor (x y : BitVec W) (i : Nat) : lane u (x ^^^ y) i = lane u x i ^^^ lane u y i :=
  BitVec.extractLsb'_xor

theorem lane_zero (i : Nat) : lane u (0 : BitVec W) i = 0 := BitVec.extractLsb'_zero

/-- What an extension has beyond the word it extends. -/
theorem lane_setWidth_succ (x : BitVec u) (i : Nat) : lane u (x.setWidth W) (i + 1) = 0 := by
  refine BitVec.eq_of_getLsbD_eq fun k short => ?_
  have far : u ≤ u * (i + 1) := Nat.le_mul_of_pos_right u i.succ_pos
  have beyond : u ≤ u * (i + 1) + k := by omega
  rw [lane_getLsbD, BitVec.getLsbD_setWidth, BitVec.getLsbD_of_ge x _ beyond]
  simp

theorem lane_signExtend_succ (W_eq : W = u * n) (x : BitVec u) {i : Nat} (inside : i + 1 < n) :
    lane u (x.signExtend W) (i + 1) = if x.msb then BitVec.allOnes u else 0 := by
  refine BitVec.eq_of_getLsbD_eq fun k short => ?_
  have far : u ≤ u * (i + 1) := Nat.le_mul_of_pos_right u i.succ_pos
  have room : u * (i + 1) + u ≤ u * n := by
    rw [← Nat.mul_succ]
    exact Nat.mul_le_mul_left u inside
  have beyond : ¬ u * (i + 1) + k < u := by omega
  have fits : u * (i + 1) + k < W := by omega
  rw [lane_getLsbD, BitVec.getLsbD_signExtend, if_neg beyond, decide_eq_true short,
    decide_eq_true fits]
  cases x.msb <;> simp [short]

theorem lane_extend_zero (W_eq : W = u * n) (some : 0 < n) (x : BitVec u) :
    lane u (x.setWidth W) 0 = x ∧ lane u (x.signExtend W) 0 = x := by
  have room : u ≤ W := W_eq ▸ Nat.le_mul_of_pos_right u some
  constructor
  · refine BitVec.eq_of_getLsbD_eq fun k short => ?_
    have fits : k < W := by omega
    rw [lane_getLsbD, BitVec.getLsbD_setWidth, decide_eq_true short, Nat.mul_zero, Nat.zero_add,
      decide_eq_true fits, Bool.true_and, Bool.true_and]
  · refine BitVec.eq_of_getLsbD_eq fun k short => ?_
    have fits : k < W := by omega
    rw [lane_getLsbD, BitVec.getLsbD_signExtend, decide_eq_true short, Nat.mul_zero, Nat.zero_add,
      decide_eq_true fits, if_pos short, Bool.true_and, Bool.true_and]

/-- The words whose zero extension repeats them. -/
theorem lanes_setWidth (W_eq : W = u * n) (many : 1 < n) (x : BitVec u) :
    (∀ j, j < n → lane u (x.setWidth W) j = x) ↔ x = 0 := by
  constructor
  · intro all
    rw [← all 1 many, lane_setWidth_succ]
  · intro zero j short
    cases j with
    | zero => exact (lane_extend_zero W_eq (by omega) x).1
    | succ i => rw [lane_setWidth_succ, zero]

/-- The words whose sign extension repeats them. -/
theorem lanes_signExtend (W_eq : W = u * n) (long : 0 < u) (many : 1 < n) (x : BitVec u) :
    (∀ j, j < n → lane u (x.signExtend W) j = x) ↔ x = 0 ∨ x = BitVec.allOnes u := by
  constructor
  · intro all
    have high := all 1 many
    rw [lane_signExtend_succ W_eq x many] at high
    split at high
    · exact .inr high.symm
    · exact .inl high.symm
  · intro even j short
    cases j with
    | zero => exact (lane_extend_zero W_eq (by omega) x).2
    | succ i =>
      rw [lane_signExtend_succ W_eq x short]
      rcases even with zero | ones
      · have plus : x.msb = false := by rw [zero]; exact BitVec.msb_zero
        rw [plus, zero]
        rfl
      · have minus : x.msb = true := by rw [ones]; simp [BitVec.msb_allOnes, long]
        rw [minus, ones]
        rfl

end PackedLanes
