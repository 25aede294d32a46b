import Pot.PackedLanes

/-! simd_forced<T, SSE> (simd/simd_traits.h, simd/simd_forced.h) and simd_auto<T, 128 / w>
(simd/simd_auto.h) on the integer types. The intrinsics are those of the processor's manual, on
registers of 128 bits; scalars are taken modulo 2^w. -/
namespace Pot.SimdInteger
open PackedLanes

inductive Scalar where
  | int8 | uint8 | int16 | uint16 | int32 | uint32 | int64 | uint64
  deriving DecidableEq

def Scalar.bits : Scalar → Nat
  | .int8 | .uint8 => 8
  | .int16 | .uint16 => 16
  | .int32 | .uint32 => 32
  | .int64 | .uint64 => 64

def Scalar.signed : Scalar → Bool
  | .int8 | .int16 | .int32 | .int64 => true
  | .uint8 | .uint16 | .uint32 | .uint64 => false

abbrev Value (T : Scalar) := BitVec T.bits

def Scalar.less (T : Scalar) (x y : Value T) : Bool := if T.signed then x.slt y else x.ult y

def toInt (T : Scalar) (value : Value T) : BitVec 32 :=
  if T.signed then value.signExtend 32 else value.setWidth 32

section Intrinsics

abbrev M128i := BitVec 128

def lanes32 (f : Nat → BitVec 32) : M128i := f 3 ++ f 2 ++ f 1 ++ f 0

def lanes64 (f : Nat → BitVec 64) : M128i := f 1 ++ f 0

def epi32 (f : BitVec 32 → BitVec 32 → BitVec 32) (a b : M128i) : M128i :=
  lanes32 fun i => f (lane 32 a i) (lane 32 b i)

def mm_set1_epi32 (a : BitVec 32) : M128i := lanes32 fun _ => a

def mm_add_epi32 : M128i → M128i → M128i := epi32 (· + ·)

def mm_sub_epi32 : M128i → M128i → M128i := epi32 (· - ·)

def mm_max_epi32 : M128i → M128i → M128i := epi32 fun x y => if y.slt x then x else y

def mm_min_epi32 : M128i → M128i → M128i := epi32 fun x y => if x.slt y then x else y

/-- The low signed halves of the 64-bit lanes are multiplied. -/
def mm_mul_epi32 (a b : M128i) : M128i :=
  lanes64 fun i => (lane 32 a (2 * i)).signExtend 64 * (lane 32 b (2 * i)).signExtend 64

def mm_and_si128 (a b : M128i) : M128i := a &&& b

def mm_or_si128 (a b : M128i) : M128i := a ||| b

def mm_xor_si128 (a b : M128i) : M128i := a ^^^ b

end Intrinsics

/-! simd_traits<T, SSE>, where vector_type is __m128i. -/

def set1 (T : Scalar) (value : Value T) : M128i := mm_set1_epi32 (toInt T value)

def max (a b : M128i) : M128i := mm_max_epi32 a b

def min (a b : M128i) : M128i := mm_min_epi32 a b

def abs (a : M128i) : M128i := mm_and_si128 a (mm_set1_epi32 (-0))

def add (a b : M128i) : M128i := mm_add_epi32 a b

def sub (a b : M128i) : M128i := mm_sub_epi32 a b

def mul (a b : M128i) : M128i := mm_mul_epi32 a b

def and_ (a b : M128i) : M128i := mm_and_si128 a b

def or_ (a b : M128i) : M128i := mm_or_si128 a b

def xor_ (a b : M128i) : M128i := mm_xor_si128 a b

/-- The operations the two classes have in common. -/
inductive Op where
  | broadcast | add | sub | mul | and_ | or_ | xor_ | max | min | abs
  deriving DecidableEq

def forced (T : Scalar) (v : Value T) (a b : M128i) : Op → M128i
  | .broadcast => set1 T v
  | .add => add a b
  | .sub => sub a b
  | .mul => mul a b
  | .and_ => and_ a b
  | .or_ => or_ a b
  | .xor_ => xor_ a b
  | .max => max a b
  | .min => min a b
  | .abs => abs a

def element (T : Scalar) (v x y : Value T) : Op → Value T
  | .broadcast => v
  | .add => x + y
  | .sub => x - y
  | .mul => x * y
  | .and_ => x &&& y
  | .or_ => x ||| y
  | .xor_ => x ^^^ y
  | .max => if T.less x y then y else x
  | .min => if T.less y x then y else x
  | .abs => if x.msb then -x else x

abbrev SimdAuto (T : Scalar) := Fin (128 / T.bits) → Value T

def auto (T : Scalar) (v : Value T) (x y : SimdAuto T) (op : Op) : SimdAuto T :=
  fun i => element T v (x i) (y i) op

/-- The lanes of a register, as data() shows them. -/
def data (T : Scalar) (a : M128i) : SimdAuto T := fun i => lane T.bits a i

/-- std::abs is for the signed types. -/
def Has (T : Scalar) (op : Op) : Prop := op = .abs → T.signed = true

def Agrees (T : Scalar) (op : Op) (v : Value T) (a b : M128i) : Prop :=
  data T (forced T v a b op) = auto T v (data T a) (data T b) op

/-- The types and operations for which the intrinsic on 32-bit lanes is the right one. -/
def Right (T : Scalar) : Op → Prop
  | .and_ | .or_ | .xor_ => True
  | .broadcast | .add | .sub => T.bits = 32
  | .max | .min => T = .int32
  | .mul | .abs => False

/-- The bits that a lane of T and a lane of the intrinsics have in common. -/
def unit (T : Scalar) : Nat := Nat.min T.bits 32

/-- How many units make the longer of the two lanes. -/
def parts (T : Scalar) : Nat := Nat.max T.bits 32 / unit T

/-- The lanes of T and the lanes of the intrinsics choose the same operand, wherever the choice
matters. -/
def Alike (T : Scalar) (a b : M128i) : Prop :=
  ∀ k, k < 128 / unit T → lane (unit T) a k = lane (unit T) b k ∨
    (lane 32 a (unit T * k / 32)).slt (lane 32 b (unit T * k / 32)) =
      T.less (lane T.bits a (unit T * k / T.bits)) (lane T.bits b (unit T * k / T.bits))

/-- When an operation other than the product is right on the given operands. -/
def Safe (T : Scalar) (v : Value T) (a b : M128i) : Op → Prop
  | .broadcast => (T.bits < 32 → v = 0 ∨ T.signed = true ∧ v = BitVec.allOnes T.bits) ∧
      (T.bits = 64 → lane 32 v 0 = lane 32 v 1)
  | .add => ∀ k, k < 128 / unit T → (k + 1) % parts T ≠ 0 →
      (lane (unit T) a k).toNat + (lane (unit T) b k).toNat < 2 ^ unit T
  | .sub => ∀ k, k < 128 / unit T → (k + 1) % parts T ≠ 0 →
      (lane (unit T) b k).toNat ≤ (lane (unit T) a k).toNat
  | .max | .min => Alike T a b
  | .abs => a = 0
  | .and_ | .or_ | .xor_ => True
  | .mul => False

instance (T : Scalar) (a b : M128i) : Decidable (Alike T a b) :=
  inferInstanceAs (Decidable (∀ k, k < _ → _ ∨ _))

instance (T : Scalar) (v : Value T) (a b : M128i) : (op : Op) → Decidable (Safe T v a b op)
  | .broadcast => inferInstanceAs (Decidable ((_ → _ ∨ _ ∧ _) ∧ (_ → _)))
  | .add | .sub => inferInstanceAs (Decidable (∀ k, k < _ → _ → _))
  | .max | .min => inferInstanceAs (Decidable (Alike T a b))
  | .abs => inferInstanceAs (Decidable (a = 0))
  | .and_ | .or_ | .xor_ => .isTrue trivial
  | .mul => .isFalse id

theorem lane_lanes32 (f : Nat → BitVec 32) {i : Nat} (inside : i < 4) :
    lane 32 (lanes32 f) i = f i := by
  change lane (W := 32 + 32 + 32 + 32) 32 (f 3 ++ f 2 ++ f 1 ++ f 0) i = f i
  obtain rfl | rfl | rfl | rfl : i = 0 ∨ i = 1 ∨ i = 2 ∨ i = 3 := by omega
  · rw [lane_append_zero]
  · rw [lane_append_succ, lane_append_zero]
  · rw [lane_append_succ, lane_append_succ, lane_append_zero]
  · rw [lane_append_succ, lane_append_succ, lane_append_succ, lane_self]

theorem lane_epi32 (f : BitVec 32 → BitVec 32 → BitVec 32) (a b : M128i) {i : Nat} (inside : i < 4) :
    lane 32 (epi32 f a b) i = f (lane 32 a i) (lane 32 b i) :=
  lane_lanes32 _ inside

theorem agrees_iff_lanes (T : Scalar) (op : Op) (v : Value T) (a b : M128i) : Agrees T op v a b ↔
    ∀ k, k < 128 / T.bits → lane T.bits (forced T v a b op) k =
      element T v (lane T.bits a k) (lane T.bits b k) op := by
  rw [Agrees, funext_iff, Fin.forall_iff]
  rfl

theorem forall_blocks {m n : Nat} {P : Nat → Prop} :
    (∀ k, k < n * m → P k) ↔ ∀ g, g < m → ∀ j, j < n → P (n * g + j) := by
  constructor
  · intro all g inside j short
    have : n * (g + 1) ≤ n * m := Nat.mul_le_mul_left n inside
    rw [Nat.mul_succ] at this
    exact all _ (by omega)
  · intro all k inside
    have positive : 0 < n := Nat.pos_of_ne_zero fun zero => by simp [zero] at inside
    rw [← Nat.div_add_mod k n]
    exact all _ (Nat.div_lt_of_lt_mul inside) _ (Nat.mod_lt k positive)

theorem forall_inner {m n : Nat} {P : Nat → Prop} :
    (∀ k, k < n * m → (k + 1) % n ≠ 0 → P k) ↔
      ∀ g, g < m → ∀ j, j + 1 < n → P (n * g + j) := by
  have inner : ∀ g j, j < n → ((n * g + j + 1) % n ≠ 0 ↔ j + 1 < n) := by
    intro g j short
    rw [Nat.add_assoc, Nat.mul_add_mod]
    rcases Nat.lt_or_eq_of_le (Nat.succ_le_of_lt short) with less | last
    · simp [Nat.mod_eq_of_lt less, less]
    · have last : j + 1 = n := last
      simp [last]
  rw [forall_blocks]
  refine forall₂_congr fun g inside => ?_
  constructor
  · intro all j less
    exact all j (by omega) ((inner g j (by omega)).mpr less)
  · intro all j short odd
    exact all j ((inner g j short).mp odd)

theorem narrow_iff {u n : Nat} (split : 32 = u * n) {F : M128i} (a b : M128i)
    {f : BitVec u → BitVec u → BitVec u} {G : BitVec 32 → BitVec 32 → BitVec 32}
    (groups : ∀ g, g < 4 → lane 32 F g = G (lane 32 a g) (lane 32 b g)) :
    (∀ k, k < n * 4 → lane u F k = f (lane u a k) (lane u b k)) ↔
      ∀ g, g < 4 → ∀ j, j < n → lane u (G (lane 32 a g) (lane 32 b g)) j =
        f (lane u (lane 32 a g) j) (lane u (lane 32 b g) j) := by
  rw [forall_blocks]
  refine forall₂_congr fun g inside => forall₂_congr fun j short => ?_
  rw [← lane_lane F split short, ← lane_lane a split short, ← lane_lane b split short,
    groups g inside]

theorem wide_iff {F : M128i} (a b : M128i)
    {f : BitVec 64 → BitVec 64 → BitVec 64} {G : BitVec 32 → BitVec 32 → BitVec 32}
    (groups : ∀ g, g < 4 → lane 32 F g = G (lane 32 a g) (lane 32 b g)) :
    (∀ k, k < 2 → lane 64 F k = f (lane 64 a k) (lane 64 b k)) ↔
      ∀ g, g < 2 → ∀ j, j < 2 → G (lane 32 (lane 64 a g) j) (lane 32 (lane 64 b g) j) =
        lane 32 (f (lane 64 a g) (lane 64 b g)) j := by
  have split : 64 = 32 * 2 := rfl
  refine forall₂_congr fun g inside => ?_
  rw [eq_iff_lanes split]
  refine forall₂_congr fun j short => ?_
  rw [lane_lane F split short, lane_lane a split short, lane_lane b split short,
    groups _ (by omega)]

/-- An operation on words that is right on their lanes but for what leaves the lanes below the
last. -/
theorem agrees_inner {T : Scalar} {op : Op} {v : Value T} {a b : M128i}
    {f : (u : Nat) → BitVec u → BitVec u → BitVec u} {R : (u : Nat) → BitVec u → BitVec u → Prop}
    (groups : ∀ g, g < 4 → lane 32 (forced T v a b op) g = f 32 (lane 32 a g) (lane 32 b g))
    (elements : ∀ x y, element T v x y op = f T.bits x y)
    (word : ∀ {W u n : Nat}, W = u * n → 0 < u → ∀ x y : BitVec W,
      (∀ j, j < n → lane u (f W x y) j = f u (lane u x j) (lane u y j)) ↔
        ∀ j, j + 1 < n → R u (lane u x j) (lane u y j)) :
    Agrees T op v a b ↔ ∀ k, k < 128 / unit T → (k + 1) % parts T ≠ 0 →
      R (unit T) (lane (unit T) a k) (lane (unit T) b k) := by
  have narrow : ∀ {u n : Nat}, 32 = u * n → 0 < u →
      ((∀ k, k < n * 4 → lane u (forced T v a b op) k = f u (lane u a k) (lane u b k)) ↔
        ∀ k, k < n * 4 → (k + 1) % n ≠ 0 → R u (lane u a k) (lane u b k)) := by
    intro u n split long
    refine (narrow_iff split a b groups).trans (Iff.trans ?_ forall_inner.symm)
    refine forall₂_congr fun g inside => (word split long _ _).trans ?_
    refine forall₂_congr fun j short => ?_
    rw [lane_lane a split (by omega), lane_lane b split (by omega)]
  have wide : (∀ k, k < 2 → lane 64 (forced T v a b op) k = f 64 (lane 64 a k) (lane 64 b k)) ↔
      ∀ k, k < 2 * 2 → (k + 1) % 2 ≠ 0 → R 32 (lane 32 a k) (lane 32 b k) := by
    have split : 64 = 32 * 2 := rfl
    refine (wide_iff a b groups).trans (Iff.trans ?_ forall_inner.symm)
    refine forall₂_congr fun g inside => ?_
    have turned := word split (by decide) (lane 64 a g) (lane 64 b g)
    refine (forall₂_congr fun j _ => eq_comm).trans (turned.trans ?_)
    refine forall₂_congr fun j short => ?_
    rw [lane_lane a split (by omega), lane_lane b split (by omega)]
  rw [agrees_iff_lanes]
  simp only [elements]
  cases T with
  | int8 | uint8 => exact narrow (u := 8) (n := 4) rfl (by decide)
  | int16 | uint16 => exact narrow (u := 16) (n := 2) rfl (by decide)
  | int32 | uint32 => exact narrow (u := 32) (n := 1) rfl (by decide)
  | int64 | uint64 => exact wide

theorem agrees_add (T : Scalar) (v : Value T) (a b : M128i) :
    Agrees T .add v a b ↔ Safe T v a b .add :=
  agrees_inner (f := fun _ x y => x + y) (R := fun u x y => x.toNat + y.toNat < 2 ^ u)
    (fun _ inside => lane_epi32 _ a b inside) (fun _ _ => rfl) lane_add_iff

theorem agrees_sub (T : Scalar) (v : Value T) (a b : M128i) :
    Agrees T .sub v a b ↔ Safe T v a b .sub :=
  agrees_inner (f := fun _ x y => x - y) (R := fun _ x y => y.toNat ≤ x.toNat)
    (fun _ inside => lane_epi32 _ a b inside) (fun _ _ => rfl) lane_sub_iff

/-- The first of two words when the comparison comes out as `first`. -/
def pick {u : Nat} (first p : Bool) (x y : BitVec u) : BitVec u := if p = first then x else y

theorem lane_pick {W u : Nat} (first p : Bool) (x y : BitVec W) (j : Nat) :
    lane u (pick first p x y) j = pick first p (lane u x j) (lane u y j) := by
  simp only [pick]
  split <;> rfl

theorem pick_eq_iff {u : Nat} (first p q : Bool) (x y : BitVec u) :
    pick first p x y = pick first q x y ↔ x = y ∨ p = q := by
  cases first <;> cases p <;> cases q <;> simp [pick, eq_comm]

/-- An operation that chooses one of the operands by comparing them. -/
theorem agrees_pick {T : Scalar} {op : Op} {v : Value T} {a b : M128i} (first : Bool)
    (groups : ∀ g, g < 4 → lane 32 (forced T v a b op) g =
      pick first ((lane 32 a g).slt (lane 32 b g)) (lane 32 a g) (lane 32 b g))
    (elements : ∀ x y, element T v x y op = pick first (T.less x y) x y) :
    Agrees T op v a b ↔ Alike T a b := by
  have narrow : ∀ {u n : Nat} {less : BitVec u → BitVec u → Bool}, 32 = u * n → 0 < u →
      ((∀ k, k < n * 4 → lane u (forced T v a b op) k =
          pick first (less (lane u a k) (lane u b k)) (lane u a k) (lane u b k)) ↔
        ∀ k, k < n * 4 → lane u a k = lane u b k ∨
          (lane 32 a (u * k / 32)).slt (lane 32 b (u * k / 32)) =
            less (lane u a (u * k / u)) (lane u b (u * k / u))) := by
    intro u n less split long
    refine forall₂_congr fun k inside => ?_
    have positive : 0 < n := Nat.pos_of_ne_zero fun zero => by simp [zero] at inside
    have group : u * k / 32 = k / n := by rw [split, Nat.mul_div_mul_left _ _ long]
    have place : lane u (lane 32 (forced T v a b op) (k / n)) (k % n) =
        lane u (forced T v a b op) k := by
      rw [lane_lane _ split (Nat.mod_lt k positive), Nat.div_add_mod]
    rw [← place, groups _ (Nat.div_lt_of_lt_mul inside), lane_pick,
      lane_lane _ split (Nat.mod_lt k positive), lane_lane _ split (Nat.mod_lt k positive),
      Nat.div_add_mod, pick_eq_iff, group, Nat.mul_div_cancel_left k long]
  have wide : ∀ {less : BitVec 64 → BitVec 64 → Bool},
      ((∀ k, k < 2 → lane 64 (forced T v a b op) k =
          pick first (less (lane 64 a k) (lane 64 b k)) (lane 64 a k) (lane 64 b k)) ↔
        ∀ k, k < 2 * 2 → lane 32 a k = lane 32 b k ∨
          (lane 32 a (32 * k / 32)).slt (lane 32 b (32 * k / 32)) =
            less (lane 64 a (32 * k / 64)) (lane 64 b (32 * k / 64))) := by
    intro less
    have split : 64 = 32 * 2 := rfl
    refine (wide_iff a b (G := fun x y => pick first (x.slt y) x y)
      (f := fun x y => pick first (less x y) x y) groups).trans (Iff.trans ?_ forall_blocks.symm)
    refine forall₂_congr fun g inside => forall₂_congr fun j short => ?_
    have half : 32 * (2 * g + j) / 32 = 2 * g + j := by omega
    have whole : 32 * (2 * g + j) / 64 = g := by omega
    rw [lane_pick, lane_lane a split short, lane_lane b split short, pick_eq_iff, half, whole]
  rw [agrees_iff_lanes]
  simp only [elements]
  cases T with
  | int8 | uint8 => exact narrow (u := 8) (n := 4) rfl (by decide)
  | int16 | uint16 => exact narrow (u := 16) (n := 2) rfl (by decide)
  | int32 | uint32 => exact narrow (u := 32) (n := 1) rfl (by decide)
  | int64 | uint64 => exact wide

theorem slt_asymm {u : Nat} {x y : BitVec u} (different : x ≠ y) : y.slt x = !x.slt y := by
  have order : x.toInt ≠ y.toInt := fun same => different (BitVec.eq_of_toInt_eq same)
  rw [BitVec.slt_eq_decide, BitVec.slt_eq_decide, ← decide_not]
  exact decide_eq_decide.mpr (by omega)

theorem less_asymm (T : Scalar) {x y : Value T} (different : x ≠ y) :
    T.less y x = !T.less x y := by
  have order : x.toNat ≠ y.toNat := fun same => different (BitVec.eq_of_toNat_eq same)
  simp only [Scalar.less]
  split
  · exact slt_asymm different
  · rw [BitVec.ult_eq_decide, BitVec.ult_eq_decide, ← decide_not]
    exact decide_eq_decide.mpr (by omega)

theorem agrees_max (T : Scalar) (v : Value T) (a b : M128i) :
    Agrees T .max v a b ↔ Safe T v a b .max := by
  refine agrees_pick false (fun g inside => ?_) fun x y => ?_
  · refine (lane_epi32 (fun x y => if y.slt x then x else y) a b inside).trans ?_
    by_cases same : lane 32 a g = lane 32 b g
    · simp [pick, same]
    · simp [pick, slt_asymm same]
  · cases h : T.less x y <;> simp [pick, element, h]

theorem agrees_min (T : Scalar) (v : Value T) (a b : M128i) :
    Agrees T .min v a b ↔ Safe T v a b .min := by
  refine agrees_pick true (fun g inside => ?_) fun x y => ?_
  · exact lane_epi32 (fun x y => if x.slt y then x else y) a b inside
  · by_cases same : x = y
    · simp [pick, element, same]
    · cases h : T.less x y <;> simp [pick, element, less_asymm T same, h]

theorem agrees_bits (T : Scalar) (v : Value T) (a b : M128i) :
    Agrees T .and_ v a b ∧ Agrees T .or_ v a b ∧ Agrees T .xor_ v a b := by
  simp only [agrees_iff_lanes]
  exact ⟨fun k _ => lane_and a b k, fun k _ => lane_or a b k, fun k _ => lane_xor a b k⟩

theorem abs_eq_zero (a : M128i) : abs a = 0 := by
  have mask : mm_set1_epi32 (-0) = 0 := by decide
  rw [abs, mm_and_si128, mask]
  exact BitVec.and_zero

theorem agrees_abs (T : Scalar) (v : Value T) (a b : M128i) :
    Agrees T .abs v a b ↔ Safe T v a b .abs := by
  have magnitude : ∀ x : Value T, 0 = element T v x x .abs ↔ x = 0 := by
    intro x
    simp only [element]
    split
    · exact eq_comm.trans BitVec.neg_eq_zero_iff
    · exact eq_comm
  have split : 128 = T.bits * (128 / T.bits) := by cases T <;> rfl
  rw [agrees_iff_lanes, Safe, eq_iff_lanes split]
  refine forall₂_congr fun k _ => ?_
  rw [forced, abs_eq_zero, lane_zero]
  exact magnitude _

theorem narrow_broadcast {u n : Nat} (split : 32 = u * n) {c : M128i} {x : BitVec 32}
    (groups : ∀ g, g < 4 → lane 32 c g = x) (v : BitVec u) :
    (∀ k, k < n * 4 → lane u c k = v) ↔ ∀ j, j < n → lane u x j = v := by
  rw [forall_blocks]
  constructor
  · intro all j short
    rw [← all 0 (by decide) j short, ← lane_lane c split short, groups 0 (by decide)]
  · intro all g inside j short
    rw [← lane_lane c split short, groups g inside, all j short]

theorem wide_broadcast {c : M128i} {x : BitVec 32} (groups : ∀ g, g < 4 → lane 32 c g = x)
    (v : BitVec 64) (low : x = lane 32 v 0) :
    (∀ k, k < 2 → lane 64 c k = v) ↔ lane 32 v 0 = lane 32 v 1 := by
  have split : 64 = 32 * 2 := rfl
  have halves : ∀ k, k < 2 → (lane 64 c k = v ↔ lane 32 v 0 = lane 32 v 1) := by
    intro k inside
    rw [eq_iff_lanes split]
    constructor
    · intro both
      rw [← both 1 (by decide), lane_lane c split (by decide), groups _ (by omega), low]
    · intro same j short
      rw [lane_lane c split short, groups _ (by omega), low]
      obtain rfl | rfl : j = 0 ∨ j = 1 := by omega
      · rfl
      · exact same
  exact ⟨fun all => (halves 0 (by decide)).mp (all 0 (by decide)),
    fun same k inside => (halves k inside).mpr same⟩

theorem agrees_broadcast (T : Scalar) (v : Value T) (a b : M128i) :
    Agrees T .broadcast v a b ↔ Safe T v a b .broadcast := by
  have groups : ∀ g, g < 4 → lane 32 (set1 T v) g = toInt T v :=
    fun g inside => lane_lanes32 (fun _ => toInt T v) inside
  have short : ∀ {w : Nat} {P Q : Prop}, w < 32 → (P ↔ (w < 32 → P) ∧ (w = 64 → Q)) :=
    fun less => ⟨fun h => ⟨fun _ => h, fun wide => absurd wide (by omega)⟩, fun h => h.1 less⟩
  have signed : ∀ {P Q : Prop}, (P ∨ Q ↔ P ∨ true = true ∧ Q) := by simp
  have unsigned : ∀ {P Q : Prop}, (P ↔ P ∨ false = true ∧ Q) := by simp
  have long : ∀ {P Q : Prop}, (Q ↔ (64 < 32 → P) ∧ (64 = 64 → Q)) := by simp
  rw [agrees_iff_lanes, Safe]
  cases T with
  | int8 =>
    exact (narrow_broadcast (u := 8) (n := 4) rfl groups v).trans
      ((lanes_signExtend rfl (by decide) (by decide) v).trans (signed.trans (short (by decide))))
  | uint8 =>
    exact (narrow_broadcast (u := 8) (n := 4) rfl groups v).trans
      ((lanes_setWidth rfl (by decide) v).trans (unsigned.trans (short (by decide))))
  | int16 =>
    exact (narrow_broadcast (u := 16) (n := 2) rfl groups v).trans
      ((lanes_signExtend rfl (by decide) (by decide) v).trans (signed.trans (short (by decide))))
  | uint16 =>
    exact (narrow_broadcast (u := 16) (n := 2) rfl groups v).trans
      ((lanes_setWidth rfl (by decide) v).trans (unsigned.trans (short (by decide))))
  | int32 =>
    refine iff_of_true (fun k inside => (groups k inside).trans ?_) ⟨nofun, nofun⟩
    exact BitVec.signExtend_eq v
  | uint32 =>
    refine iff_of_true (fun k inside => (groups k inside).trans ?_) ⟨nofun, nofun⟩
    exact BitVec.setWidth_eq v
  | int64 =>
    refine (wide_broadcast groups v ?_).trans long
    exact (BitVec.signExtend_eq_setWidth_of_le v (by decide)).trans
      (BitVec.setWidth_eq_extractLsb' (by decide))
  | uint64 =>
    refine (wide_broadcast groups v ?_).trans long
    exact BitVec.setWidth_eq_extractLsb' (show 32 ≤ 64 by decide)

theorem agrees_iff_safe {T : Scalar} {op : Op} (not_mul : op ≠ .mul) (v : Value T)
    (a b : M128i) : Agrees T op v a b ↔ Safe T v a b op := by
  have bits := agrees_bits T v a b
  cases op with
  | broadcast => exact agrees_broadcast T v a b
  | add => exact agrees_add T v a b
  | sub => exact agrees_sub T v a b
  | mul => exact absurd rfl not_mul
  | and_ => exact iff_of_true bits.1 trivial
  | or_ => exact iff_of_true bits.2.1 trivial
  | xor_ => exact iff_of_true bits.2.2 trivial
  | max => exact agrees_max T v a b
  | min => exact agrees_min T v a b
  | abs => exact agrees_abs T v a b

theorem mul_disagrees (T : Scalar) : ∃ a b : M128i, ¬ Agrees T .mul 0 a b := by
  refine ⟨2 ^ unit T, if T.bits = 64 then 1 else 2 ^ unit T, fun all => ?_⟩
  rw [agrees_iff_lanes] at all
  have low := all 0
  have next := all 1
  cases T <;> first
    | exact absurd (low (by decide)) (by decide)
    | exact absurd (next (by decide)) (by decide)

theorem right_of_safe {T : Scalar} {op : Op} (not_mul : op ≠ .mul)
    (all : ∀ v a b, Safe T v a b op) : Right T op := by
  cases op with
  | mul => exact absurd rfl not_mul
  | and_ | or_ | xor_ => trivial
  | broadcast =>
    have one := all 1 0 0
    cases T <;> first | rfl | exact absurd one (by decide)
  | add =>
    have carry := all 0 (2 ^ (unit T - 1)) (2 ^ (unit T - 1)) 0
    cases T <;> first | rfl | exact absurd (carry (by decide) (by decide)) (by decide)
  | sub =>
    have borrow := all 0 0 1 0
    cases T <;> first | rfl | exact absurd (borrow (by decide) (by decide)) (by decide)
  | max | min =>
    have order := all 0 (2 ^ unit T) 1 0
    have sign := all 0 (2 ^ 31) 0 0
    cases T <;> first
      | rfl
      | exact absurd (order (by decide)) (by decide)
      | exact absurd (sign (by decide)) (by decide)
  | abs =>
    have one : (1 : M128i) = 0 := all 0 1 0
    exact absurd one (by decide)

theorem safe_of_right {T : Scalar} {op : Op} (right : Right T op) (v : Value T) (a b : M128i) :
    Safe T v a b op := by
  have one : T.bits = 32 → parts T = 1 := fun same => by rw [parts, unit, same]; rfl
  cases op with
  | mul | abs => exact absurd right id
  | and_ | or_ | xor_ => trivial
  | broadcast =>
    have same : T.bits = 32 := right
    exact ⟨fun short => absurd short (by omega), fun long => absurd long (by omega)⟩
  | add | sub =>
    intro k _ inner
    rw [one right] at inner
    exact absurd (Nat.mod_one _) inner
  | max | min =>
    cases (show T = .int32 from right)
    exact fun k _ => .inr rfl

/-- The two classes agree on all operands for the types and operations of the 32-bit intrinsics
only; and on which operands they agree elsewhere. -/
theorem agrees_exactly (T : Scalar) (op : Op) (has : Has T op) :
    ((∀ v a b, Agrees T op v a b) ↔ Right T op) ∧
      (op ≠ .mul → ∀ v a b, Agrees T op v a b ↔ Safe T v a b op) := by
  refine ⟨?_, fun not_mul => agrees_iff_safe not_mul⟩
  by_cases not_mul : op = .mul
  · subst not_mul
    obtain ⟨a, b, wrong⟩ := mul_disagrees T
    exact iff_of_false (fun all => wrong (all 0 a b)) id
  · constructor
    · exact fun all => right_of_safe not_mul fun v a b => (agrees_iff_safe not_mul v a b).mp (all v a b)
    · exact fun right v a b => (agrees_iff_safe not_mul v a b).mpr (safe_of_right right v a b)

theorem agrees_exactly_int32 : (∀ v a b, Agrees .int32 .max v a b) ∧
    ¬ ∀ v a b, Agrees .int32 .abs v a b :=
  ⟨(agrees_exactly .int32 .max nofun).1.mpr rfl,
    fun all => (agrees_exactly .int32 .abs fun _ => rfl).1.mp all⟩

/-- The broadcast of 1 as int8_t has a 1 in every fourth lane only. -/
theorem broadcast_disagrees :
    ¬ ∀ (T : Scalar) (op : Op), Has T op → ∀ v a b, Agrees T op v a b := by
  intro all
  have one := (agrees_broadcast .int8 1 0 0).mp (all .int8 .broadcast nofun 1 0 0)
  exact absurd one (by decide)

end Pot.SimdInteger
