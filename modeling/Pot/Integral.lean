import Mathlib.Data.Int.DivMod
import Mathlib.Tactic.Ring

/-! Integer types of a fixed width, as a C++ compiler has them: a conversion goes modulo the width,
arithmetic is done in the promoted type, and an overflow is undefined where that type is signed. -/
namespace Integral

inductive Width where
  | w8 | w16 | w32 | w64
  deriving DecidableEq

def Width.bits : Width → Nat
  | .w8 => 8
  | .w16 => 16
  | .w32 => 32
  | .w64 => 64

structure Kind where
  width : Width
  signed : Bool
  deriving DecidableEq

def int : Kind := ⟨.w32, true⟩
def int64 : Kind := ⟨.w64, true⟩
def uint64 : Kind := ⟨.w64, false⟩

namespace Kind

def modulus (k : Kind) : Int := 2 ^ k.width.bits

def min (k : Kind) : Int := if k.signed then -(k.modulus / 2) else 0

def max (k : Kind) : Int := k.min + k.modulus - 1

def Holds (k : Kind) (v : Int) : Prop := k.min ≤ v ∧ v ≤ k.max

instance (k : Kind) (v : Int) : Decidable (k.Holds v) := inferInstanceAs (Decidable (_ ∧ _))

def convert (k : Kind) (v : Int) : Int := (v - k.min) % k.modulus + k.min

def promoted (k : Kind) : Kind :=
  match k.width with
  | .w8 | .w16 => int
  | .w32 | .w64 => k

/-- The result of an operation in the type; `none` is undefined behaviour. -/
def result (k : Kind) (v : Int) : Option Int :=
  if k.signed then if k.Holds v then some v else none else some (k.convert v)

def quotient (k : Kind) (a b : Int) : Option Int :=
  if b = 0 then none else k.result (a.tdiv b)

variable {k : Kind} {v d : Int}

theorem modulus_pos (k : Kind) : 0 < k.modulus := Int.pow_pos (by decide)

theorem min_nonpos (k : Kind) : k.min ≤ 0 := by
  have := k.modulus_pos
  rw [Kind.min]
  split <;> omega

theorem max_nonneg (k : Kind) : 0 ≤ k.max := by
  rcases k with ⟨width, signed⟩
  cases width <;> cases signed <;> decide

theorem convert_of_holds (held : k.Holds v) : k.convert v = v := by
  have upper : v ≤ k.min + k.modulus - 1 := held.2
  have lower := held.1
  rw [convert, Int.emod_eq_of_lt (by omega) (by omega), Int.sub_add_cancel]

theorem holds_convert (k : Kind) (v : Int) : k.Holds (k.convert v) := by
  have low := Int.emod_nonneg (v - k.min) (Int.ne_of_gt k.modulus_pos)
  have high := Int.emod_lt_of_pos (v - k.min) k.modulus_pos
  rw [Holds, convert, Kind.max]
  omega

theorem convert_add_mul (v j : Int) : k.convert (v + j * k.modulus) = k.convert v := by
  rw [convert, convert, add_sub_right_comm, Int.add_mul_emod_self_right]

theorem convert_emod (v d : Int) : k.convert (v + d % k.modulus) = k.convert (v + d) := by
  have split := Int.mul_ediv_add_emod d k.modulus
  have : v + d = v + d % k.modulus + d / k.modulus * k.modulus := by
    rw [Int.mul_comm (d / k.modulus)]
    omega
  rw [this, convert_add_mul]

theorem convert_convert (v d : Int) : k.convert (v + k.convert d) = k.convert (v + d) := by
  rw [convert.eq_def k d, ← Int.add_assoc, Int.add_right_comm, convert_emod]
  congr 1
  omega

theorem convert_below (held : k.Holds v) (positive : 0 ≤ d) (fits : v + d ≤ k.max) :
    k.convert (v + d) = v + d :=
  convert_of_holds ⟨by have := held.1; omega, fits⟩

/-- A sum past the end of the type comes out below where it began. -/
theorem convert_above (held : k.Holds v) (small : d < k.modulus) (past : k.max < v + d) :
    k.convert (v + d) = v + d - k.modulus := by
  have upper := held.2
  have lower := held.1
  rw [Kind.max] at past upper
  have wrapped : v + d = v + d - k.modulus + 1 * k.modulus := by omega
  rw [wrapped, convert_add_mul, convert_of_holds, ← wrapped]
  rw [Holds, Kind.max]
  omega

/-- A value past the end of the type that its bits can hold comes out negative. -/
theorem convert_past (past : k.max < v) (small : v < k.modulus) : k.convert v = v - k.modulus := by
  have wrapped : k.convert (0 + v) = 0 + v - k.modulus :=
    convert_above ⟨k.min_nonpos, k.max_nonneg⟩ small (by omega)
  rw [Int.zero_add] at wrapped
  exact wrapped

theorem result_of_holds (held : k.Holds v) : k.result v = some v := by
  rw [result, if_pos held, convert_of_holds held, ite_self]

theorem result_signed (signed : k.signed = true) : k.result v = if k.Holds v then some v else none :=
  if_pos signed

/-- The common type of a sum: the type itself, or int with room for it. -/
theorem promoted_cases (k : Kind) : k.promoted = k ∨
    k.promoted = int ∧ k.modulus ≤ int.max ∧ ∀ a b, k.Holds a → k.Holds b → int.Holds (a + b) := by
  rcases k with ⟨width, signed⟩
  cases width with
  | w8 | w16 =>
    refine .inr ⟨rfl, by cases signed <;> decide, fun a b ha hb => ?_⟩
    cases signed <;>
      simp only [Holds, Kind.max, Kind.min, modulus, Width.bits, int, reduceIte, Bool.false_eq_true]
        at ha hb ⊢ <;> omega
  | w32 | w64 => exact .inl rfl

/-- A sum that stays in the type comes out whole, if what is added does. -/
theorem sum_defined (held : k.Holds v) (positive : 0 ≤ d) (fits : v + d ≤ k.max)
    (added : d ≤ k.promoted.max) :
    ∃ r, k.promoted.result (v + k.convert d) = some r ∧ k.convert r = v + d := by
  have sum := convert_below held positive fits
  rcases k.promoted_cases with same | ⟨wider, -, room⟩
  · have whole : k.convert d = d :=
      convert_of_holds ⟨Int.le_trans k.min_nonpos positive, same ▸ added⟩
    have inside : k.Holds (v + d) := sum ▸ k.holds_convert (v + d)
    rw [same, whole, result_of_holds inside]
    exact ⟨_, rfl, sum⟩
  · rw [wider, result_of_holds (room _ _ held (k.holds_convert d))]
    exact ⟨_, rfl, (convert_convert v d).trans sum⟩

/-- What comes of a sum in the end is its value modulo the width. -/
theorem sum_converted {r : Int} (sum : k.promoted.result (v + k.convert d) = some r) :
    k.convert r = k.convert (v + d) := by
  unfold result at sum
  split at sum
  · split at sum
    · rw [← Option.some.inj sum, convert_convert]
    · cases sum
  · rename_i unsigned
    have same : k.promoted = k := k.promoted_cases.resolve_right fun wider =>
      unsigned (wider.1 ▸ rfl)
    rw [← Option.some.inj sum, same, convert_of_holds (k.holds_convert _), convert_convert]

theorem sum_whole {r : Int} (held : k.Holds v) (small : d < k.modulus)
    (sum : k.promoted.result (v + k.convert d) = some r) (above : v ≤ k.convert r) :
    d ≤ k.promoted.max ∧ v + d ≤ k.max := by
  have lower := held.1
  have fits : v + d ≤ k.max := by
    by_contra past
    rw [sum_converted sum, convert_above held small (by omega)] at above
    omega
  refine ⟨?_, fits⟩
  rcases k.promoted_cases with same | ⟨wider, room, -⟩
  · by_contra large
    rw [same] at sum large
    rw [convert_past (by omega) small, result] at sum
    split at sum
    · have out : ¬ k.Holds (v + (d - k.modulus)) := fun inside => by
        have := inside.1
        rw [Kind.max] at fits
        omega
      rw [if_neg out] at sum
      cases sum
    · rename_i unsigned
      rw [Kind.max, Kind.min, if_neg unsigned] at large
      omega
  · rw [wider]
    omega

end Kind
end Integral
