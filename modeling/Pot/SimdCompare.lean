import Mathlib.Data.List.FinRange

/-! The comparison operators of simd_forced<float, SSE> (simd/simd_forced.h, simd/simd_traits.h)
and of simd_auto (simd/simd_auto.h), for any number of lanes. Lanes are compared as floats are:
less, equal, greater or unordered. -/
namespace Pot.SimdCompare

inductive Op where
  | eq | neq | lt | le | gt | ge
  deriving DecidableEq

def Op.holds : Op → Option Ordering → Bool
  | .eq, r => r == some .eq
  | .neq, r => r != some .eq
  | .lt, r => r == some .lt
  | .le, r => r == some .lt || r == some .eq
  | .gt, r => r == some .gt
  | .ge, r => r == some .gt || r == some .eq

variable {F : Type} {n : Nat}

/-! simd_traits<float, SSE>: a lane of a mask has all of its bits set or none. -/

def cmp (order : F → F → Option Ordering) (op : Op) (a b : Fin n → F) : Fin n → BitVec 32 :=
  fun i => if op.holds (order (a i) (b i)) then BitVec.allOnes 32 else 0

def testAllOnes (mask : Fin n → BitVec 32) : Bool := decide (∀ i, mask i = BitVec.allOnes 32)

def forced (order : F → F → Option Ordering) (op : Op) (a b : Fin n → F) : Bool :=
  testAllOnes (cmp order op a b)

/-- The loop over the lanes with its return false. -/
def scan (reject : Fin n → Bool) : List (Fin n) → Bool
  | [] => true
  | i :: rest => if reject i then false else scan reject rest

/-- What the loop of an operator of simd_auto returns false on. -/
def Op.opposite : Op → Op
  | .eq => .neq
  | .neq => .eq
  | .lt => .ge
  | .le => .gt
  | .gt => .le
  | .ge => .lt

def each (order : F → F → Option Ordering) (op : Op) (a b : Fin n → F) : Bool :=
  scan (fun i => op.opposite.holds (order (a i) (b i))) (List.finRange n)

/-- The operators of simd_auto; != is !(*this == rhs). -/
def auto (order : F → F → Option Ordering) : Op → (Fin n → F) → (Fin n → F) → Bool
  | .neq, a, b => !each order .eq a b
  | op, a, b => each order op a b

/-- When the two classes come to the same answer. -/
def Alike (order : F → F → Option Ordering) : Op → (Fin n → F) → (Fin n → F) → Prop
  | .eq, _, _ => True
  | .neq, a, b => 0 < n ∧ ((∀ i, order (a i) (b i) = some .eq) ∨ ∀ i, order (a i) (b i) ≠ some .eq)
  | op, a, b => (∃ i, order (a i) (b i) = none) → ∃ i, op.opposite.holds (order (a i) (b i)) = true

variable {order : F → F → Option Ordering} {op : Op} {a b : Fin n → F}

theorem forced_eq_true_iff :
    forced order op a b = true ↔ ∀ i, op.holds (order (a i) (b i)) = true := by
  rw [forced, testAllOnes, decide_eq_true_iff]
  refine forall_congr' fun i => ?_
  unfold cmp
  split
  · exact iff_of_true rfl ‹_›
  · exact iff_of_false (by decide) ‹_›

theorem scan_eq_true_iff {reject : Fin n → Bool} {l : List (Fin n)} :
    scan reject l = true ↔ ∀ i ∈ l, reject i = false := by
  induction l with
  | nil => simp [scan]
  | cons i l ih =>
    unfold scan
    split
    · rename_i rejected
      exact iff_of_false (by simp) fun all => by
        rw [all i List.mem_cons_self] at rejected
        cases rejected
    · rename_i passed
      rw [ih, List.forall_mem_cons]
      exact (and_iff_right (Bool.eq_false_iff.mpr passed)).symm

theorem each_eq_true_iff :
    each order op a b = true ↔ ∀ i, op.opposite.holds (order (a i) (b i)) = false := by
  rw [each, scan_eq_true_iff]
  exact ⟨fun all i => all i (List.mem_finRange i), fun all i _ => all i⟩

/-- A comparison and its opposite exclude each other, and both fail on unordered lanes only. -/
theorem holds_opposite {r : Option Ordering} (known : r ≠ none) (op : Op) :
    op.holds r = !op.opposite.holds r := by
  match r, known with
  | some .lt, _ | some .eq, _ | some .gt, _ => cases op <;> rfl

theorem eq_opposite (r : Option Ordering) : Op.eq.opposite.holds r = !Op.eq.holds r := rfl

theorem agrees_eq : forced order .eq a b = auto order .eq a b := by
  rw [Bool.eq_iff_iff, auto, forced_eq_true_iff, each_eq_true_iff]
  · refine forall_congr' fun i => ?_
    rw [eq_opposite, Bool.not_eq_false']
  · nofun

theorem agrees_neq : forced order .neq a b = auto order .neq a b ↔ Alike order .neq a b := by
  have all : forced order .neq a b = true ↔ ∀ i, order (a i) (b i) ≠ some .eq := by
    rw [forced_eq_true_iff]
    exact forall_congr' fun i => by simp [Op.holds]
  have some : auto order .neq a b = true ↔ ¬ ∀ i, order (a i) (b i) = some .eq := by
    rw [auto, Bool.not_eq_true', Bool.eq_false_iff, Ne, each_eq_true_iff]
    refine not_congr (forall_congr' fun i => ?_)
    simp [Op.holds, Op.opposite]
  rw [Bool.eq_iff_iff, all, some, Alike]
  by_cases lanes : 0 < n
  · refine Iff.trans ?_ (and_iff_right lanes).symm
    constructor
    · intro same
      by_cases equal : ∀ i, order (a i) (b i) = Option.some .eq
      · exact .inl equal
      · exact .inr (same.mpr equal)
    · rintro (equal | differ)
      · exact iff_of_false (fun differ => differ ⟨0, lanes⟩ (equal ⟨0, lanes⟩)) fun h => h equal
      · exact iff_of_true differ fun equal => differ ⟨0, lanes⟩ (equal ⟨0, lanes⟩)
  · have none : ∀ i : Fin n, False := fun i => lanes (Nat.lt_of_le_of_lt (Nat.zero_le i) i.isLt)
    exact iff_of_false (fun same => same.mp (fun i => (none i).elim) fun i => (none i).elim)
      fun alike => lanes alike.1

theorem agrees_order (loop : auto order op a b = each order op a b)
    (unordered : op.holds none = false ∧ op.opposite.holds none = false) :
    forced order op a b = auto order op a b ↔ ((∃ i, order (a i) (b i) = none) →
      ∃ i, op.opposite.holds (order (a i) (b i)) = true) := by
  rw [loop, Bool.eq_iff_iff, forced_eq_true_iff, each_eq_true_iff]
  constructor
  · rintro same ⟨i, none⟩
    by_contra nowhere
    have holds := same.mpr (fun j => Bool.eq_false_iff.mpr fun opposite => nowhere ⟨j, opposite⟩) i
    rw [none, unordered.1] at holds
    cases holds
  · intro alike
    by_cases known : ∀ i, order (a i) (b i) ≠ none
    · refine forall_congr' fun i => ?_
      rw [holds_opposite (known i), Bool.not_eq_true']
    · obtain ⟨i, none⟩ := not_forall.mp known
      obtain ⟨j, opposite⟩ := alike ⟨i, not_not.mp none⟩
      have ordered : order (a j) (b j) ≠ Option.none := by
        intro none
        rw [none, unordered.2] at opposite
        cases opposite
      refine iff_of_false (fun all => ?_) fun all => ?_
      · have holds := all j
        rw [holds_opposite ordered, opposite] at holds
        cases holds
      · rw [all j] at opposite
        cases opposite

/-- On any lanes: the operators of the two classes agree exactly when the lanes are alike, != is
the negation of == in simd_auto always, and in simd_forced exactly when the lanes are alike. -/
theorem compare_exactly (order : F → F → Option Ordering) (a b : Fin n → F) :
    (∀ op, forced order op a b = auto order op a b ↔ Alike order op a b) ∧
    auto order .neq a b = !auto order .eq a b ∧
    (forced order .neq a b = (!forced order .eq a b) ↔ Alike order .neq a b) := by
  refine ⟨fun op => ?_, rfl, ?_⟩
  · cases op with
    | eq => exact iff_of_true agrees_eq trivial
    | neq => exact agrees_neq
    | lt | le | gt | ge => exact agrees_order rfl ⟨rfl, rfl⟩
  · rw [agrees_eq]
    exact agrees_neq

/-- Integers and one value that is unordered. -/
def orderInt : Option Int → Option Int → Option Ordering
  | some x, some y => some (compare x y)
  | _, _ => none

/-- One lane of four differs. -/
theorem neq_disagrees : ¬ ∀ a b : Fin 4 → Option Int,
    (∀ op, forced orderInt op a b = auto orderInt op a b) ∧
    forced orderInt .neq a b = !forced orderInt .eq a b := by
  intro all
  have differ := (all (fun i => if i = 0 then some 1 else some 0) fun _ => some 0).2
  exact absurd differ (by decide)

end Pot.SimdCompare
