import Mathlib.Logic.Function.Basic

/-! Singly linked lists in a store of next pointers. -/
namespace LinkedLists

variable {Node : Type*}

/-- The nodes from `head` on, along the next pointers, are `l`. -/
def Spells (next : Node → Option Node) : Option Node → List Node → Prop
  | head, [] => head = none
  | head, a :: l => head = some a ∧ Spells next (next a) l

/-- The first nodes from `head` on, at most as many as `bound`. -/
def walk (next : Node → Option Node) : Nat → Option Node → List Node
  | 0, _ => []
  | _ + 1, none => []
  | bound + 1, some a => a :: walk next bound (next a)

variable {next : Node → Option Node} {head : Option Node} {l : List Node}

theorem spells_none : Spells next none l ↔ l = [] := by
  cases l with
  | nil => simp [Spells]
  | cons a l => simp [Spells]

theorem spells_some {a : Node} :
    Spells next (some a) l ↔ ∃ rest, l = a :: rest ∧ Spells next (next a) rest := by
  cases l with
  | nil => simp [Spells]
  | cons b l =>
    simp only [Spells, Option.some.injEq, List.cons.injEq]
    constructor
    · rintro ⟨rfl, h⟩
      exact ⟨l, ⟨rfl, rfl⟩, h⟩
    · rintro ⟨rest, ⟨rfl, rfl⟩, h⟩
      exact ⟨rfl, h⟩

theorem Spells.unique {l' : List Node} (h : Spells next head l) (h' : Spells next head l') :
    l = l' := by
  induction l generalizing head l' with
  | nil =>
    unfold Spells at h
    subst h
    exact (spells_none.mp h').symm
  | cons a l ih =>
    obtain ⟨rfl, rest⟩ := h
    obtain ⟨tail, rfl, rest'⟩ := spells_some.mp h'
    exact congrArg (a :: ·) (ih rest rest')

theorem walk_eq {bound : Nat} (h : Spells next head l) (room : l.length ≤ bound) :
    walk next bound head = l := by
  induction l generalizing head bound with
  | nil =>
    unfold Spells at h
    cases bound <;> simp [walk, h]
  | cons a l ih =>
    obtain ⟨rfl, h⟩ := h
    cases bound with
    | zero => simp at room
    | succ bound => rw [walk, ih h (Nat.le_of_succ_le_succ room)]

theorem Spells.update [DecidableEq Node] {c : Node} (h : Spells next head l) (outside : c ∉ l)
    (link : Option Node) : Spells (Function.update next c link) head l := by
  induction l generalizing head with
  | nil => exact h
  | cons a l ih =>
    obtain ⟨here, rest⟩ := h
    rw [List.mem_cons, not_or] at outside
    refine ⟨here, ?_⟩
    rw [Function.update_of_ne (Ne.symm outside.1)]
    exact ih rest outside.2

theorem Spells.link [DecidableEq Node] {c : Node} (h : Spells next head l) (outside : c ∉ l) :
    Spells (Function.update next c head) (some c) (c :: l) := by
  refine ⟨rfl, ?_⟩
  rw [Function.update_self]
  exact h.update outside head

theorem spells_range {next : Nat → Option Nat} {first n : Nat}
    (links : ∀ a, first ≤ a → next a = if a < first + n then some (a + 1) else none) :
    Spells next (some first) (List.range' first (n + 1)) := by
  induction n generalizing first with
  | zero =>
    refine ⟨rfl, ?_⟩
    rw [links first (Nat.le_refl _), if_neg (by omega)]
    rfl
  | succ n ih =>
    refine ⟨rfl, ?_⟩
    rw [links first (Nat.le_refl _), if_pos (by omega)]
    refine ih fun a later => ?_
    rw [links a (Nat.le_of_succ_le later), Nat.add_right_comm]
    rfl

end LinkedLists
