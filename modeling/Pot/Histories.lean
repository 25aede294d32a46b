import Mathlib.Data.List.Basic

/-! Sequential histories: the calls on one object come one after the other, each with its answer.
What a call can do is a relation; the specification computes the new state and the answer. -/
namespace Histories

variable {I C R S : Type*}

inductive History (start : I → Prop) (call : I → C → R → I → Prop) : List (C × R) → I → Prop where
  | nil {i} : start i → History start call [] i
  | snoc {h i c r j} : History start call h i → call i c r j → History start call (h ++ [(c, r)]) j

/-- The specified state after these calls. -/
def after (spec : S → C → S × R) (s : S) : List C → S
  | [] => s
  | c :: rest => after spec (spec s c).1 rest

def answers (spec : S → C → S × R) (s : S) : List C → List R
  | [] => []
  | c :: rest => (spec s c).2 :: answers spec (spec s c).1 rest

theorem after_snoc (spec : S → C → S × R) (s : S) (calls : List C) (c : C) :
    after spec s (calls ++ [c]) = (spec (after spec s calls) c).1 := by
  induction calls generalizing s with
  | nil => rfl
  | cons d rest ih => exact ih (spec s d).1

theorem answers_snoc (spec : S → C → S × R) (s : S) (calls : List C) (c : C) :
    answers spec s (calls ++ [c]) = answers spec s calls ++ [(spec (after spec s calls) c).2] := by
  induction calls generalizing s with
  | nil => rfl
  | cons d rest ih => exact congrArg ((spec s d).2 :: ·) (ih (spec s d).1)

theorem History.mono {start : I → Prop} {call call' : I → C → R → I → Prop}
    (weaker : ∀ i c r j, call i c r j → call' i c r j) {h : List (C × R)} {i : I}
    (history : History start call h i) : History start call' h i := by
  induction history with
  | nil first => exact .nil first
  | snoc _ taken ih => exact .snoc ih (weaker _ _ _ _ taken)

/-- A relation that every call keeps, with the specified answer, gives the answers of a history. -/
theorem History.refines {start : I → Prop} {call : I → C → R → I → Prop} {spec : S → C → S × R}
    (related : I → S → Prop) {s : S} (initial : ∀ i, start i → related i s)
    (simulates : ∀ i s c r j, related i s → call i c r j →
      r = (spec s c).2 ∧ related j (spec s c).1)
    {h : List (C × R)} {i : I} (history : History start call h i) :
    h.map Prod.snd = answers spec s (h.map Prod.fst) ∧
      related i (after spec s (h.map Prod.fst)) := by
  induction history with
  | nil first => exact ⟨rfl, initial _ first⟩
  | snoc _ taken ih =>
    obtain ⟨same, before⟩ := ih
    obtain ⟨answer, next⟩ := simulates _ _ _ _ _ before taken
    rw [List.map_append, List.map_append, List.map_singleton, List.map_singleton, answers_snoc,
      after_snoc]
    exact ⟨by rw [same, answer], next⟩

end Histories
