import Pot.LfqueueModule

/-! What an access does to the call it belongs to: the call stays what it is, and a push or a pop
changes its standing only with the exchange that takes its position. -/
namespace Pot.LfqueueModule
open Transition

variable {Tid T : Type}

inductive Kind where
  | idle
  | push
  | pop
  | empty
  | count
  deriving DecidableEq

def Answer.kind : Answer T → Kind
  | .pushed _ => .push
  | .popped _ _ | .nothing => .pop
  | .empty _ => .empty
  | .count _ => .count

def Pc.kind : Pc T → Kind
  | .idle => .idle
  | .pushLoadPos _ | .pushLoadSeq _ _ | .pushCas _ _ | .pushData _ _ | .pushStoreSeq _ => .push
  | .popLoadPos | .popLoadSeq _ | .popCas _ | .popData _ | .popStoreSeq _ _ => .pop
  | .emptyEpos _ | .emptyDpos _ => .empty
  | .spaceEpos | .spaceDpos _ | .sizeEpos | .sizeDpos _ => .count
  | .returned answer => answer.kind

def Pc.offers : Pc T → Option T
  | .pushLoadPos data | .pushLoadSeq data _ | .pushCas data _ => some data
  | _ => none

def Pc.claimed : Pc T → Bool
  | .pushData _ _ | .pushStoreSeq _ | .returned (.pushed true) => true
  | _ => false

/-- The position that a pop has taken. -/
def Pc.taken : Pc T → Option Nat
  | .popData pos | .popStoreSeq pos _ | .returned (.popped pos _) => some pos
  | _ => none

structure Keeps (p q : Pc T) : Prop where
  claimed : q.claimed = p.claimed
  taken : q.taken = p.taken
  offers : ∀ data, q.offers = some data → p.offers = some data

variable [DecidableEq Tid]

theorem call_iff {size : Nat} {s t : State Tid T} {i : Tid} {c : Call T} :
    step size s (i, .call c) = some t ↔ (s.pc i).resting = true ∧ t = s.goto i c.first := by
  simp only [step, Option.ite_none_right_eq_some, Option.some.injEq, eq_comm (a := t)]

theorem go_cases {size : Nat} {s t : State Tid T} {i : Tid} {spurious : Bool}
    (stepped : step size s (i, .go spurious) = some t) :
    ∃ p, t.pc = Function.update s.pc i p ∧ (s.pc i).resting = false ∧ p.kind = (s.pc i).kind ∧
      ((t.epos = s.epos ∧ t.dpos = s.dpos ∧ t.pushed = s.pushed ∧ Keeps (s.pc i) p) ∨
        (∃ data, s.pc i = .pushCas data s.epos ∧ p = .pushData data s.epos ∧
          t.epos = s.epos + 1 ∧ t.dpos = s.dpos ∧ t.pushed = s.pushed ++ [data]) ∨
        (s.pc i = .popCas s.dpos ∧ p = .popData s.dpos ∧ t.epos = s.epos ∧ t.dpos = s.dpos + 1 ∧
          t.pushed = s.pushed)) := by
  simp only [step] at stepped
  cases hpc : s.pc i with
  | idle | returned => rw [hpc] at stepped; cases stepped
  | pushLoadSeq | popLoadSeq =>
    rw [hpc] at stepped
    simp only [access] at stepped
    split at stepped
    · cases stepped
      exact ⟨_, rfl, rfl, rfl, .inl ⟨rfl, rfl, rfl, rfl, rfl, fun _ none => (by cases none)⟩⟩
    · split at stepped <;> cases stepped <;>
        exact ⟨_, rfl, rfl, rfl, .inl ⟨rfl, rfl, rfl, rfl, rfl, fun _ same => same⟩⟩
  | pushCas data pos =>
    rw [hpc] at stepped
    simp only [access] at stepped
    split at stepped
    · cases stepped
      obtain ⟨rfl, -⟩ := ‹s.epos = pos ∧ _›
      exact ⟨_, rfl, rfl, rfl, .inr (.inl ⟨data, rfl, rfl, rfl, rfl, rfl⟩)⟩
    · cases stepped
      exact ⟨_, rfl, rfl, rfl, .inl ⟨rfl, rfl, rfl, rfl, rfl, fun _ same => same⟩⟩
  | popCas pos =>
    rw [hpc] at stepped
    simp only [access] at stepped
    split at stepped
    · cases stepped
      obtain ⟨rfl, -⟩ := ‹s.dpos = pos ∧ _›
      exact ⟨_, rfl, rfl, rfl, .inr (.inr ⟨rfl, rfl, rfl, rfl, rfl⟩)⟩
    · cases stepped
      exact ⟨_, rfl, rfl, rfl, .inl ⟨rfl, rfl, rfl, rfl, rfl, fun _ same => same⟩⟩
  | emptyEpos loaded | emptyDpos loaded =>
    rw [hpc] at stepped
    cases loaded <;> cases stepped <;>
      exact ⟨_, rfl, rfl, rfl, .inl ⟨rfl, rfl, rfl, rfl, rfl, fun _ same => same⟩⟩
  | _ =>
    rw [hpc] at stepped
    cases stepped
    exact ⟨_, rfl, rfl, rfl, .inl ⟨rfl, rfl, rfl, rfl, rfl, fun _ same => same⟩⟩

/-- What a step does to the counters, and that it moves its own thread only. -/
theorem step_cases {size : Nat} {s t : State Tid T} {i : Tid} {act : Act T}
    (stepped : step size s (i, act) = some t) :
    ∃ p, t.pc = Function.update s.pc i p ∧
      ((t.epos = s.epos ∧ t.dpos = s.dpos) ∨ (t.epos = s.epos + 1 ∧ t.dpos = s.dpos) ∨
        (t.epos = s.epos ∧ t.dpos = s.dpos + 1)) := by
  cases act with
  | call c =>
    obtain ⟨-, rfl⟩ := call_iff.mp stepped
    exact ⟨_, rfl, .inl ⟨rfl, rfl⟩⟩
  | go spurious =>
    obtain ⟨p, moved, -, -, ⟨epos, dpos, -⟩ | ⟨_, -, -, epos, dpos, -⟩ | ⟨-, -, epos, dpos, -⟩⟩ :=
      go_cases stepped
    · exact ⟨p, moved, .inl ⟨epos, dpos⟩⟩
    · exact ⟨p, moved, .inr (.inl ⟨epos, dpos⟩)⟩
    · exact ⟨p, moved, .inr (.inr ⟨epos, dpos⟩)⟩

end Pot.LfqueueModule
