import Mathlib.Logic.Function.Iterate
import Pot.Parfor

/-! The callable of parfor (modules, algorithms/parfor.cppm). The loop over the chunks captures
std::forward<FuncType>(func) for each task, and the tasks run while the loop goes on. A call of the
callable returns, and may change the copy it is made on. -/
namespace Pot.ParforCallable
open Transition

/-- What FuncType&& is bound to. -/
inductive Category where
  | lvalue
  | rvalue

structure Call (F : Type) extends Parfor.Call where
  category : Category
  func : F
  /-- what a move of the callable leaves in its place -/
  moved : F → F
  /-- what a call on an index leaves of the callable -/
  invoked : F → Int → F

variable {F : Type}

/-- What func = std::forward<FuncType>(func) leaves of func. -/
def Call.forwarded (c : Call F) (func : F) : F :=
  match c.category with
  | .lvalue => func
  | .rvalue => c.moved func

structure State (F : Type) where
  func : F
  chunkIndex : Nat
  chunk : Nat → F
  next : Nat → Int
  /-- Each call with the callable it was made on, as it was then. -/
  calls : List (F × Int)

inductive Act where
  | run
  | task (k : Nat)

def Call.step (c : Call F) (s : State F) : Act → Option (State F)
  | .run =>
    if s.chunkIndex < c.tasks.loops then
      some { s with
        func := c.forwarded s.func
        chunkIndex := s.chunkIndex + 1
        chunk := Function.update s.chunk s.chunkIndex s.func }
    else none
  | .task k =>
    if k < s.chunkIndex ∧ s.next k < c.tasks.stop k then
      some { s with
        chunk := Function.update s.chunk k (c.invoked (s.chunk k) (s.next k))
        next := Function.update s.next k (s.next k + 1)
        calls := s.calls ++ [(s.chunk k, s.next k)] }
    else none

def Call.start (c : Call F) : State F := ⟨c.func, 0, fun _ => c.func, c.tasks.start, []⟩

def Call.system (c : Call F) : System (State F) Act := ⟨fun s => s = c.start, c.step⟩

def inTurn (invoked : F → Int → F) : F → List Int → List (F × Int)
  | _, [] => []
  | func, i :: rest => (func, i) :: inTurn invoked (invoked func i) rest

theorem inTurn_snoc (invoked : F → Int → F) (func : F) (l : List Int) (i : Int) :
    inTurn invoked func (l ++ [i]) = inTurn invoked func l ++ [(l.foldl invoked func, i)] := by
  induction l generalizing func with
  | nil => rfl
  | cons j l ih =>
    rw [List.cons_append, inTurn, ih, List.foldl_cons, inTurn, List.cons_append]

variable {c : Call F}

/-- The captures as the loop made them, and what each task has done with its own. -/
structure Call.Inv (c : Call F) (s : State F) : Prop where
  rounds : s.chunkIndex ≤ c.tasks.loops
  func : s.func = c.forwarded^[s.chunkIndex] c.func
  forward : ∀ k, c.tasks.start k ≤ s.next k
  bounded : ∀ k, s.next k ≤ max (c.tasks.start k) (c.tasks.stop k)
  waiting : ∀ k, s.chunkIndex ≤ k → s.next k = c.tasks.start k
  chunk : ∀ k < s.chunkIndex, s.chunk k =
    (Int.range (c.tasks.start k) (s.next k)).foldl c.invoked (c.forwarded^[k] c.func)
  calls : s.calls.Perm ((List.range s.chunkIndex).flatMap fun k =>
    inTurn c.invoked (c.forwarded^[k] c.func) (Int.range (c.tasks.start k) (s.next k)))

theorem start_inv (c : Call F) : c.Inv c.start where
  rounds := Nat.zero_le _
  func := rfl
  forward _ := le_refl _
  bounded _ := le_max_left ..
  waiting _ _ := rfl
  chunk _ inside := absurd inside (Nat.not_lt_zero _)
  calls := .refl _

theorem run_inv {s t : State F} (h : c.Inv s) (taken : c.step s .run = some t) : c.Inv t := by
  simp only [Call.step] at taken
  split at taken
  · rename_i more
    cases taken
    have empty : Int.range (c.tasks.start s.chunkIndex) (s.next s.chunkIndex) = [] :=
      Chunks.range_empty (Int.le_of_eq (h.waiting _ (Nat.le_refl _)))
    refine ⟨more, ?_, h.forward, h.bounded, fun k later => h.waiting k (Nat.le_of_succ_le later),
      fun k inside => ?_, ?_⟩
    · rw [Function.iterate_succ_apply', ← h.func]
    · change Function.update s.chunk s.chunkIndex s.func k = _
      by_cases mine : k = s.chunkIndex
      · rw [mine, Function.update_self, empty, List.foldl_nil, h.func]
      · rw [Function.update_of_ne mine]
        exact h.chunk k (Nat.lt_of_le_of_ne (Nat.le_of_lt_succ inside) mine)
    · rw [List.range_succ, List.flatMap_append, List.flatMap_singleton, empty, inTurn,
        List.append_nil]
      exact h.calls
  · cases taken

theorem task_cases {s t : State F} {k : Nat} (taken : c.step s (.task k) = some t) :
    k < s.chunkIndex ∧ s.next k < c.tasks.stop k ∧ t.func = s.func ∧ t.chunkIndex = s.chunkIndex ∧
      t.chunk = Function.update s.chunk k (c.invoked (s.chunk k) (s.next k)) ∧
      t.next = Function.update s.next k (s.next k + 1) ∧
      t.calls = s.calls ++ [(s.chunk k, s.next k)] := by
  simp only [Call.step] at taken
  split at taken
  · cases taken
    exact ⟨‹_ ∧ _›.1, ‹_ ∧ _›.2, rfl, rfl, rfl, rfl, rfl⟩
  · cases taken

theorem task_inv {s t : State F} {k : Nat} (h : c.Inv s) (taken : c.step s (.task k) = some t) :
    c.Inv t := by
  obtain ⟨made, below, func, rounds, hchunk, hnext, hcalls⟩ := task_cases taken
  have here : t.next k = s.next k + 1 := by rw [hnext, Function.update_self]
  have others : ∀ j, j ≠ k → t.next j = s.next j := fun j other => by
    rw [hnext, Function.update_of_ne other]
  have onward : Int.range (c.tasks.start k) (s.next k + 1) =
      Int.range (c.tasks.start k) (s.next k) ++ [s.next k] := Chunks.range_succ (h.forward k)
  refine ⟨rounds ▸ h.rounds, ?_, fun j => ?_, fun j => ?_, fun j later => ?_, fun j inside => ?_, ?_⟩
  · rw [func, rounds]
    exact h.func
  · by_cases same : j = k
    · have := h.forward k
      rw [same, here]
      omega
    · rw [others j same]
      exact h.forward j
  · by_cases same : j = k
    · rw [same, here]
      exact le_trans (by omega) (le_max_right ..)
    · rw [others j same]
      exact h.bounded j
  · rw [rounds] at later
    rw [others j (Nat.ne_of_gt (Nat.lt_of_lt_of_le made later))]
    exact h.waiting j later
  · rw [rounds] at inside
    by_cases same : j = k
    · rw [same, hchunk, Function.update_self, here, onward, List.foldl_append, ← h.chunk k made]
      rfl
    · rw [hchunk, Function.update_of_ne same, others j same]
      exact h.chunk j inside
  · rw [hcalls, rounds]
    refine (h.calls.append_right _).trans (Loops.flatMap_push ?_ (fun j other => ?_) _ made).symm
    · rw [here, onward, inTurn_snoc, ← h.chunk k made]
    · rw [others j other]

theorem reached_inv {s : State F} (reached : Reached c.system s) : c.Inv s :=
  reached.invariant (I := c.Inv) (fun s (eq : s = c.start) => eq ▸ start_inv c) fun _ a _ h taken =>
    match a with
    | .run => run_inv h taken
    | .task _ => task_inv h taken

theorem makes (c : Call F) (n : Nat) (inside : n ≤ c.tasks.loops) :
    ∃ s, Reached c.system s ∧ s.chunkIndex = n ∧ s.next = c.tasks.start := by
  induction n with
  | zero => exact ⟨c.start, .start rfl, rfl, rfl⟩
  | succ n ih =>
    obtain ⟨s, reached, made, next⟩ := ih (Nat.le_of_succ_le inside)
    have taken : c.system.step s .run = some { s with
        func := c.forwarded s.func
        chunkIndex := s.chunkIndex + 1
        chunk := Function.update s.chunk s.chunkIndex s.func } := if_pos (made ▸ inside)
    exact ⟨_, reached.next taken, congrArg (· + 1) made, next⟩

theorem mode (divides : c.Divides) : c.static_chunk_size ≠ 0 := by
  intro zero
  apply divides.2
  rw [Parfor.Call.chunk_size, WhenAll.chunkSize, if_neg (by omega), zero]

variable (ordered : c.from_ < c.to_) (divides : c.Divides)
include ordered divides

end Pot.ParforCallable
