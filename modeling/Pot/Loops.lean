import Mathlib.Algebra.Order.BigOperators.Group.List
import Mathlib.Data.List.GetD
import Pot.Chunks
import Pot.Transition

/-! Counting loops that run side by side: a step is the next iteration of one of them, and the
order among them is left to the scheduler. -/
namespace Loops
open Transition

structure Family where
  loops : Nat
  start : Nat → Int
  stop : Nat → Int

structure State where
  next : Nat → Int
  visited : List Int

def Family.step (f : Family) (s : State) (k : Nat) : Option State :=
  if k < f.loops ∧ s.next k < f.stop k then
    some ⟨Function.update s.next k (s.next k + 1), s.visited ++ [s.next k]⟩
  else none

def Family.system (f : Family) : System State Nat :=
  ⟨fun s => s = ⟨f.start, []⟩, f.step⟩

/-- The iterations of all loops, one loop after the other. -/
def Family.all (f : Family) : List Int :=
  (List.range f.loops).flatMap fun k => Int.range (f.start k) (f.stop k)

structure Family.Inv (f : Family) (s : State) : Prop where
  forward : ∀ k, f.start k ≤ s.next k
  bounded : ∀ k, s.next k ≤ max (f.start k) (f.stop k)
  behind : s.visited.Perm ((List.range f.loops).flatMap fun k => Int.range (f.start k) (s.next k))

variable {f : Family} {s t : State}

theorem flatMap_push {α : Type*} {g h : Nat → List α} {k : Nat} {x : α} (here : h k = g k ++ [x])
    (others : ∀ j, j ≠ k → h j = g j) (n : Nat) (inside : k < n) :
    ((List.range n).flatMap h).Perm ((List.range n).flatMap g ++ [x]) := by
  induction n with
  | zero => exact absurd inside (Nat.not_lt_zero k)
  | succ n ih =>
    simp only [List.range_succ, List.flatMap_append, List.flatMap_singleton]
    by_cases last : k = n
    · have before : (List.range n).flatMap h = (List.range n).flatMap g := by
        refine List.flatMap_congr fun j member => others j fun same => ?_
        have := List.mem_range.mp member
        omega
      rw [before, ← last, here, List.append_assoc]
    · rw [others n fun same => last same.symm, List.append_assoc]
      refine ((ih (by omega)).append_right (g n)).trans ?_
      rw [List.append_assoc]
      exact List.perm_append_comm.append_left _

theorem inv_start : f.Inv ⟨f.start, []⟩ where
  forward k := le_refl (f.start k)
  bounded k := le_max_left ..
  behind := by
    have none : ∀ k, Int.range (f.start k) (f.start k) = [] := fun k =>
      Chunks.range_empty (le_refl (f.start k))
    simp [none]

theorem step_cases {k : Nat} (hstep : f.step s k = some t) :
    k < f.loops ∧ s.next k < f.stop k ∧ t.next = Function.update s.next k (s.next k + 1) ∧
      t.visited = s.visited ++ [s.next k] := by
  unfold Family.step at hstep
  split at hstep
  · cases hstep
    exact ⟨‹_ ∧ _›.1, ‹_ ∧ _›.2, rfl, rfl⟩
  · cases hstep

theorem inv_step (h : f.Inv s) {k : Nat} (hstep : f.step s k = some t) : f.Inv t := by
  obtain ⟨inside, below, hnext, hvisited⟩ := step_cases hstep
  have here : t.next k = s.next k + 1 := by rw [hnext, Function.update_self]
  have others : ∀ j, j ≠ k → t.next j = s.next j := fun j other => by
    rw [hnext, Function.update_of_ne other]
  refine ⟨fun j => ?_, fun j => ?_, ?_⟩
  · by_cases same : j = k
    · have := h.forward k
      rw [same, here]
      omega
    · exact others j same ▸ h.forward j
  · by_cases same : j = k
    · rw [same, here]
      exact le_trans (by omega) (le_max_right ..)
    · exact others j same ▸ h.bounded j
  · rw [hvisited]
    refine (h.behind.append_right _).trans (flatMap_push ?_ (fun j other => ?_) _ inside).symm
    · rw [here, Chunks.range_succ (h.forward k)]
    · rw [others j other]

theorem inv (reached : Reached f.system s) : f.Inv s := by
  refine Reached.invariant (I := f.Inv) ?_ (fun _ _ _ before hstep => inv_step before hstep) reached
  exact fun _ first => first ▸ inv_start

theorem behind_le {k : Nat} (h : f.Inv s) :
    Int.range (f.start k) (f.stop k) =
      Int.range (f.start k) (s.next k) ++ Int.range (s.next k) (f.stop k) := by
  rcases Int.le_total (s.next k) (f.stop k) with inside | outside
  · exact (Chunks.range_append (h.forward k) inside).symm
  · have bound := h.bounded k
    rw [Chunks.range_empty outside, List.append_nil]
    rcases Int.le_total (f.start k) (f.stop k) with some | none
    · rw [le_antisymm outside (max_eq_right some ▸ bound)]
    · rw [Chunks.range_empty none, Chunks.range_empty (max_eq_left none ▸ bound)]

/-- Nothing is visited more often than the loops have it. -/
theorem visited_le (reached : Reached f.system s) (i : Int) : s.visited.count i ≤ f.all.count i := by
  have h := inv reached
  rw [h.behind.count_eq, Family.all, List.count_flatMap, List.count_flatMap]
  refine List.sum_le_sum fun k _ => ?_
  simp only [Function.comp]
  rw [behind_le h, List.count_append]
  exact Nat.le_add_right ..

/-- When no loop can go on, everything has been visited. -/
theorem visited_all (reached : Reached f.system s) (ended : Terminal f.system s) :
    s.visited.Perm f.all := by
  have h := inv reached
  refine h.behind.trans (List.Perm.of_eq (List.flatMap_congr fun k member => ?_))
  have stopped : f.stop k ≤ s.next k := by
    have stuck : f.step s k = none := ended k
    unfold Family.step at stuck
    split at stuck
    · cases stuck
    · have := List.mem_range.mp member
      omega
  rw [behind_le h, Chunks.range_empty stopped, List.append_nil]

theorem visited_length (reached : Reached f.system s) : s.visited.length ≤ f.all.length := by
  have h := inv reached
  rw [h.behind.length_eq, Family.all, List.length_flatMap, List.length_flatMap]
  refine List.sum_le_sum fun k _ => ?_
  rw [behind_le h, List.length_append]
  exact Nat.le_add_right ..

/-- Every run can be continued to its end, and has one. -/
theorem completes (reached : Reached f.system s) :
    ∃ as t, replay f.system s as = some t ∧ Terminal f.system t := by
  induction hn : f.all.length - s.visited.length generalizing s with
  | zero =>
    refine ⟨[], s, rfl, fun k => ?_⟩
    cases hstep : f.system.step s k with
    | none => rfl
    | some t =>
      have bound := visited_length (reached.next hstep)
      rw [(step_cases hstep).2.2.2, List.length_append, List.length_singleton] at bound
      omega
  | succ n ih =>
    by_cases ended : Terminal f.system s
    · exact ⟨[], s, rfl, ended⟩
    · rw [Terminal, not_forall] at ended
      obtain ⟨k, hk⟩ := ended
      obtain ⟨t, hstep⟩ := Option.ne_none_iff_exists'.mp hk
      have longer : f.all.length - t.visited.length = n := by
        rw [(step_cases hstep).2.2.2, List.length_append, List.length_singleton]
        omega
      obtain ⟨as, u, run, done⟩ := ih (reached.next hstep) longer
      exact ⟨k :: as, u, (replay_cons hstep as).trans run, done⟩

/-- What the runs visit in the end is what the loops have. -/
theorem ended_count {g : Int → Nat} :
    (∀ s, Reached f.system s → Terminal f.system s → ∀ i, s.visited.count i = g i) ↔
      ∀ i, f.all.count i = g i := by
  constructor
  · intro runs i
    have start : Reached f.system ⟨f.start, []⟩ := .start rfl
    obtain ⟨as, t, run, ended⟩ := completes start
    have reached := Reached.replay start as run
    rw [← (visited_all reached ended).count_eq, runs t reached ended]
  · intro all s reached ended i
    rw [(visited_all reached ended).count_eq, all]

def Family.ofBounds (bounds : List (Int × Int)) : Family :=
  ⟨bounds.length, fun k => (bounds.getD k (0, 0)).1, fun k => (bounds.getD k (0, 0)).2⟩

theorem ofBounds_all (bounds : List (Int × Int)) :
    (Family.ofBounds bounds).all = bounds.flatMap fun bound => Int.range bound.1 bound.2 := by
  induction bounds using List.reverseRecOn with
  | nil => rfl
  | append_singleton bounds bound ih =>
    rw [List.flatMap_append, List.flatMap_singleton, ← ih]
    simp only [Family.all, Family.ofBounds, List.length_append, List.length_singleton,
      List.range_succ, List.flatMap_append, List.flatMap_singleton]
    congr 1
    · refine List.flatMap_congr fun k member => ?_
      rw [List.getD_append _ _ _ _ (List.mem_range.mp member)]
    · rw [List.getD_append_right _ _ _ _ (le_refl _), Nat.sub_self]
      rfl

end Loops
