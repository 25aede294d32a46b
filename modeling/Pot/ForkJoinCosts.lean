import Mathlib.Algebra.Order.BigOperators.Group.Finset
import Mathlib.Algebra.BigOperators.Group.Finset.Piecewise
import Pot.ForkJoinJoins
import Pot.ForkJoinWakeups

/-! What the tasks of the pool have still to do. A body has so many operations left, each is worth
the accesses of a derived_execute, and a task that is queued has still to be started. -/
namespace Pot.ForkJoin
open Transition
open Sandbox (Item pop publish Available)

variable {R Tid Kid : Type} {n : Nat}

/-- The operations of a body, its children's included, at the results of the children. -/
def Body.size : Body R → List (Option R) → Nat
  | .finish _, _ => 1
  | .run child rest, env => child.size [] + rest.size (env ++ [child.eval []]) + 1
  | .get i rest, env =>
    match env[i]? with
    | some (some r) => (rest r).size env + 1
    | _ => 1

/-- The accesses of a task whose body has `size` operations left. While it waits it repeats
some, which do not count. -/
def Pc.left (size : Nat) : Pc Tid n → Nat
  | .index _ => 8 * size + 6
  | .insert _ _ => 8 * size + 5
  | .publish _ _ => 8 * size + 4
  | .fetchAdd _ => 8 * size + 3
  | .notify _ => 8 * size + 2
  | .running => 8 * size + 1
  | .load _ | .steal _ _ => 8 * size
  | .final_suspend => 1

def Machine.size (m : Machine R Tid Kid n) (t : Tid) : Nat :=
  match m.body t with
  | some b => b.size ((m.locals t).map m.result)
  | none => 0

structure Machine.Costs (m : Machine R Tid Kid n) (known : Finset Tid) (cost : Tid → Nat) :
    Prop where
  known : ∀ t, t ∈ known ↔ m.pool.created t = true
  begun : ∀ th, ∀ f ∈ m.pool.stack th, f.pc.left (m.size f.task) ≤ cost f.task
  queued : ∀ c, ∀ t ∈ (m.pool.queue c).map Item.call, 8 * m.size t + 2 ≤ cost t
  submitted : ∀ th, ∀ f ∈ m.pool.stack th, ∀ t, f.pc.submits = some t → 8 * m.size t + 2 ≤ cost t

/-- It is in no queue and on its way into none. -/
def State.away (s : State Tid Kid n) (t : Tid) : Prop :=
  (∀ c, t ∉ (s.queue c).map Item.call) ∧ ∀ th, ∀ f ∈ s.stack th, f.pc.submits ≠ some t

def Machine.Within (m : Machine R Tid Kid n) (k : Nat) : Prop :=
  ∃ known cost, m.Costs known cost ∧ ∑ t ∈ known, cost t ≤ k

theorem left_le (size : Nat) (pc : Pc Tid n) : pc.left size ≤ 8 * size + 6 := by
  cases pc <;> simp only [Pc.left] <;> omega

theorem left_awaits {pc : Pc Tid n} (awaits : pc.awaits ≠ none) (size : Nat) :
    pc.left size = 8 * size := by
  cases pc <;> first | rfl | exact absurd rfl awaits

theorem size_pool (m : Machine R Tid Kid n) (pool : State Tid Kid n) (t : Tid) :
    ({ m with pool } : Machine R Tid Kid n).size t = m.size t := rfl

section Reached
variable [DecidableEq Tid] [DecidableEq Kid] [NeZero n] {s : State Tid Kid n}
  (reached : Reached (system Tid Kid n) s)
include reached

theorem frame_created {th : Thread Kid n} {f : Frame Tid n} (inside : f ∈ s.stack th) :
    s.created f.task = true := by
  obtain ⟨place, clock, h⟩ := reached_ordered reached
  refine (h.created f.task).mpr fun fresh => ?_
  have started := (h.frames th f inside).started
  rw [fresh] at started
  exact Nat.lt_irrefl 0 started

theorem begun_away {th : Thread Kid n} {f : Frame Tid n} (inside : f ∈ s.stack th) :
    s.away f.task := by
  obtain ⟨place, clock, h⟩ := reached_ordered reached
  have started := (h.frames th f inside).started
  refine ⟨fun c mem => ?_, fun j g at_j submits => ?_⟩
  · rw [(h.queued c f.task).mp mem] at started
    exact Nat.lt_irrefl 0 started
  · rw [(h.frames j g at_j).submits _ submits] at started
    exact Nat.lt_irrefl 0 started

theorem queued_created {c : Fin n} {t : Tid} (mem : t ∈ (s.queue c).map Item.call) :
    s.created t = true := by
  obtain ⟨place, clock, h⟩ := reached_ordered reached
  refine (h.created t).mpr fun fresh => ?_
  cases fresh.symm.trans ((h.queued c t).mp mem)

theorem submitted_created {th : Thread Kid n} {f : Frame Tid n} (inside : f ∈ s.stack th) {t : Tid}
    (submits : f.pc.submits = some t) : s.created t = true := by
  obtain ⟨place, clock, h⟩ := reached_ordered reached
  refine (h.created t).mpr fun fresh => ?_
  cases fresh.symm.trans ((h.frames th f inside).submits t submits)

theorem at_top_of {pc : Pc Tid n} (awaits : pc.awaits = none) (at_pc : s.at pc) :
    ∃ th f below, s.stack th = f :: below ∧ f.pc = pc := by
  obtain ⟨th, f, inside, rfl⟩ := at_pc
  obtain ⟨place, clock, h⟩ := reached_ordered reached
  cases top : s.stack th with
  | nil =>
    rw [top] at inside
    cases inside
  | cons g below =>
    rw [top] at inside
    rcases List.mem_cons.mp inside with rfl | buried
    · exact ⟨th, f, below, top, rfl⟩
    · have piled := h.buried th
      simp only [State.view, top] at piled
      exact absurd awaits ((List.pairwise_cons.mp piled).1 f buried).1

end Reached

section Steps
variable [DecidableEq Tid] [DecidableEq Kid] {m u : Machine R Tid Kid n} {known : Finset Tid}
  {cost : Tid → Nat}

theorem Machine.Costs.step (h : m.Costs known cost) {task : Tid} {x : Nat} {th : Thread Kid n}
    {frames : List (Frame Tid n)} (created : u.pool.created = m.pool.created)
    (sizes : ∀ t, t ≠ task → u.size t = m.size t)
    (stack : u.pool.stack = Function.update m.pool.stack th frames)
    (others : ∀ j, j ≠ th → ∀ f ∈ m.pool.stack j, f.task ≠ task) (away : u.pool.away task)
    (begun : ∀ g ∈ frames, g.task = task ∧ g.pc.left (u.size task) ≤ x ∨
      g.task ≠ task ∧ ∃ f ∈ m.pool.stack th, f.task = g.task ∧
        g.pc.left (m.size g.task) ≤ f.pc.left (m.size g.task))
    (queued : ∀ c, ∀ t ∈ (u.pool.queue c).map Item.call, t ∈ (m.pool.queue c).map Item.call ∨
      ∃ f ∈ m.pool.stack th, f.pc.submits = some t)
    (submitted : ∀ g ∈ frames, ∀ t, g.pc.submits = some t →
      ∃ f ∈ m.pool.stack th, f.pc.submits = some t) :
    u.Costs known (Function.update cost task x) := by
  have bound : ∀ t, t ≠ task → 8 * m.size t + 2 ≤ cost t →
      8 * u.size t + 2 ≤ Function.update cost task x t := by
    intro t other less
    rw [sizes t other, Function.update_of_ne other]
    exact less
  refine ⟨fun t => created ▸ h.known t, fun j g inside => ?_, fun c t inside => ?_,
    fun j g inside t submits => ?_⟩
  · by_cases here : j = th
    · rw [stack, here, Function.update_self] at inside
      rcases begun g inside with ⟨same, less⟩ | ⟨other, f, before, same, less⟩
      · rw [same, Function.update_self]
        exact less
      · rw [sizes _ other, Function.update_of_ne other]
        exact less.trans (same ▸ h.begun th f before)
    · rw [stack, Function.update_of_ne here] at inside
      have other := others j here g inside
      rw [sizes _ other, Function.update_of_ne other]
      exact h.begun j g inside
  · refine bound t (fun same => away.1 c (same ▸ inside)) ?_
    rcases queued c t inside with before | ⟨f, before, submits⟩
    · exact h.queued c t before
    · exact h.submitted th f before t submits
  · refine bound t (fun same => away.2 j g inside (same ▸ submits)) ?_
    by_cases here : j = th
    · rw [stack, here, Function.update_self] at inside
      obtain ⟨f, before, submits⟩ := submitted g inside t submits
      exact h.submitted th f before t submits
    · rw [stack, Function.update_of_ne here] at inside
      exact h.submitted j g inside t submits

theorem sum_lower {task : Tid} {x k : Nat} (mem : task ∈ known) (less : x < cost task)
    (bound : ∑ t ∈ known, cost t ≤ k) : ∑ t ∈ known, Function.update cost task x t < k := by
  refine Nat.lt_of_lt_of_le (Finset.sum_lt_sum (fun t _ => ?_) ⟨task, mem, ?_⟩) bound
  · rw [Function.update_apply]
    split
    · rename_i same
      exact same ▸ Nat.le_of_lt less
    · exact Nat.le_refl _
  · rw [Function.update_self]
    exact less

/-- A new child: what it has to do was its parent's before. -/
theorem Machine.Costs.run (h : m.Costs known cost) {task child : Tid} {th : Thread Kid n}
    {below : List (Frame Tid n)} {a b k : Nat} (top : m.pool.stack th = ⟨task, .running⟩ :: below)
    (born : m.pool.created task = true) (others : ∀ j, j ≠ th → ∀ f ∈ m.pool.stack j, f.task ≠ task)
    (piled : ∀ f ∈ below, f.task ≠ task) (away : m.pool.away task)
    (fresh : m.pool.created child = false) (unstarted : m.pool.unstarted child)
    (unborn : m.pool.away child)
    (created : u.pool.created = Function.update m.pool.created child true)
    (stack : u.pool.stack = Function.update m.pool.stack th (⟨task, .index child⟩ :: below))
    (queue : u.pool.queue = m.pool.queue)
    (sizes : ∀ t, t ≠ task → t ≠ child → u.size t = m.size t)
    (before : m.size task = a + b + 1) (mine : u.size task = b) (its : u.size child = a)
    (bound : ∑ t ∈ known, cost t ≤ k) : ∃ j, j < k ∧ u.Within j := by
  have different : task ≠ child := unstarted th ⟨task, .running⟩ (top ▸ List.mem_cons_self)
  have outside : child ∉ known := fun mem => by
    rw [(h.known child).mp mem] at fresh
    cases fresh
  let cost' := Function.update (Function.update cost child (8 * a + 2)) task (8 * b + 6)
  have at_task : cost' task = 8 * b + 6 := Function.update_self ..
  have at_child : cost' child = 8 * a + 2 :=
    (Function.update_of_ne different.symm ..).trans (Function.update_self ..)
  have elsewhere : ∀ t, t ≠ task → t ≠ child → cost' t = cost t := fun t left right =>
    (Function.update_of_ne left ..).trans (Function.update_of_ne right ..)
  have bounded : ∀ t, t ≠ task → t ≠ child → 8 * m.size t + 2 ≤ cost t →
      8 * u.size t + 2 ≤ cost' t := by
    intro t left right less
    rw [sizes t left right, elsewhere t left right]
    exact less
  have paid : 8 * (a + b + 1) + 1 ≤ cost task := by
    have due := h.begun th _ (top ▸ List.mem_cons_self)
    rw [before] at due
    exact due
  refine ⟨∑ t ∈ insert child known, cost' t, ?_, insert child known, cost', ?_, Nat.le_refl _⟩
  · rw [Finset.sum_insert outside, at_child]
    have same : ∀ t ∈ known, cost' t = Function.update cost task (8 * b + 6) t := by
      intro t mem
      have right : t ≠ child := fun eq => outside (eq ▸ mem)
      by_cases here : t = task
      · rw [here, at_task, Function.update_self]
      · rw [elsewhere t here right, Function.update_of_ne here]
    have exchange := Finset.sum_update_of_mem ((h.known task).mpr born) cost (8 * b + 6)
    have split := Finset.add_sum_erase known cost ((h.known task).mpr born)
    rw [Finset.sdiff_singleton_eq_erase] at exchange
    rw [Finset.sum_congr rfl same, exchange]
    omega
  · refine ⟨fun t => ?_, fun j g inside => ?_, fun c t inside => ?_, fun j g inside t submits => ?_⟩
    · rw [Finset.mem_insert, created, Function.update_apply, h.known]
      split
      · rename_i same
        exact ⟨fun _ => rfl, fun _ => .inl same⟩
      · rename_i other
        exact ⟨fun mem => mem.resolve_left other, .inr⟩
    · by_cases here : j = th
      · rw [stack, here, Function.update_self] at inside
        rcases List.mem_cons.mp inside with rfl | buried
        · rw [at_task, mine]
          exact Nat.le_refl _
        · have old : g ∈ m.pool.stack th := top ▸ List.mem_cons_of_mem _ buried
          rw [sizes _ (piled g buried) (unstarted th g old),
            elsewhere _ (piled g buried) (unstarted th g old)]
          exact h.begun th g old
      · rw [stack, Function.update_of_ne here] at inside
        rw [sizes _ (others j here g inside) (unstarted j g inside),
          elsewhere _ (others j here g inside) (unstarted j g inside)]
        exact h.begun j g inside
    · rw [queue] at inside
      exact bounded t (fun same => away.1 c (same ▸ inside)) (fun same => unborn.1 c (same ▸ inside))
        (h.queued c t inside)
    · have old : ∀ i, ∀ f ∈ m.pool.stack i, f.pc.submits = some t → 8 * u.size t + 2 ≤ cost' t :=
        fun i f before submits => bounded t (fun same => away.2 i f before (same ▸ submits))
          (fun same => unborn.2 i f before (same ▸ submits)) (h.submitted i f before t submits)
      by_cases here : j = th
      · rw [stack, here, Function.update_self] at inside
        rcases List.mem_cons.mp inside with rfl | buried
        · cases submits
          rw [at_child, its]
        · exact old th g (top ▸ List.mem_cons_of_mem _ buried) submits
      · rw [stack, Function.update_of_ne here] at inside
        exact old j g inside submits

end Steps

end Pot.ForkJoin
