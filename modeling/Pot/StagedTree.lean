import Mathlib.Algebra.BigOperators.Group.List.Basic
import Mathlib.Algebra.Group.Action.Defs
import Mathlib.Algebra.GroupWithZero.Nat
import Mathlib.Algebra.Order.BigOperators.Group.List
import Mathlib.Algebra.Order.Group.Nat
import Mathlib.Data.List.MinMax
import Mathlib.Data.List.Nodup
import Mathlib.Data.List.Perm.Subperm
import Mathlib.Order.Nat

/-! Trees whose nodes open their children in stages, the next stage when all of the one before are
closed: how many nodes that have children can be open at a time. -/

structure StagedTree (α : Type*) where
  root : α
  stages : α → List (List α)
  rank : α → Nat
  lower : ∀ a, ∀ stage ∈ stages a, ∀ b ∈ stage, rank b < rank a
  some : ∀ a, ∀ stage ∈ stages a, stage ≠ []
  top : ∀ a, root ∉ (stages a).flatten
  once : ∀ a, (stages a).flatten.Nodup
  parent : ∀ a b c, c ∈ (stages a).flatten → c ∈ (stages b).flatten → a = b

namespace StagedTree

variable {α : Type*} (t : StagedTree α)

/-- A value for each node, from those of its children. -/
def eval {β : Type*} (f : List (List β) → β) (a : α) : β :=
  f ((t.stages a).attach.map fun stage => stage.val.attach.map fun b => eval f b.val)
termination_by t.rank a
decreasing_by exact t.lower a stage.val stage.property b.val b.property

theorem eval_eq {β : Type*} (f : List (List β) → β) (a : α) :
    t.eval f a = f ((t.stages a).map fun stage => stage.map (t.eval f)) := by
  rw [eval]
  have inner : ∀ stage : List α,
      (stage.attach.map fun b => t.eval f b.val) = stage.map (t.eval f) := fun stage =>
    List.attach_map_val
  simp only [inner]
  exact congrArg f List.attach_map_val

/-- The most nodes with children at and below the node that are open at a time. -/
def occupies : α → Nat :=
  t.eval fun stages => if stages.isEmpty then 0 else (stages.map List.sum).foldr max 0 + 1

def load (nodes : List α) : Nat := (nodes.map t.occupies).sum

/-- The root not counted. -/
def width : Nat := ((t.stages t.root).map t.load).foldr max 0

theorem occupies_eq (a : α) : t.occupies a =
    if (t.stages a).isEmpty then 0 else ((t.stages a).map t.load).foldr max 0 + 1 := by
  rw [occupies, eval_eq, List.isEmpty_map, List.map_map]
  rfl

theorem occupies_eq_zero {a : α} : t.occupies a = 0 ↔ t.stages a = [] := by
  rw [occupies_eq]
  split
  · rename_i none
    exact iff_of_true rfl (List.isEmpty_iff.mp none)
  · rename_i some
    exact iff_of_false (Nat.succ_ne_zero _) fun none => some (List.isEmpty_iff.mpr none)

theorem load_lt {a : α} {stage : List α} (mem : stage ∈ t.stages a) :
    t.load stage < t.occupies a := by
  rw [occupies_eq, if_neg (fun none => List.ne_nil_of_mem mem (List.isEmpty_iff.mp none))]
  exact Nat.lt_succ_of_le (List.le_max_of_le' 0 (List.mem_map_of_mem mem) le_rfl)

theorem load_le_width {stage : List α} (mem : stage ∈ t.stages t.root) : t.load stage ≤ t.width :=
  List.le_max_of_le' 0 (List.mem_map_of_mem mem) le_rfl

theorem exists_heavy {a : α} (some : t.stages a ≠ []) :
    ∃ stage ∈ t.stages a, t.load stage = ((t.stages a).map t.load).foldr max 0 := by
  have largest := List.foldr_max_of_ne_nil (l := (t.stages a).map t.load) (by simpa using some)
  exact List.mem_map.mp (List.maximum_mem largest.symm)

open Classical in
/-- A stage of the largest load, if there is a stage. -/
noncomputable def heavy (a : α) : List α :=
  if some : t.stages a ≠ [] then (t.exists_heavy some).choose else []

theorem heavy_mem {a : α} (some : t.stages a ≠ []) : t.heavy a ∈ t.stages a := by
  rw [heavy, dif_pos some]
  exact (t.exists_heavy some).choose_spec.1

theorem load_heavy (a : α) : t.load (t.heavy a) = ((t.stages a).map t.load).foldr max 0 := by
  by_cases some : t.stages a ≠ []
  · rw [heavy, dif_pos some]
    exact (t.exists_heavy some).choose_spec.2
  · rw [heavy, dif_neg some, not_not.mp some]
    rfl

theorem occupies_heavy {a : α} (some : t.stages a ≠ []) :
    t.occupies a = t.load (t.heavy a) + 1 := by
  rw [occupies_eq, if_neg (fun none => some (List.isEmpty_iff.mp none)), load_heavy]

theorem heavy_subset {a : α} : t.heavy a ⊆ (t.stages a).flatten := by
  intro b mem
  by_cases some : t.stages a ≠ []
  · exact List.mem_flatten_of_mem (t.heavy_mem some) mem
  · rw [heavy, dif_neg some] at mem
    cases mem

theorem load_append (l m : List α) : t.load (l ++ m) = t.load l + t.load m := by
  simp [load]

theorem load_flatMap (l : List α) (f : α → List α) :
    t.load (l.flatMap f) = (l.map fun a => t.load (f a)).sum := by
  rw [load, List.map_flatMap, List.flatMap_def, List.sum_flatten, List.map_map]
  rfl

theorem load_mono {l m : List α} (distinct : l.Nodup) (subset : l ⊆ m) : t.load l ≤ t.load m := by
  obtain ⟨k, perm, sublist⟩ := distinct.subperm subset
  calc t.load l = t.load k := ((perm.map t.occupies).sum_eq).symm
    _ ≤ t.load m := (sublist.map t.occupies).sum_le_sum fun _ _ => Nat.zero_le _

theorem sum_succ (l : List α) (f : α → Nat) :
    (l.map fun a => f a + 1).sum = (l.map f).sum + l.length := by
  rw [List.sum_map_add, List.map_const', List.sum_replicate, smul_eq_mul, Nat.mul_one]

theorem load_filter (l : List α) :
    t.load (l.filter fun b => t.occupies b ≠ 0) = t.load l := by
  induction l with
  | nil => rfl
  | cons a l ih =>
    rw [List.filter_cons]
    split
    · exact congrArg (t.occupies a + ·) ih
    · rename_i none
      have zero : t.occupies a = 0 := not_not.mp fun some => none (decide_eq_true some)
      rw [ih, load, load, List.map_cons, List.sum_cons, zero, Nat.zero_add]

theorem heavy_nodup (a : α) : (t.heavy a).Nodup := by
  by_cases some : t.stages a ≠ []
  · exact (List.nodup_flatten.mp (t.once a)).1 _ (t.heavy_mem some)
  · rw [heavy, dif_neg some]
    exact List.nodup_nil

/-- What is open beside the root is in the current stage of an open node. -/
theorem open_le_width {l : List α} (distinct : l.Nodup) (current : α → List α)
    (covered : l ⊆ current t.root ++ l.flatMap current)
    (inner : ∀ a ∈ l, t.load (current a) < t.occupies a)
    (outer : t.load (current t.root) ≤ t.width) : l.length ≤ t.width := by
  have below : (l.map fun a => t.load (current a)).sum + l.length ≤ t.load l := by
    have each : (l.map fun a => t.load (current a) + 1).sum ≤ (l.map t.occupies).sum :=
      List.sum_le_sum fun a mem => inner a mem
    rw [sum_succ] at each
    exact each
  have above := t.load_mono distinct covered
  rw [load_append, load_flatMap] at above
  omega

/-- Nodes that have in them, with the root, all children with children of their heaviest stages. -/
theorem width_le_open {l : List α} (distinct : l.Nodup) (proper : t.root ∉ l)
    (branching : ∀ a ∈ l, t.stages a ≠ [])
    (closed : ∀ a ∈ t.root :: l, ∀ b ∈ t.heavy a, t.stages b ≠ [] → b ∈ l) :
    t.width ≤ l.length := by
  classical
  have apart : ((t.root :: l).flatMap t.heavy).Nodup := by
    refine List.nodup_flatMap.mpr ⟨fun a _ => t.heavy_nodup a, ?_⟩
    refine List.Pairwise.imp ?_ (List.nodup_cons.mpr ⟨proper, distinct⟩)
    intro a b differ c left right
    exact differ (t.parent a b c (t.heavy_subset left) (t.heavy_subset right))
  have inside : ((t.root :: l).flatMap t.heavy).filter (fun b => t.occupies b ≠ 0) ⊆ l := by
    intro b mem
    obtain ⟨mem, occupied⟩ := List.mem_filter.mp mem
    obtain ⟨a, above, heavy⟩ := List.mem_flatMap.mp mem
    exact closed a above b heavy fun none => of_decide_eq_true occupied (t.occupies_eq_zero.mpr none)
  have below := t.load_mono (apart.filter _) inside
  rw [load_filter, List.flatMap_cons, load_append, load_flatMap, load_heavy] at below
  have each : t.load l = (l.map fun a => t.load (t.heavy a)).sum + l.length := by
    rw [← sum_succ, load]
    exact congrArg List.sum (List.map_congr_left fun a mem => t.occupies_heavy (branching a mem))
  rw [each] at below
  exact Nat.le_of_add_le_add_left ((Nat.add_comm _ _).trans_le below)

end StagedTree
