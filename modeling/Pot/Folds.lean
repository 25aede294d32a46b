import Mathlib.Data.List.Perm.Basic
import Mathlib.Data.List.Range

/-! Left folds of an associative operator with an identity, and folds that are cut into blocks. -/
namespace Folds

section Monoid
variable {R : Type*} {f : R → R → R} {e : R} [Std.Associative f] [Std.LawfulIdentity f e]

theorem fold_from (x : R) (l : List R) : l.foldl f x = f x (l.foldl f e) := by
  have right : f x e = x := Std.LawfulRightIdentity.right_id x
  have moved : l.foldl f (f x e) = f x (l.foldl f e) := List.foldl_assoc
  rw [← moved, right]

theorem fold_append (l m : List R) :
    (l ++ m).foldl f e = f (l.foldl f e) (m.foldl f e) := by
  rw [List.foldl_append, fold_from (f := f) (e := e)]

theorem fold_cons (x : R) (l : List R) : (x :: l).foldl f e = f x (l.foldl f e) := by
  have left : f e x = x := Std.LawfulLeftIdentity.left_id x
  rw [List.foldl_cons, left, fold_from (f := f) (e := e)]

/-- Folding the folds of the blocks is folding the whole. -/
theorem fold_blocks {ι : Type*} (block : ι → List R) (l : List ι) :
    (l.map fun i => (block i).foldl f e).foldl f e = (l.flatMap block).foldl f e := by
  induction l with
  | nil => rfl
  | cons i l ih =>
    rw [List.map_cons, List.flatMap_cons, fold_append (f := f) (e := e),
      fold_cons (f := f) (e := e), ih]

omit [Std.Associative f] in
theorem fold_identities {l : List R} (all : ∀ v ∈ l, v = e) : l.foldl f e = e := by
  induction l with
  | nil => rfl
  | cons v l ih =>
    have left : f e e = e := Std.LawfulLeftIdentity.left_id e
    rw [List.foldl_cons, all v List.mem_cons_self, left]
    exact ih fun w member => all w (List.mem_cons_of_mem v member)

omit [Std.Associative f] in
/-- Where nothing but one value and the identity is folded, and the value stays when it comes twice,
the fold is the identity only if all that is folded is. -/
theorem fold_ne {l : List R} (two : ∀ x y : R, x ≠ e → y ≠ e → x = y)
    (stays : ∀ x, x ≠ e → f x x ≠ e) : l.foldl f e ≠ e ↔ ∃ v ∈ l, v ≠ e := by
  have from_any : ∀ x, l.foldl f x ≠ e ↔ x ≠ e ∨ ∃ v ∈ l, v ≠ e := by
    induction l with
    | nil => simp
    | cons v l ih =>
      intro x
      have first : f x v ≠ e ↔ x ≠ e ∨ v ≠ e := by
        by_cases left : x = e
        · have plain : f e v = v := Std.LawfulLeftIdentity.left_id v
          rw [left, plain]
          exact (or_iff_right fun no => no rfl).symm
        · refine iff_of_true ?_ (.inl left)
          by_cases right : v = e
          · have plain : f x e = x := Std.LawfulRightIdentity.right_id x
            rw [right, plain]
            exact left
          · rw [two v x right left]
            exact stays x left
      rw [List.foldl_cons, ih, first, List.exists_mem_cons_iff, or_assoc]
  exact (from_any e).trans (or_iff_right fun no => no rfl)

/-- Where two equal values cancel, the fold misses a value that is left out. -/
theorem fold_lost {l m : List R} {x : R} (two : ∀ x y : R, x ≠ e → y ≠ e → x = y)
    (some : x ≠ e) (cancels : f x x = e) :
    (l ++ e :: m).foldl f e ≠ (l ++ x :: m).foldl f e := by
  have left : ∀ y, f e y = y := Std.LawfulLeftIdentity.left_id
  have right : ∀ y, f y e = y := Std.LawfulRightIdentity.right_id
  have either : ∀ y, y = e ∨ y = x := fun y =>
    or_iff_not_imp_left.mpr fun other => two y x other some
  rw [fold_append (f := f) (e := e), fold_append (f := f) (e := e), fold_cons (f := f) (e := e),
    fold_cons (f := f) (e := e), left]
  rcases either (l.foldl f e) with before | before
  · rcases either (m.foldl f e) with after | after
    · rw [before, after, left, left, right]
      exact some.symm
    · rw [before, after, left, left, cancels]
      exact some
  · rcases either (m.foldl f e) with after | after
    · rw [before, after, right, cancels]
      exact some
    · rw [before, after, cancels, right]
      exact some.symm

end Monoid

theorem blocks_flatten (n size blocks : Nat) :
    (List.range blocks).flatMap (fun k =>
      List.range' (k * size) (min n (k * size + size) - k * size)) =
        List.range (min n (blocks * size)) := by
  induction blocks with
  | zero => simp
  | succ k ih =>
    rw [List.range_succ, List.flatMap_append, ih, List.flatMap_singleton, Nat.succ_mul]
    rcases Nat.le_total n (k * size) with outside | inside
    · have none : min n (k * size + size) - k * size = 0 := by omega
      rw [none, Nat.min_eq_left outside, Nat.min_eq_left (by omega), List.range'_zero,
        List.append_nil]
    · rw [Nat.min_eq_right inside, List.range_eq_range', List.range_eq_range']
      have joined : List.range' 0 (k * size) ++
          List.range' (0 + 1 * (k * size)) (min n (k * size + size) - k * size) =
            List.range' 0 (k * size + (min n (k * size + size) - k * size)) := List.range'_append
      rw [Nat.zero_add, Nat.one_mul] at joined
      rw [joined]
      congr 1
      omega

section Slots
variable {α : Type*}

def writes (f : Nat → α) (order : List Nat) (slots : List α) : List α :=
  order.foldl (fun slots i => slots.set i (f i)) slots

theorem writes_length (f : Nat → α) (order : List Nat) (slots : List α) :
    (writes f order slots).length = slots.length := by
  induction order generalizing slots with
  | nil => rfl
  | cons i order ih =>
    rw [writes, List.foldl_cons]
    exact (ih _).trans List.length_set

theorem writes_get (f : Nat → α) (order : List Nat) (slots : List α) {k : Nat}
    (inside : k < slots.length) :
    (writes f order slots)[k]? = if k ∈ order then some (f k) else slots[k]? := by
  induction order generalizing slots with
  | nil => rfl
  | cons i order ih =>
    have rest := ih (slots.set i (f i)) (by rw [List.length_set]; exact inside)
    rw [writes, List.foldl_cons]
    refine rest.trans ?_
    by_cases later : k ∈ order
    · rw [if_pos later, if_pos (List.mem_cons_of_mem i later)]
    · rw [if_neg later]
      by_cases here : k = i
      · rw [here, if_pos List.mem_cons_self, List.getElem?_set_self (here ▸ inside)]
      · rw [if_neg fun mem => (List.mem_cons.mp mem).elim here later,
          List.getElem?_set_ne fun same => here same.symm]

/-- In whatever order the slots are written, they hold the same in the end. -/
theorem writes_all {f : Nat → α} {order : List Nat} {slots : List α}
    (all : order.Perm (List.range slots.length)) :
    writes f order slots = (List.range slots.length).map f := by
  refine List.ext_getElem? fun k => ?_
  rw [List.getElem?_map]
  rcases Nat.lt_or_ge k slots.length with inside | outside
  · rw [writes_get f order slots inside, if_pos (all.mem_iff.mpr (List.mem_range.mpr inside)),
      List.getElem?_range inside, Option.map_some]
  · rw [List.getElem?_eq_none (by rw [writes_length]; exact outside),
      List.getElem?_eq_none (by rw [List.length_range]; exact outside), Option.map_none]

end Slots
end Folds
