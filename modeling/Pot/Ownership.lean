import Mathlib.Data.List.Count
import Mathlib.Logic.Function.Basic
import Pot.Transition

/-! Items that are used once. A holder has at most one item, which moves from holder to holder until
it is used where it is; a used item can only be destroyed. A holder may also let its item go
without destroying it, and then the item is lost for good. -/
namespace Ownership
open Transition

inductive Event (C : Type*) where
  | moved (c : C)
  | used (c : C)
  | destroyed (c : C)
  deriving DecidableEq

variable {W C : Type*}

def Event.item : Event C → C
  | .moved c | .used c | .destroyed c => c

/-- What may come later: nothing about a destroyed item, and only the destruction of a used one. -/
def Event.Admits : Event C → Event C → Prop
  | .moved _, _ => True
  | .used c, later => later.item = c → later = .destroyed c
  | .destroyed c, later => later.item ≠ c

/-- In a log that keeps to this nothing happens twice, moves apart. -/
theorem count_le_one [DecidableEq C] {log : List (Event C)} (order : log.Pairwise Event.Admits)
    {e : Event C} (once : ¬ e.Admits e) : log.count e ≤ 1 := by
  induction order with
  | nil => exact Nat.zero_le 1
  | @cons first rest later _ ih =>
    rw [List.count_cons]
    split
    · rename_i same
      have same : first = e := eq_of_beq same
      have absent : e ∉ rest := fun mem => once (same ▸ later e mem)
      have zero := List.count_eq_zero_of_not_mem absent
      omega
    · exact ih

theorem count_used_le [DecidableEq C] {log : List (Event C)} (order : log.Pairwise Event.Admits)
    (c : C) : log.count (.used c) ≤ 1 :=
  count_le_one order fun admits => by cases admits rfl

theorem count_destroyed_le [DecidableEq C] {log : List (Event C)}
    (order : log.Pairwise Event.Admits) (c : C) : log.count (.destroyed c) ≤ 1 :=
  count_le_one order fun admits => admits rfl

structure State (W C : Type*) where
  /-- What a holder has, and whether it has been used. -/
  custody : W → Option (C × Bool)
  stored : List C
  log : List (Event C)

inductive Op (W C : Type*) where
  | store (w : W) (c : C)
  | move (v w : W)
  | use (w : W)
  | destroy (w : W)
  | drop (w : W)

def initial : State W C := ⟨fun _ => none, [], []⟩

structure Inv (s : State W C) : Prop where
  unique : ∀ v w c u u', s.custody v = some (c, u) → s.custody w = some (c, u') → v = w
  held : ∀ w c u, s.custody w = some (c, u) → c ∈ s.stored
  alive : ∀ w c u, s.custody w = some (c, u) → .destroyed c ∉ s.log
  unused : ∀ w c, s.custody w = some (c, false) → .used c ∉ s.log
  known : ∀ e ∈ s.log, e.item ∈ s.stored
  order : s.log.Pairwise Event.Admits

/-- Somebody has it, or it has been destroyed. -/
def Settled (s : State W C) (c : C) : Prop :=
  (∃ w u, s.custody w = some (c, u)) ∨ .destroyed c ∈ s.log

def Lost (s : State W C) (c : C) : Prop := c ∈ s.stored ∧ ¬ Settled s c

theorem initial_inv : Inv (initial : State W C) where
  unique _ _ _ _ _ held := by cases held
  held _ _ _ held := by cases held
  alive _ _ _ held := by cases held
  unused _ _ held := by cases held
  known _ mem := absurd mem List.not_mem_nil
  order := .nil

variable [DecidableEq W]

theorem of_update_none {f : W → Option (C × Bool)} {v w : W} {x : C × Bool}
    (held : Function.update f w none v = some x) : v ≠ w ∧ f v = some x := by
  by_cases same : v = w
  · subst same
    rw [Function.update_self] at held
    cases held
  · rw [Function.update_of_ne same] at held
    exact ⟨same, held⟩

theorem of_update_some {f : W → Option (C × Bool)} {v w : W} {x y : C × Bool}
    (held : Function.update f w (some y) v = some x) : (v = w ∧ x = y) ∨ (v ≠ w ∧ f v = some x) := by
  by_cases same : v = w
  · subst same
    rw [Function.update_self] at held
    exact .inl ⟨rfl, (Option.some.inj held).symm⟩
  · rw [Function.update_of_ne same] at held
    exact .inr ⟨same, held⟩

section Steps

variable {s : State W C} (h : Inv s)
include h

omit [DecidableEq W] in
/-- An event about an item that is held goes after all others about it. -/
theorem Inv.order_append {w : W} {c : C} {u : Bool} (held : s.custody w = some (c, u)) {e : Event C}
    (mine : e.item = c) (fits : u = true ∨ .used c ∈ s.log → e = .destroyed c) :
    (s.log ++ [e]).Pairwise Event.Admits := by
  refine List.pairwise_append.mpr ⟨h.order, List.pairwise_singleton _ _, fun earlier mem later last => ?_⟩
  rw [List.mem_singleton.mp last]
  cases earlier with
  | moved d => trivial
  | used d =>
    intro same
    have eq : d = c := same.symm.trans mine
    subst eq
    exact fits (.inr mem)
  | destroyed d =>
    intro same
    have eq : d = c := same.symm.trans mine
    subst eq
    exact h.alive w d u held mem

omit [DecidableEq W] in
theorem Inv.known_append {w : W} {c : C} {u : Bool} (held : s.custody w = some (c, u)) {e : Event C}
    (mine : e.item = c) : ∀ e' ∈ s.log ++ [e], e'.item ∈ s.stored := by
  intro e' mem
  rcases List.mem_append.mp mem with before | last
  · exact h.known e' before
  · rw [List.mem_singleton.mp last, mine]
    exact h.held w c u held

theorem Inv.store {w : W} {c : C} (fresh : c ∉ s.stored) :
    Inv { s with
      custody := Function.update s.custody w (some (c, false)), stored := s.stored ++ [c] } := by
  have older : ∀ v u, s.custody v ≠ some (c, u) := fun v u held => fresh (h.held v c u held)
  have silent : ∀ e ∈ s.log, e.item ≠ c := fun e mem same => fresh (same ▸ h.known e mem)
  refine ⟨fun v w' d u u' left right => ?_, fun v d u held => ?_, fun v d u held => ?_,
    fun v d held => ?_, fun e mem => List.mem_append_left _ (h.known e mem), h.order⟩
  · rcases of_update_some left with ⟨rfl, eq⟩ | ⟨-, first⟩ <;>
      rcases of_update_some right with ⟨rfl, eq'⟩ | ⟨-, second⟩
    · rfl
    · cases eq
      exact absurd second (older _ _)
    · cases eq'
      exact absurd first (older _ _)
    · exact h.unique v w' d u u' first second
  · rcases of_update_some held with ⟨-, eq⟩ | ⟨-, held⟩
    · cases eq
      exact List.mem_append_right _ List.mem_cons_self
    · exact List.mem_append_left _ (h.held v d u held)
  · rcases of_update_some held with ⟨-, eq⟩ | ⟨-, held⟩
    · cases eq
      exact fun mem => silent _ mem rfl
    · exact h.alive v d u held
  · rcases of_update_some held with ⟨-, eq⟩ | ⟨-, held⟩
    · cases eq
      exact fun mem => silent _ mem rfl
    · exact h.unused v d held

theorem Inv.drop (w : W) : Inv { s with custody := Function.update s.custody w none } where
  unique v w' d u u' left right :=
    h.unique v w' d u u' (of_update_none left).2 (of_update_none right).2
  held v d u held := h.held v d u (of_update_none held).2
  alive v d u held := h.alive v d u (of_update_none held).2
  unused v d held := h.unused v d (of_update_none held).2
  known := h.known
  order := h.order

theorem Inv.destroy {w : W} {c : C} {u : Bool} (held : s.custody w = some (c, u)) :
    Inv { s with
      custody := Function.update s.custody w none, log := s.log ++ [.destroyed c] } := by
  have dropped := h.drop w
  have others : ∀ v d u', Function.update s.custody w none v = some (d, u') → d ≠ c := by
    intro v d u' theirs same
    obtain ⟨other, before⟩ := of_update_none theirs
    exact other (h.unique v w c u' u (same ▸ before) held)
  refine ⟨dropped.unique, dropped.held, fun v d u' theirs mem => ?_, fun v d theirs mem => ?_,
    h.known_append held rfl, h.order_append held rfl fun _ => rfl⟩
  · rcases List.mem_append.mp mem with before | last
    · exact dropped.alive v d u' theirs before
    · exact others v d u' theirs (Event.destroyed.inj (List.mem_singleton.mp last))
  · rcases List.mem_append.mp mem with before | last
    · exact dropped.unused v d theirs before
    · cases List.mem_singleton.mp last

theorem Inv.use {w : W} {c : C} (held : s.custody w = some (c, false)) :
    Inv { s with
      custody := Function.update s.custody w (some (c, true)), log := s.log ++ [.used c] } := by
  have unused := h.unused w c held
  -- whoever has an item after the step has it before
  have before : ∀ v d u, Function.update s.custody w (some (c, true)) v = some (d, u) →
      ∃ u', s.custody v = some (d, u') ∧ (u = false → u' = false ∧ d ≠ c) := by
    intro v d u theirs
    rcases of_update_some theirs with ⟨rfl, eq⟩ | ⟨other, theirs⟩
    · cases eq
      exact ⟨false, held, fun unused => by cases unused⟩
    · refine ⟨u, theirs, fun still => ⟨still, fun same => other ?_⟩⟩
      exact h.unique v w c u false (same ▸ theirs) held
  refine ⟨fun v w' d u u' left right => ?_, fun v d u theirs => ?_, fun v d u theirs mem => ?_,
    fun v d theirs mem => ?_, h.known_append held rfl, h.order_append held rfl fun after => ?_⟩
  · obtain ⟨_, left, -⟩ := before v d u left
    obtain ⟨_, right, -⟩ := before w' d u' right
    exact h.unique v w' d _ _ left right
  · obtain ⟨_, theirs, -⟩ := before v d u theirs
    exact h.held v d _ theirs
  · obtain ⟨_, theirs, -⟩ := before v d u theirs
    rcases List.mem_append.mp mem with earlier | last
    · exact h.alive v d _ theirs earlier
    · cases List.mem_singleton.mp last
  · obtain ⟨_, theirs, still⟩ := before v d false theirs
    obtain ⟨rfl, other⟩ := still rfl
    rcases List.mem_append.mp mem with earlier | last
    · exact h.unused v d theirs earlier
    · exact other (Event.used.inj (List.mem_singleton.mp last))
  · rcases after with used | mem
    · cases used
    · exact absurd mem unused

theorem Inv.move {v w : W} {c : C} (held : s.custody v = some (c, false)) :
    Inv { s with
      custody := Function.update (Function.update s.custody v none) w (some (c, false))
      log := s.log ++ [.moved c] } := by
  have unused := h.unused v c held
  have before : ∀ x d u, Function.update (Function.update s.custody v none) w (some (c, false)) x =
      some (d, u) → (x = w ∧ d = c ∧ u = false) ∨ (x ≠ v ∧ s.custody x = some (d, u)) := by
    intro x d u theirs
    rcases of_update_some theirs with ⟨rfl, eq⟩ | ⟨-, theirs⟩
    · cases eq
      exact .inl ⟨rfl, rfl, rfl⟩
    · exact .inr (of_update_none theirs)
  have others : ∀ x u, s.custody x = some (c, u) → x = v := fun x u theirs =>
    h.unique x v c u false theirs held
  refine ⟨fun x y d u u' left right => ?_, fun x d u theirs => ?_, fun x d u theirs mem => ?_,
    fun x d theirs mem => ?_, h.known_append held rfl, h.order_append held rfl fun after => ?_⟩
  · rcases before x d u left with ⟨rfl, rfl, -⟩ | ⟨away, first⟩ <;>
      rcases before y d u' right with ⟨rfl, eq, -⟩ | ⟨away', second⟩
    · rfl
    · exact absurd (others y u' second) away'
    · subst eq
      exact absurd (others x u first) away
    · exact h.unique x y d u u' first second
  · rcases before x d u theirs with ⟨-, rfl, -⟩ | ⟨-, theirs⟩
    · exact h.held v d false held
    · exact h.held x d u theirs
  · rcases List.mem_append.mp mem with earlier | last
    · rcases before x d u theirs with ⟨-, rfl, -⟩ | ⟨-, theirs⟩
      · exact h.alive v d false held earlier
      · exact h.alive x d u theirs earlier
    · cases List.mem_singleton.mp last
  · rcases List.mem_append.mp mem with earlier | last
    · rcases before x d false theirs with ⟨-, rfl, -⟩ | ⟨-, theirs⟩
      · exact unused earlier
      · exact h.unused x d theirs earlier
    · cases List.mem_singleton.mp last
  · rcases after with used | mem
    · cases used
    · exact absurd mem unused

end Steps

variable [DecidableEq C]

def step (s : State W C) : Op W C → Option (State W C)
  | .store w c =>
    if (s.custody w).isNone ∧ c ∉ s.stored then
      some { s with
        custody := Function.update s.custody w (some (c, false))
        stored := s.stored ++ [c] }
    else none
  | .move v w =>
    match s.custody v, s.custody w with
    | some (c, false), none =>
      some { s with
        custody := Function.update (Function.update s.custody v none) w (some (c, false))
        log := s.log ++ [.moved c] }
    | _, _ => none
  | .use w =>
    match s.custody w with
    | some (c, false) =>
      some { s with
        custody := Function.update s.custody w (some (c, true))
        log := s.log ++ [.used c] }
    | _ => none
  | .destroy w =>
    match s.custody w with
    | some (c, _) =>
      some { s with
        custody := Function.update s.custody w none
        log := s.log ++ [.destroyed c] }
    | none => none
  | .drop w =>
    match s.custody w with
    | some _ => some { s with custody := Function.update s.custody w none }
    | none => none

def system (W C : Type*) [DecidableEq W] [DecidableEq C] : System (State W C) (Op W C) where
  start s := s = initial
  step := step

/-- What a step does, with the item that it is about. -/
inductive Moves (s : State W C) : Op W C → State W C → Prop where
  | store {w c} (free : s.custody w = none) (fresh : c ∉ s.stored) :
      Moves s (.store w c) { s with
        custody := Function.update s.custody w (some (c, false)), stored := s.stored ++ [c] }
  | move {v w c} (held : s.custody v = some (c, false)) (free : s.custody w = none) :
      Moves s (.move v w) { s with
        custody := Function.update (Function.update s.custody v none) w (some (c, false))
        log := s.log ++ [.moved c] }
  | use {w c} (held : s.custody w = some (c, false)) :
      Moves s (.use w) { s with
        custody := Function.update s.custody w (some (c, true)), log := s.log ++ [.used c] }
  | destroy {w c u} (held : s.custody w = some (c, u)) :
      Moves s (.destroy w) { s with
        custody := Function.update s.custody w none, log := s.log ++ [.destroyed c] }
  | drop {w c u} (held : s.custody w = some (c, u)) :
      Moves s (.drop w) { s with custody := Function.update s.custody w none }

theorem step_iff {s t : State W C} {op : Op W C} : step s op = some t ↔ Moves s op t := by
  constructor
  · intro taken
    cases op with
    | store w c =>
      simp only [step, Option.ite_none_right_eq_some, Option.some.injEq] at taken
      obtain ⟨⟨free, fresh⟩, rfl⟩ := taken
      exact .store (Option.isNone_iff_eq_none.mp free) fresh
    | move v w =>
      simp only [step] at taken
      split at taken <;> cases taken
      exact .move ‹_› ‹_›
    | use w | destroy w =>
      simp only [step] at taken
      split at taken <;> cases taken
      constructor
      assumption
    | drop w =>
      simp only [step] at taken
      split at taken <;> cases taken
      exact .drop (u := _) ‹_›
  · intro moves
    cases moves with
    | store free fresh => simp [step, free, fresh]
    | move held free => simp [step, held, free]
    | use held | destroy held | drop held => simp [step, held]

theorem step_inv {s t : State W C} {op : Op W C} (h : Inv s) (taken : step s op = some t) : Inv t := by
  cases step_iff.mp taken with
  | store free fresh => exact h.store fresh
  | move held free => exact h.move held
  | use held => exact h.use held
  | destroy held => exact h.destroy held
  | drop held => exact h.drop _

theorem reached_inv {s : State W C} (reached : Reached (system W C) s) : Inv s :=
  reached.invariant (I := Inv) (fun _ eq => eq ▸ initial_inv) fun _ _ _ h taken => step_inv h taken

/-- An item stays settled unless its holder lets it go. -/
theorem step_settled {s t : State W C} {op : Op W C} {c : C} (settled : Settled s c)
    (taken : step s op = some t) : Settled t c ∨ ∃ w u, op = .drop w ∧ s.custody w = some (c, u) := by
  rcases settled with ⟨x, u, held⟩ | gone
  · have kept : ∀ {w y}, x ≠ w → Function.update s.custody w y x = some (c, u) := fun other =>
      (Function.update_of_ne other ..).trans held
    have busy : ∀ {w}, s.custody w = none → x ≠ w := fun free same => by
      rw [same, free] at held
      cases held
    cases step_iff.mp taken with
    | store free fresh => exact .inl (.inl ⟨x, u, kept (busy free)⟩)
    | @move v w d mine free =>
      by_cases same : x = v
      · subst same
        obtain ⟨rfl, rfl⟩ := Prod.mk.inj (Option.some.inj (held.symm.trans mine))
        exact .inl (.inl ⟨w, false, Function.update_self ..⟩)
      · exact .inl (.inl ⟨x, u, (Function.update_of_ne (busy free) ..).trans (kept same)⟩)
    | @use w d mine =>
      by_cases same : x = w
      · subst same
        obtain ⟨rfl, rfl⟩ := Prod.mk.inj (Option.some.inj (held.symm.trans mine))
        exact .inl (.inl ⟨x, true, Function.update_self ..⟩)
      · exact .inl (.inl ⟨x, u, kept same⟩)
    | @destroy w d u' mine =>
      by_cases same : x = w
      · subst same
        obtain ⟨rfl, -⟩ := Prod.mk.inj (Option.some.inj (held.symm.trans mine))
        exact .inl (.inr (List.mem_append_right _ List.mem_cons_self))
      · exact .inl (.inl ⟨x, u, kept same⟩)
    | @drop w d u' mine =>
      by_cases same : x = w
      · subst same
        exact .inr ⟨x, u, rfl, held⟩
      · exact .inl (.inl ⟨x, u, kept same⟩)
  · refine .inl (.inr ?_)
    cases step_iff.mp taken with
    | store | drop => exact gone
    | move | use | destroy => exact List.mem_append_left _ gone

theorem stored_before {s t : State W C} {op : Op W C} {c : C} (mem : c ∈ t.stored)
    (taken : step s op = some t) : c ∈ s.stored ∨ Settled t c := by
  cases step_iff.mp taken with
  | @store w d free fresh =>
    rcases List.mem_append.mp mem with before | last
    · exact .inl before
    · rw [List.mem_singleton.mp last]
      exact .inr (.inl ⟨w, false, Function.update_self ..⟩)
  | move | use | destroy | drop => exact .inl mem

theorem settled_before {s t : State W C} {op : Op W C} {c : C} (settled : Settled t c)
    (taken : step s op = some t) : Settled s c ∨ c ∉ s.stored := by
  cases step_iff.mp taken with
  | store free fresh =>
    rcases settled with ⟨x, u, held⟩ | gone
    · rcases of_update_some held with ⟨-, eq⟩ | ⟨-, held⟩
      · cases eq
        exact .inr fresh
      · exact .inl (.inl ⟨x, u, held⟩)
    · exact .inl (.inr gone)
  | @move v w d mine free =>
    rcases settled with ⟨x, u, held⟩ | gone
    · rcases of_update_some held with ⟨-, eq⟩ | ⟨-, held⟩
      · cases eq
        exact .inl (.inl ⟨v, false, mine⟩)
      · exact .inl (.inl ⟨x, u, (of_update_none held).2⟩)
    · rcases List.mem_append.mp gone with before | last
      · exact .inl (.inr before)
      · cases List.mem_singleton.mp last
  | @use w d mine =>
    rcases settled with ⟨x, u, held⟩ | gone
    · rcases of_update_some held with ⟨-, eq⟩ | ⟨-, held⟩
      · cases eq
        exact .inl (.inl ⟨w, false, mine⟩)
      · exact .inl (.inl ⟨x, u, held⟩)
    · rcases List.mem_append.mp gone with before | last
      · exact .inl (.inr before)
      · cases List.mem_singleton.mp last
  | @destroy w d u' mine =>
    rcases settled with ⟨x, u, held⟩ | gone
    · exact .inl (.inl ⟨x, u, (of_update_none held).2⟩)
    · rcases List.mem_append.mp gone with before | last
      · exact .inl (.inr before)
      · cases List.mem_singleton.mp last
        exact .inl (.inl ⟨w, u', mine⟩)
  | drop mine =>
    rcases settled with ⟨x, u, held⟩ | gone
    · exact .inl (.inl ⟨x, u, (of_update_none held).2⟩)
    · exact .inl (.inr gone)

theorem step_lost {s t : State W C} {op : Op W C} {c : C} (lost : Lost s c)
    (taken : step s op = some t) : Lost t c := by
  refine ⟨?_, fun settled => ?_⟩
  · cases step_iff.mp taken with
    | store => exact List.mem_append_left _ lost.1
    | move | use | destroy | drop => exact lost.1
  · rcases settled_before settled taken with before | fresh
    · exact lost.2 before
    · exact fresh lost.1

theorem drop_lost {s t : State W C} {w : W} {c : C} {u : Bool} (h : Inv s)
    (held : s.custody w = some (c, u)) (taken : step s (.drop w) = some t) : Lost t c := by
  cases step_iff.mp taken with
  | drop mine =>
    refine ⟨h.held w c u held, fun settled => ?_⟩
    rcases settled with ⟨x, u', theirs⟩ | gone
    · obtain ⟨other, theirs⟩ := of_update_none theirs
      exact other (h.unique x w c u' u theirs held)
    · exact h.alive w c u held gone

end Ownership
