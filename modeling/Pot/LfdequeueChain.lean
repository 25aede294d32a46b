import Pot.LfdequeueReclaim
import Pot.LinkedLists

/-! The buffers of lfdequeue from the constructor to the destructor. Growth and shrinking link each
new buffer behind the active one, and what is freed is freed from the front of that chain. -/
namespace Pot.Lfdequeue
open Transition LinkedLists

variable {Kid T : Type}

def Owner.makes (s : State Kid T) : Owner Kid T → Option Nat
  | .pushBuffer _ b t =>
    if b - t ≥ (s.buffer s.active_buffer).size - 1 then some (s.active_buffer + 1) else none
  | .popGet b a t =>
    if b - t ≤ (s.buffer a).size / 3 ∧ b - t > 2 ^ log_initial_size then some (a + 1) else none
  | _ => none

def Act.makes (s : State Kid T) : Act Kid T → Option Nat
  | .owner _ => s.owner.makes s
  | _ => none

def Act.frees (s : State Kid T) : Act Kid T → Option Nat
  | .owner _ => s.owner.frees s
  | _ => none

/-- ~lfdequeue, by what comes next. -/
inductive Destructor (Kid : Type) where
  | idle
  | unlinked (b : Nat)
  | active (b : Nat)
  | tokens (head : List Kid)
  | done
  deriving DecidableEq

/-- A deque with the buffers that have been made and deleted so far. -/
structure Lifetime (Kid T : Type) where
  deque : State Kid T
  destructor : Destructor Kid
  made : List Nat
  deleted : List Nat

namespace Lifetime

inductive Step (Kid T : Type) where
  | act (a : Act Kid T)
  | destroy
  | destructor

/-- delete -/
def delete (l : Lifetime Kid T) (reclaimed : Nat) : Lifetime Kid T :=
  { l with
    deque := l.deque.setBuffer reclaimed { l.deque.buffer reclaimed with freed := true }
    deleted := l.deleted ++ [reclaimed] }

def destructorStep (l : Lifetime Kid T) : Destructor Kid → Option (Lifetime Kid T)
  | .idle => none
  | .unlinked b =>
    match l.deque.unlinked with
    | some reclaimed =>
      if reclaimed ≠ b then
        some ({ l with deque := { l.deque with
          unlinked := (l.deque.buffer reclaimed).next } }.delete reclaimed)
      else some { l with destructor := .active b }
    | none => some { l with destructor := .active b }
  | .active b => some { l.delete b with destructor := .tokens l.deque.id_list }
  | .tokens (_ :: head) => some { l with destructor := .tokens head }
  | .tokens [] => some { l with destructor := .done }
  | .done => none

variable [DecidableEq Kid] [Inhabited T]

/-- Nothing is called any more once the destructor has been. -/
def step (l : Lifetime Kid T) : Step Kid T → Option (Lifetime Kid T)
  | .act a =>
    match l.destructor with
    | .idle => (Lfdequeue.step l.deque a).map fun t =>
      { l with
        deque := t
        made := l.made ++ (a.makes l.deque).toList
        deleted := l.deleted ++ (a.frees l.deque).toList }
    | _ => none
  | .destroy =>
    match l.destructor, l.deque.owner with
    | .idle, .idle => some { l with destructor := .unlinked l.deque.active_buffer }
    | _, _ => none
  | .destructor => l.destructorStep l.destructor

def system (Kid T : Type) [DecidableEq Kid] [Inhabited T] :
    System (Lifetime Kid T) (Step Kid T) where
  start l := l = ⟨initial Kid T, .idle, [0], []⟩
  step := step

end Lifetime

/-- The links that have been set: a resize sets its own before it stores the new buffer. -/
def State.links (s : State Kid T) : Nat :=
  match s.owner with
  | .storeActive _ _ => s.active_buffer + 1
  | _ => s.active_buffer

def State.made (s : State Kid T) : Nat :=
  match s.owner with
  | .copy _ _ _ _ _ | .storeActive _ _ => s.active_buffer + 2
  | _ => s.active_buffer + 1

/-- The buffers in the order they are made in: up to unlinked they are freed, and each is linked to
the next. -/
structure Chained (s : State Kid T) : Prop where
  owner : OwnerHolds s s.owner
  first : s.unlinked.getD 0 ≤ s.active_buffer
  unresized : s.unlinked = none → s.made = 1
  freed : ∀ a, (s.buffer a).freed = true ↔ a < s.unlinked.getD 0
  next : ∀ a, (s.buffer a).next = if a < s.links then some (a + 1) else none

theorem initial_chained [Inhabited T] : Chained (initial Kid T) where
  owner := trivial
  first := Nat.le_refl _
  unresized _ := rfl
  freed a := ⟨fun freed => (by cases freed), fun before => absurd before (Nat.not_lt_zero a)⟩
  next a := (if_neg (Nat.not_lt_zero a)).symm

/-- The buffers made and freed by a step, in the order of their ids. -/
structure Counted (s u : State Kid T) (makes frees : Option Nat) : Prop where
  made : List.range u.made = List.range s.made ++ makes.toList
  freed : List.range (u.unlinked.getD 0) = List.range (s.unlinked.getD 0) ++ frees.toList

theorem Counted.none {s u : State Kid T} (made : u.made = s.made)
    (unlinked : u.unlinked.getD 0 = s.unlinked.getD 0) : Counted s u none none :=
  ⟨by simp [made], by simp [unlinked]⟩

theorem Chained.keep {s u : State Kid T} (h : Chained s)
    (same : u.unlinked = s.unlinked ∧ u.active_buffer = s.active_buffer ∧ u.links = s.links ∧
      u.made = s.made)
    (freed : ∀ a, (u.buffer a).freed = (s.buffer a).freed)
    (next : ∀ a, (u.buffer a).next = (s.buffer a).next) (owner : OwnerHolds u u.owner) :
    Chained u ∧ Counted s u none none := by
  obtain ⟨unlinked, active, links, made⟩ := same
  refine ⟨⟨owner, ?_, ?_, fun a => ?_, fun a => ?_⟩, .none made (by rw [unlinked])⟩
  · rw [unlinked, active]
    exact h.first
  · rw [unlinked, made]
    exact h.unresized
  · rw [freed, unlinked]
    exact h.freed a
  · rw [next, links]
    exact h.next a

/-- Neither the loop of a resize nor the store after it comes next. -/
def Owner.settled : Owner Kid T → Bool
  | .copy _ _ _ _ _ | .storeActive _ _ => false
  | _ => true

theorem settled_counts {s : State Kid T} (settled : s.owner.settled = true) :
    s.links = s.active_buffer ∧ s.made = s.active_buffer + 1 := by
  unfold State.links State.made
  cases ho : s.owner with
  | copy | storeActive => rw [ho] at settled; cases settled
  | _ => exact ⟨rfl, rfl⟩

theorem made_cases (s : State Kid T) :
    s.made = s.active_buffer + 1 ∨ s.made = s.active_buffer + 2 := by
  unfold State.made
  split
  · exact .inr rfl
  · exact .inr rfl
  · exact .inl rfl

theorem Chained.goto {s u : State Kid T} (h : Chained s)
    (same : u.unlinked = s.unlinked ∧ u.active_buffer = s.active_buffer ∧ u.buffer = s.buffer)
    (before : s.owner.settled = true) (after : u.owner.settled = true)
    (owner : OwnerHolds u u.owner) : Chained u ∧ Counted s u none none := by
  obtain ⟨unlinked, active, buffer⟩ := same
  have counts := settled_counts before
  have counts' := settled_counts after
  refine h.keep ⟨unlinked, active, ?_, ?_⟩ (fun _ => by rw [buffer]) (fun _ => by rw [buffer]) owner
  · rw [counts.1, counts'.1, active]
  · rw [counts.2, counts'.2, active]

theorem Chained.proceed {s : State Kid T} {rest : Rest T} {a : Nat} (h : Chained s)
    (settled : s.owner.settled = true) (active : a = s.active_buffer) :
    Chained (s.proceed a rest) ∧ Counted s (s.proceed a rest) none none := by
  cases rest with
  | put => exact h.goto ⟨rfl, rfl, rfl⟩ settled rfl active
  | ret => exact h.goto ⟨rfl, rfl, rfl⟩ settled rfl trivial

theorem Chained.reclaims {s : State Kid T} {rest : Rest T} {a : Nat} (h : Chained s)
    (settled : s.owner.settled = true) (active : a = s.active_buffer) :
    Chained (s.reclaims rest a) ∧ Counted s (s.reclaims rest a) none none := by
  unfold State.reclaims
  split
  · exact h.goto ⟨rfl, rfl, rfl⟩ settled rfl active
  · exact h.proceed settled active

/-- unlinked stays where it is: it was null, which is before the first buffer, or is kept. -/
theorem Chained.relink {s : State Kid T} (h : Chained s) :
    (some (s.unlinked.getD s.active_buffer)).getD 0 = s.unlinked.getD 0 := by
  cases hu : s.unlinked with
  | none =>
    have one := h.unresized hu
    have made := made_cases s
    change s.active_buffer = 0
    omega
  | some first => rfl

theorem Chained.resize [Inhabited T] {s : State Kid T} {rest : Rest T} {a : Nat} {b t : Int}
    {log_size : Nat} (h : Chained s) (settled : s.owner.settled = true)
    (active : a = s.active_buffer) : Chained (s.resize rest a b t log_size) ∧
      Counted s (s.resize rest a b t log_size) (some (a + 1)) none := by
  subst active
  have fresh := h.first
  obtain ⟨links, made⟩ := settled_counts settled
  refine ⟨⟨⟨rfl, rfl⟩, h.relink.trans_le h.first, fun none => (by cases none), fun c => ?_,
    fun c => ?_⟩, ?_, (congrArg List.range h.relink).trans (List.append_nil _).symm⟩
  · change ((s.setBuffer _ _).buffer c).freed = true ↔ c < _
    rw [State.resize, h.relink]
    by_cases new : c = s.active_buffer + 1
    · rw [new, setBuffer_self]
      exact ⟨fun freed => (by cases freed), fun before => by omega⟩
    · rw [setBuffer_of_ne s _ new]
      exact h.freed c
  · change ((s.setBuffer _ _).buffer c).next = if c < s.active_buffer then _ else none
    by_cases new : c = s.active_buffer + 1
    · rw [new, setBuffer_self, if_neg (by omega)]
      rfl
    · rw [setBuffer_of_ne s _ new, h.next c, links]
  · rw [made]
    exact List.range_succ

theorem put_links {s : State Kid T} {a : Nat} {i : Int} {item : T} (c : Nat) :
    ((s.setBuffer a ((s.buffer a).put i item)).buffer c).freed = (s.buffer c).freed ∧
      ((s.setBuffer a ((s.buffer a).put i item)).buffer c).next = (s.buffer c).next := by
  by_cases same : c = a
  · rw [same, setBuffer_self]
    exact ⟨rfl, rfl⟩
  · rw [setBuffer_of_ne s _ same]
    exact ⟨rfl, rfl⟩

theorem Chained.link {s : State Kid T} {rest rest' : Rest T} {a buffer : Nat} {b i : Int}
    (h : Chained s) (at_copy : s.owner = .copy rest a buffer b i) {u : State Kid T}
    (links : u = { s.setBuffer a { s.buffer a with next := some buffer } with
                   owner := .storeActive rest' buffer }) : Chained u ∧ Counted s u none none := by
  subst links
  have own := h.owner
  rw [at_copy] at own
  obtain ⟨rfl, rfl⟩ := own
  have links : s.links = s.active_buffer := by rw [State.links, at_copy]
  have made : s.made = s.active_buffer + 2 := by rw [State.made, at_copy]
  refine ⟨⟨⟨rfl, ?_⟩, h.first, fun none => ?_, fun c => ?_, fun c => ?_⟩, .none made.symm rfl⟩
  · exact congrArg RingBuffer.next (setBuffer_self ..)
  · exact made.symm.trans (h.unresized none)
  · change ((s.setBuffer _ _).buffer c).freed = true ↔ _
    refine Iff.trans ?_ (h.freed c)
    by_cases same : c = s.active_buffer
    · rw [same, setBuffer_self]
    · rw [setBuffer_of_ne s _ same]
  · change ((s.setBuffer _ _).buffer c).next = if c < s.active_buffer + 1 then _ else none
    by_cases same : c = s.active_buffer
    · rw [same, setBuffer_self, if_pos (Nat.lt_succ_self _)]
    · rw [setBuffer_of_ne s _ same, h.next c, links]
      by_cases before : c < s.active_buffer
      · rw [if_pos before, if_pos (by omega)]
      · rw [if_neg before, if_neg (by omega)]

theorem Chained.store {s : State Kid T} {rest : Rest T} {a : Nat} (h : Chained s)
    (at_store : s.owner = .storeActive rest a) :
    Chained ({ s with active_buffer := a }.reclaims rest a) ∧
      Counted s ({ s with active_buffer := a }.reclaims rest a) none none := by
  have own := h.owner
  rw [at_store] at own
  obtain ⟨rfl, -⟩ := own
  have links : s.links = s.active_buffer + 1 := by rw [State.links, at_store]
  have made : s.made = s.active_buffer + 2 := by rw [State.made, at_store]
  have stored : Chained { s with active_buffer := s.active_buffer + 1, owner := Owner.idle } :=
    ⟨trivial, Nat.le_succ_of_le h.first, fun none => made.symm.trans (h.unresized none),
      h.freed, fun c => links ▸ h.next c⟩
  have both : Chained ({ s with active_buffer := s.active_buffer + 1 }.reclaims rest
      (s.active_buffer + 1)) ∧ Counted _ _ none none := stored.reclaims rfl rfl
  exact ⟨both.1, made ▸ both.2.made, both.2.freed⟩

theorem Chained.free {s u : State Kid T} {reclaimed : Nat} (h : Chained s)
    (settled : s.owner.settled = true) (first : s.unlinked = some reclaimed)
    (old : reclaimed < s.active_buffer)
    (frees : u = { s.setBuffer reclaimed { s.buffer reclaimed with freed := true } with
                   unlinked := (s.buffer reclaimed).next })
    (owner : OwnerHolds u s.owner) : Chained u ∧ Counted s u none (some reclaimed) := by
  subst frees
  obtain ⟨links, made⟩ := settled_counts settled
  have link := h.next reclaimed
  rw [links, if_pos old] at link
  have freed := h.freed
  rw [first] at freed
  refine ⟨⟨owner, ?_, fun none => ?_, fun c => ?_, fun c => ?_⟩, (List.append_nil _).symm, ?_⟩
  · change (s.buffer reclaimed).next.getD 0 ≤ s.active_buffer
    rw [link]
    exact old
  · cases link.symm.trans none
  · change ((s.setBuffer _ _).buffer c).freed = true ↔ c < (s.buffer reclaimed).next.getD 0
    rw [link]
    by_cases same : c = reclaimed
    · rw [same, setBuffer_self]
      exact ⟨fun _ => Nat.lt_succ_self _, fun _ => rfl⟩
    · rw [setBuffer_of_ne s _ same, freed c]
      change c < reclaimed ↔ c < reclaimed + 1
      omega
  · refine Eq.trans ?_ (h.next c)
    change ((s.setBuffer _ _).buffer c).next = _
    by_cases same : c = reclaimed
    · rw [same, setBuffer_self]
    · rw [setBuffer_of_ne s _ same]
  · change List.range ((s.buffer reclaimed).next.getD 0) = _
    rw [link, first]
    exact List.range_succ

theorem owner_chained [Inhabited T] {s u : State Kid T} {junk : Junk T} (h : Chained s)
    (taken : ownerStep s junk s.owner = some u) :
    Chained u ∧ Counted s u (s.owner.makes s) (s.owner.frees s) := by
  have own := h.owner
  cases ho : s.owner with
  | idle => rw [ho] at taken; cases taken
  | pushTop | pushBottom | popRestore | popLast =>
    rw [ho] at taken
    cases taken
    exact h.goto ⟨rfl, rfl, rfl⟩ (by rw [ho]; rfl) rfl trivial
  | popBuffer =>
    rw [ho] at taken
    cases taken
    exact h.goto ⟨rfl, rfl, rfl⟩ (by rw [ho]; rfl) rfl rfl
  | popBottom =>
    rw [ho] at taken own
    cases taken
    exact h.goto ⟨rfl, rfl, rfl⟩ (by rw [ho]; rfl) rfl own
  | reclaim =>
    rw [ho] at taken own
    cases taken
    exact h.goto ⟨rfl, rfl, rfl⟩ (by rw [ho]; rfl) rfl ⟨own, Nat.le_of_eq own⟩
  | popTop =>
    rw [ho] at taken own
    cases taken
    split
    · exact h.goto ⟨rfl, rfl, rfl⟩ (by rw [ho]; rfl) rfl trivial
    · split
      · exact h.goto ⟨rfl, rfl, rfl⟩ (by rw [ho]; rfl) rfl own
      · exact h.goto ⟨rfl, rfl, rfl⟩ (by rw [ho]; rfl) rfl own
  | popCas =>
    rw [ho] at taken own
    cases taken
    split
    · exact h.goto ⟨rfl, rfl, rfl⟩ (by rw [ho]; rfl) rfl own
    · exact h.goto ⟨rfl, rfl, rfl⟩ (by rw [ho]; rfl) rfl trivial
  | pushBuffer =>
    rw [ho] at taken
    cases taken
    simp only [Owner.makes, Owner.frees]
    split
    · exact h.resize (by rw [ho]; rfl) rfl
    · exact h.reclaims (by rw [ho]; rfl) rfl
  | popGet =>
    rw [ho] at taken own
    cases taken
    simp only [Owner.makes, Owner.frees]
    split
    · exact h.resize (by rw [ho]; rfl) own
    · exact h.reclaims (by rw [ho]; rfl) own
  | put item b a =>
    rw [ho] at taken
    cases taken
    obtain ⟨links, made⟩ := settled_counts (s := s) (by rw [ho]; rfl)
    exact h.keep ⟨rfl, rfl, links.symm, made.symm⟩ (fun c => (put_links c).1)
      (fun c => (put_links c).2) trivial
  | copy rest a buffer b i =>
    rw [ho] at taken own
    cases taken
    split
    · refine h.keep ⟨rfl, rfl, ?_, ?_⟩ (fun c => (put_links c).1) (fun c => (put_links c).2) own
      · rw [State.links, State.links, ho]
        rfl
      · rw [State.made, State.made, ho]
        rfl
    · exact h.link ho rfl
  | storeActive rest a =>
    rw [ho] at taken
    cases taken
    exact h.store ho
  | scanIdle rest a min_id head =>
    rw [ho] at taken own
    cases head with
    | nil =>
      cases taken
      exact h.goto ⟨rfl, rfl, rfl⟩ (by rw [ho]; rfl) rfl own
    | cons head next =>
      cases taken
      split
      · exact h.goto ⟨rfl, rfl, rfl⟩ (by rw [ho]; rfl) rfl own
      · exact h.goto ⟨rfl, rfl, rfl⟩ (by rw [ho]; rfl) rfl own
  | scanLast rest a min_id head next =>
    rw [ho] at taken own
    cases taken
    exact h.goto ⟨rfl, rfl, rfl⟩ (by rw [ho]; rfl) rfl
      ⟨own.1, Nat.le_trans (Nat.min_le_left ..) own.2⟩
  | free rest a min_id =>
    have settled : s.owner.settled = true := by rw [ho]; rfl
    rw [ho] at taken own
    simp only [ownerStep] at taken
    split at taken
    · rename_i reclaimed first
      rw [Owner.frees, first, Option.filter_some]
      split at taken <;> cases taken
      · rename_i old
        rw [if_pos (decide_eq_true old)]
        exact h.free settled first (Nat.lt_of_lt_of_le old own.2) rfl (by rw [ho]; exact own)
      · rename_i young
        rw [if_neg (by simpa using young)]
        exact h.proceed settled own.1
    · rename_i none
      cases taken
      rw [Owner.frees, none]
      exact h.proceed settled own.1

section Others
variable [DecidableEq Kid]

theorem stealer_same {s u : State Kid T} {k : Kid} {junk : Junk T}
    (taken : stealerStep s k junk (s.stealer k) = some u) :
    u.unlinked = s.unlinked ∧ u.active_buffer = s.active_buffer ∧ u.buffer = s.buffer ∧
      u.owner = s.owner := by
  cases hk : s.stealer k with
  | unregistered | registering | idle => rw [hk] at taken; cases taken
  | cas =>
    rw [hk] at taken
    cases taken
    split
    · exact ⟨rfl, rfl, rfl, rfl⟩
    · exact ⟨rfl, rfl, rfl, rfl⟩
  | _ =>
    rw [hk] at taken
    cases taken
    exact ⟨rfl, rfl, rfl, rfl⟩

theorem register_same {s u : State Kid T} {k : Kid} {spurious : Bool}
    (taken : registerStep s k spurious (s.stealer k) = some u) :
    u.unlinked = s.unlinked ∧ u.active_buffer = s.active_buffer ∧ u.buffer = s.buffer ∧
      u.owner = s.owner := by
  cases hk : s.stealer k with
  | unregistered =>
    rw [hk] at taken
    cases taken
    exact ⟨rfl, rfl, rfl, rfl⟩
  | registering =>
    rw [hk] at taken
    simp only [registerStep] at taken
    split at taken <;> cases taken
    · exact ⟨rfl, rfl, rfl, rfl⟩
    · exact ⟨rfl, rfl, rfl, rfl⟩
  | _ => rw [hk] at taken; cases taken

omit [DecidableEq Kid] in
theorem Chained.other {s u : State Kid T} (h : Chained s)
    (same : u.unlinked = s.unlinked ∧ u.active_buffer = s.active_buffer ∧ u.buffer = s.buffer ∧
      u.owner = s.owner) : Chained u ∧ Counted s u none none := by
  obtain ⟨unlinked, active, buffer, owner⟩ := same
  have links : u.links = s.links := by rw [State.links, State.links, owner, active]
  have made : u.made = s.made := by rw [State.made, State.made, owner, active]
  refine h.keep ⟨unlinked, active, links, made⟩ (fun _ => by rw [buffer]) (fun _ => by rw [buffer]) ?_
  have own := h.owner
  rw [owner]
  cases ho : s.owner <;> rw [ho] at own <;> simp only [OwnerHolds, active, buffer] <;> exact own

theorem step_chained [Inhabited T] {s u : State Kid T} {a : Act Kid T} (h : Chained s)
    (taken : step s a = some u) : Chained u ∧ Counted s u (a.makes s) (a.frees s) := by
  cases a with
  | push | pop =>
    simp only [step] at taken
    split at taken <;> cases taken
    exact h.goto ⟨rfl, rfl, rfl⟩ (by rw [‹s.owner = _›]; rfl) rfl trivial
  | owner => exact owner_chained h taken
  | register => exact h.other (register_same taken)
  | popBack k =>
    simp only [step] at taken
    split at taken <;> cases taken
    exact h.other ⟨rfl, rfl, rfl, rfl⟩
  | stealer => exact h.other (stealer_same taken)

end Others

namespace Lifetime

/-- The buffers that the destructor still has to delete are those it has found. -/
def Deleted (l : Lifetime Kid T) : Destructor Kid → Prop
  | .idle => Chained l.deque ∧ l.deleted = List.range (l.deque.unlinked.getD 0)
  | .unlinked b => Chained l.deque ∧ l.deque.owner = .idle ∧ b = l.deque.active_buffer ∧
      l.deleted = List.range (l.deque.unlinked.getD 0)
  | .active b => l.deque.made = b + 1 ∧ l.deleted = List.range b
  | .tokens _ | .done => l.deleted = List.range l.deque.made

structure Inv (l : Lifetime Kid T) : Prop where
  made : l.made = List.range l.deque.made
  deleted : l.Deleted l.destructor

theorem destructor_inv {l m : Lifetime Kid T} (h : l.Inv)
    (taken : l.destructorStep l.destructor = some m) : m.Inv := by
  have deleted := h.deleted
  cases hd : l.destructor with
  | idle | done => rw [hd] at taken; cases taken
  | unlinked b =>
    rw [hd] at taken deleted
    obtain ⟨chained, idle, rfl, gone⟩ := deleted
    have made : l.deque.made = l.deque.active_buffer + 1 := by rw [State.made, idle]
    have settled : l.deque.owner.settled = true := by rw [idle]; rfl
    simp only [destructorStep] at taken
    split at taken
    · rename_i reclaimed first
      have first_le := chained.first
      rw [first] at first_le
      split at taken <;> cases taken
      · rename_i different
        have old : reclaimed < l.deque.active_buffer := Nat.lt_of_le_of_ne first_le different
        obtain ⟨chained, counted⟩ := chained.free settled first old rfl (by rw [idle]; trivial)
        refine ⟨h.made, ?_⟩
        change Deleted _ l.destructor
        rw [hd]
        refine ⟨chained, idle, rfl, ?_⟩
        change l.deleted ++ [reclaimed] = _
        rw [gone]
        exact counted.freed.symm
      · rename_i same
        rw [not_not] at same
        rw [first] at gone
        exact ⟨h.made, made, same ▸ gone⟩
    · rename_i none
      cases taken
      have one := chained.unresized none
      have zero : l.deque.active_buffer = 0 := by omega
      refine ⟨h.made, made, ?_⟩
      rw [zero]
      rw [none] at gone
      exact gone
  | active b =>
    rw [hd] at taken deleted
    cases taken
    obtain ⟨made, gone⟩ := deleted
    refine ⟨h.made, ?_⟩
    change l.deleted ++ [b] = List.range l.deque.made
    rw [gone, made, List.range_succ]
  | tokens head =>
    rw [hd] at taken deleted
    cases head <;> cases taken <;> exact ⟨h.made, deleted⟩

variable [DecidableEq Kid] [Inhabited T]

theorem step_inv {l m : Lifetime Kid T} {a : Step Kid T} (h : l.Inv) (taken : l.step a = some m) :
    m.Inv := by
  have deleted := h.deleted
  cases a with
  | act a =>
    simp only [step] at taken
    split at taken
    · rename_i idle
      rw [idle] at deleted
      obtain ⟨t, acted, rfl⟩ := Option.map_eq_some_iff.mp taken
      obtain ⟨chained, counted⟩ := step_chained deleted.1 acted
      refine ⟨?_, ?_⟩
      · exact (congrArg (· ++ _) h.made).trans counted.made.symm
      · change Deleted _ l.destructor
        rw [idle]
        exact ⟨chained, (congrArg (· ++ _) deleted.2).trans counted.freed.symm⟩
    · cases taken
  | destroy =>
    simp only [step] at taken
    split at taken
    · rename_i idle owner
      cases taken
      rw [idle] at deleted
      exact ⟨h.made, deleted.1, owner, rfl, deleted.2⟩
    · cases taken
  | destructor => exact destructor_inv h taken

theorem reached_inv {l : Lifetime Kid T} (reached : Reached (system Kid T) l) : l.Inv :=
  reached.invariant (I := Inv) (fun _ eq => eq ▸ ⟨rfl, initial_chained, rfl⟩)
    fun _ _ _ h taken => step_inv h taken

/-- What unlinked says between two operations of the owner: nothing has been retired, or it is the
head of a chain of buffers with consecutive ids up to the active one, with all that is left. -/
def Chain (l : Lifetime Kid T) : Prop :=
  match l.deque.unlinked with
  | none => ∀ a ∈ l.made, a ∉ l.deleted ↔ a = l.deque.active_buffer
  | some first => ∃ chain, Spells (fun a => (l.deque.buffer a).next) (some first) chain ∧
      chain = List.range' first chain.length ∧ chain.getLast? = some l.deque.active_buffer ∧
      ∀ a ∈ l.made, a ∉ l.deleted → a ∈ chain

omit [DecidableEq Kid] [Inhabited T] in
theorem chain_between {l : Lifetime Kid T} (h : l.Inv) (idle : l.destructor = .idle)
    (between : l.deque.owner = .idle) : l.Chain := by
  have deleted := h.deleted
  rw [idle] at deleted
  obtain ⟨chained, gone⟩ := deleted
  have made : l.deque.made = l.deque.active_buffer + 1 := by rw [State.made, between]
  have links : l.deque.links = l.deque.active_buffer := by rw [State.links, between]
  unfold Chain
  rw [gone, h.made, made]
  cases hu : l.deque.unlinked with
  | none =>
    have one := chained.unresized hu
    intro a mem
    have := List.mem_range.mp mem
    simp only [Option.getD_none, List.range_zero, List.not_mem_nil, not_false_eq_true, true_iff]
    omega
  | some first =>
    have before := chained.first
    rw [hu] at before
    change first ≤ l.deque.active_buffer at before
    refine ⟨List.range' first (l.deque.active_buffer - first + 1), ?_, ?_, ?_, fun a mem left => ?_⟩
    · refine spells_range fun a here => ?_
      rw [chained.next a, links]
      by_cases last : a < l.deque.active_buffer
      · rw [if_pos last, if_pos (by omega)]
      · rw [if_neg last, if_neg (by omega)]
    · rw [List.length_range']
    · rw [List.getLast?_range', if_neg (by omega)]
      congr 1
      omega
    · have inside := List.mem_range.mp mem
      have kept : ¬ a < first := fun early => left (List.mem_range.mpr early)
      exact List.mem_range'_1.mpr ⟨by omega, by omega⟩

def called : Destructor Kid → Bool
  | .idle => false
  | _ => true

def toGo (l : Lifetime Kid T) : Destructor Kid → Nat
  | .idle => 0
  | .unlinked b => (b - l.deque.unlinked.getD 0) + l.deque.id_list.length + 3
  | .active _ => l.deque.id_list.length + 2
  | .tokens head => head.length + 1
  | .done => 0

omit [DecidableEq Kid] [Inhabited T] in
theorem destructor_moves {l : Lifetime Kid T} (h : l.Inv) (begun : called l.destructor = true)
    (under_way : l.destructor ≠ .done) : ∃ m, l.destructorStep l.destructor = some m ∧
      called m.destructor = true ∧ m.toGo m.destructor < l.toGo l.destructor := by
  have deleted := h.deleted
  cases hd : l.destructor with
  | idle => rw [hd] at begun; cases begun
  | done => exact absurd hd under_way
  | unlinked b =>
    rw [hd] at deleted
    obtain ⟨chained, idle, rfl, -⟩ := deleted
    simp only [destructorStep]
    split
    · rename_i reclaimed first
      split
      · rename_i different
        have before := chained.first
        rw [first] at before
        change reclaimed ≤ l.deque.active_buffer at before
        have next := chained.next reclaimed
        rw [(settled_counts (by rw [idle]; rfl)).1, if_pos (Nat.lt_of_le_of_ne before different)]
          at next
        refine ⟨_, rfl, by rw [delete, hd]; rfl, ?_⟩
        simp only [delete, hd, toGo, State.setBuffer, next, first, Option.getD_some]
        omega
      · exact ⟨_, rfl, rfl, by simp only [toGo]; omega⟩
    · exact ⟨_, rfl, rfl, by simp only [toGo]; omega⟩
  | active b => exact ⟨_, rfl, rfl, Nat.lt_succ_self _⟩
  | tokens head =>
    cases head with
    | nil => exact ⟨_, rfl, rfl, Nat.one_pos⟩
    | cons => exact ⟨_, rfl, rfl, Nat.lt_succ_self _⟩

theorem destructor_ends {l : Lifetime Kid T} (h : l.Inv) (begun : called l.destructor = true) :
    Leads (system Kid T) l fun m => m.destructor = .done := by
  obtain ⟨n, m, run, -, done⟩ := replay_home (system Kid T)
    (fun l => l.Inv ∧ called l.destructor = true) (fun l => l.destructor = .done)
    (fun l => l.toGo l.destructor) .destructor (fun l mine under_way => by
      obtain ⟨m, taken, later, lower⟩ := destructor_moves mine.1 mine.2 under_way
      exact ⟨m, taken, ⟨destructor_inv mine.1 taken, later⟩, lower⟩) ⟨h, begun⟩
  exact ⟨_, m, run, done⟩

/-- The chain holds between any two operations of the owner. No delete is of the active buffer or
of a buffer that is gone, and the destructor, which always ends, has left nothing over. -/
theorem frees_once (Kid T : Type) [DecidableEq Kid] [Inhabited T] (l : Lifetime Kid T)
    (reached : Reached (system Kid T) l) :
    (l.destructor = .idle → l.deque.owner = .idle → l.Chain) ∧
    (l.made.Nodup ∧ l.deleted.Nodup ∧
      (l.destructor = .idle → l.deque.active_buffer ∉ l.deleted)) ∧
    (l.destructor = .done → ∀ a, l.deleted.count a = l.made.count a) ∧
    (called l.destructor = true → Leads (system Kid T) l fun m => m.destructor = .done) := by
  have h := reached_inv reached
  refine ⟨fun idle between => chain_between h idle between, ⟨?_, ?_, fun idle => ?_⟩,
    fun done a => ?_, destructor_ends h⟩
  · rw [h.made]
    exact List.nodup_range
  · have deleted := h.deleted
    cases hd : l.destructor with
    | idle => rw [hd] at deleted; exact deleted.2 ▸ List.nodup_range
    | unlinked => rw [hd] at deleted; exact deleted.2.2.2 ▸ List.nodup_range
    | active => rw [hd] at deleted; exact deleted.2 ▸ List.nodup_range
    | tokens | done => rw [hd] at deleted; exact deleted ▸ List.nodup_range
  · have deleted := h.deleted
    rw [idle] at deleted
    obtain ⟨chained, gone⟩ := deleted
    rw [gone, List.mem_range]
    exact Nat.not_lt.mpr chained.first
  · have deleted := h.deleted
    rw [done] at deleted
    rw [h.made]
    exact congrArg (List.count a) deleted

def closingRun : List (Step Bool Nat) :=
  (growRun ++ List.replicate 2 (Act.owner junk)).map .act ++ .destroy :: List.replicate 3 .destructor

def closed : Lifetime Bool Nat :=
  (replay (system Bool Nat) ⟨initial Bool Nat, .idle, [0], []⟩ closingRun).get (by decide +kernel)

theorem frees_once_closed :
    closed.made = [0, 1] ∧ ∀ a, closed.deleted.count a = closed.made.count a := by
  have reached : Reached (system Bool Nat) closed :=
    (Reached.start rfl).replay closingRun (Option.some_get _).symm
  have ended : closed.destructor = .done := by decide +kernel
  exact ⟨by decide +kernel, (frees_once Bool Nat closed reached).2.2.1 ended⟩

end Lifetime

end Pot.Lfdequeue
