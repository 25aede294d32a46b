import Pot.UniqueFunction

/-! Every wrapper that is not empty, and every call in progress, has a callable of its own behind its
pointer; so the wrappers are holders in the sense of Ownership, and the operations its steps. -/
namespace Pot.UniqueFunction
open Transition

variable {W C A : Type}

/-- Where a wrapper's callable is, and whether it has been called. -/
def State.grip (s : State W C A) (w : W) : Option (Target A × Bool) :=
  match s.frame w with
  | some (.calling p) => some (p, true)
  | _ => match s.wrapper w with
    | some ⟨some D, buffer⟩ => some (callable_ptr D buffer, false)
    | _ => none

def State.custody (s : State W C A) (w : W) : Option (C × Bool) :=
  (s.grip w).bind fun g => (s.find w g.1).map fun c => (c, g.2)

def view (s : State W C A) : Ownership.State W C := ⟨s.custody, s.stored, s.log⟩

/-- What a wrapper relies on. -/
structure Sits (type : C → CallableType) (s : State W C A) (w : W) : Prop where
  gripped : ∀ p u, s.grip w = some (p, u) → ∃ c, s.find w p = some c
  typed : ∀ D buffer c, s.wrapper w = some ⟨some D, buffer⟩ →
    s.find w (callable_ptr D buffer) = some c → type c = D
  busy : ∀ f, s.frame w = some f → ∃ buffer, s.wrapper w = some ⟨none, buffer⟩

structure Inv (type : C → CallableType) (s : State W C A) : Prop where
  sound : s.faulty = false
  sits : ∀ w, Sits type s w
  apart : ∀ v w a u u', s.grip v = some (.allocated (some a), u) →
    s.grip w = some (.allocated (some a), u') → v = w

/-- A step elsewhere: this wrapper is not touched, nor is the memory its callable is in. -/
structure Elsewhere (s t : State W C A) (w : W) : Prop where
  wrapper : t.wrapper w = s.wrapper w
  frame : t.frame w = s.frame w
  heap : ∀ a u, s.grip w = some (.allocated (some a), u) → t.heap a = s.heap a

variable {type : C → CallableType} {s t : State W C A} {w : W}

theorem Elsewhere.grip (h : Elsewhere s t w) : t.grip w = s.grip w := by
  unfold State.grip
  rw [h.wrapper, h.frame]

theorem Elsewhere.find (h : Elsewhere s t w) {p : Target A} {u : Bool}
    (grip : s.grip w = some (p, u)) : t.find w p = s.find w p := by
  cases p with
  | inline =>
    unfold State.find
    rw [h.wrapper]
  | allocated p =>
    cases p with
    | none => rfl
    | some a => exact h.heap a u grip

theorem Elsewhere.custody (h : Elsewhere s t w) : t.custody w = s.custody w := by
  unfold State.custody
  rw [h.grip]
  cases hg : s.grip w with
  | none => rfl
  | some g =>
    obtain ⟨p, u⟩ := g
    change (t.find w p).map _ = (s.find w p).map _
    rw [h.find hg]

/-- Only an empty wrapper is in the middle of something. -/
theorem Sits.free (sits : Sits type s w) (other : ∀ buffer, s.wrapper w ≠ some ⟨none, buffer⟩) :
    s.frame w = none := by
  cases hf : s.frame w with
  | none => rfl
  | some f =>
    obtain ⟨buffer, empty⟩ := sits.busy f hf
    exact absurd empty (other buffer)

theorem grip_stored {D : CallableType} {buffer : Bytes C A} (sits : Sits type s w)
    (at_w : s.wrapper w = some ⟨some D, buffer⟩) :
    s.frame w = none ∧ s.grip w = some (callable_ptr D buffer, false) := by
  have free := sits.free fun _ empty => by rw [at_w] at empty; cases empty
  refine ⟨free, ?_⟩
  unfold State.grip
  rw [free, at_w]

theorem grip_calling {p : Target A} (calling : s.frame w = some (.calling p)) :
    s.grip w = some (p, true) := by
  unfold State.grip
  rw [calling]

theorem grip_empty {buffer : Bytes C A} (at_w : s.wrapper w = some ⟨none, buffer⟩)
    (idle : ∀ p, s.frame w ≠ some (.calling p)) : s.grip w = none := by
  unfold State.grip
  split
  · exact absurd ‹_› (idle _)
  · rw [at_w]

theorem grip_absent (sits : Sits type s w) (absent : s.wrapper w = none) :
    s.frame w = none ∧ s.grip w = none := by
  have free := sits.free fun _ empty => by rw [absent] at empty; cases empty
  refine ⟨free, ?_⟩
  unfold State.grip
  rw [free, absent]

theorem Sits.elsewhere (sits : Sits type s w) (h : Elsewhere s t w) : Sits type t w where
  gripped p u grip := by
    rw [h.grip] at grip
    rw [h.find grip]
    exact sits.gripped p u grip
  typed D buffer c at_w found := by
    rw [h.wrapper] at at_w
    rw [h.find (grip_stored sits at_w).2] at found
    exact sits.typed D buffer c at_w found
  busy f hf := by
    rw [h.frame] at hf
    rw [h.wrapper]
    exact sits.busy f hf

theorem Sits.empty {buffer : Bytes C A} (at_w : s.wrapper w = some ⟨none, buffer⟩)
    (idle : ∀ p, s.frame w ≠ some (.calling p)) : Sits type s w where
  gripped p u grip := by
    rw [grip_empty at_w idle] at grip
    cases grip
  typed D buffer c at_w' := by
    rw [at_w] at at_w'
    cases at_w'
  busy _ _ := ⟨buffer, at_w⟩

theorem custody_none (grip : s.grip w = none) : s.custody w = none := by
  unfold State.custody
  rw [grip]
  rfl

theorem custody_of_grip {p : Target A} {u : Bool} {c : C} (grip : s.grip w = some (p, u))
    (found : s.find w p = some c) : s.custody w = some (c, u) := by
  unfold State.custody
  rw [grip]
  change (s.find w p).map _ = _
  rw [found]
  rfl

variable [DecidableEq W]

/-- A step that touches one wrapper, and no memory behind another one. -/
theorem Inv.of_one (h : Inv type s) (sound : t.faulty = s.faulty) (sits : Sits type t w)
    (others : ∀ v, v ≠ w → Elsewhere s t v)
    (alone : ∀ a u, t.grip w = some (.allocated (some a), u) → ∀ v u', v ≠ w →
      s.grip v ≠ some (.allocated (some a), u')) :
    Inv type t ∧ t.custody = Function.update s.custody w (t.custody w) := by
  refine ⟨⟨sound.trans h.sound, fun v => ?_, fun v x a u u' left right => ?_⟩, ?_⟩
  · by_cases same : v = w
    · exact same ▸ sits
    · exact (h.sits v).elsewhere (others v same)
  · by_cases first : v = w <;> by_cases second : x = w
    · exact first.trans second.symm
    · subst first
      rw [(others x second).grip] at right
      exact absurd right (alone a u left x u' second)
    · subst second
      rw [(others v first).grip] at left
      exact absurd left (alone a u' right v u first)
    · rw [(others v first).grip] at left
      rw [(others x second).grip] at right
      exact h.apart v x a u u' left right
  · funext v
    by_cases same : v = w
    · rw [same, Function.update_self]
    · rw [Function.update_of_ne same]
      exact (others v same).custody

theorem Inv.clear (h : Inv type s) {x : Option (Wrapper C A)} {f : Option (Frame W A)}
    (wrapper : t.wrapper = Function.update s.wrapper w x) (frame : t.frame = Function.update s.frame w f)
    (bare : (x = none ∧ f = none) ∨ ∃ buffer, x = some ⟨none, buffer⟩ ∧ ∀ p, f ≠ some (.calling p))
    (heap : ∀ a, (∀ u, s.grip w ≠ some (.allocated (some a), u)) → t.heap a = s.heap a)
    (sound : t.faulty = s.faulty) : Inv type t ∧ t.custody = Function.update s.custody w none := by
  have at_w : t.wrapper w = x := by rw [wrapper, Function.update_self]
  have frame_w : t.frame w = f := by rw [frame, Function.update_self]
  have sits : Sits type t w := by
    rcases bare with ⟨absent, free⟩ | ⟨buffer, empty, idle⟩
    · subst absent free
      refine ⟨fun p u grip => ?_, fun D buffer c filled => ?_, fun f busy => ?_⟩
      · unfold State.grip at grip
        rw [frame_w, at_w] at grip
        cases grip
      · rw [at_w] at filled
        cases filled
      · rw [frame_w] at busy
        cases busy
    · exact .empty (at_w.trans empty) fun p => frame_w ▸ idle p
  have grip : t.grip w = none := by
    rcases bare with ⟨absent, -⟩ | ⟨buffer, empty, idle⟩
    · exact (grip_absent sits (at_w.trans absent)).2
    · exact grip_empty (at_w.trans empty) fun p => frame_w ▸ idle p
  have others : ∀ v, v ≠ w → Elsewhere s t v := fun v other => by
    refine ⟨by rw [wrapper, Function.update_of_ne other], by rw [frame, Function.update_of_ne other],
      fun a u theirs => heap a fun u' mine => other (h.apart v w a u u' theirs mine)⟩
  obtain ⟨inv, custody⟩ := h.of_one sound sits others fun a u mine => by
    rw [grip] at mine
    cases mine
  rw [custody_none grip] at custody
  exact ⟨inv, custody⟩

theorem Inv.fill (h : Inv type s) {c : C} {buffer : Bytes C A}
    (wrapper : t.wrapper = Function.update s.wrapper w (some ⟨some (type c), buffer⟩))
    (frame : t.frame = Function.update s.frame w none)
    (found : t.find w (callable_ptr (type c) buffer) = some c)
    (alone : ∀ a, callable_ptr (type c) buffer = .allocated (some a) → ∀ v u,
      s.grip v ≠ some (.allocated (some a), u))
    (heap : ∀ a v u, s.grip v = some (.allocated (some a), u) → t.heap a = s.heap a)
    (sound : t.faulty = s.faulty) :
    Inv type t ∧ t.custody = Function.update s.custody w (some (c, false)) := by
  have at_w : t.wrapper w = some ⟨some (type c), buffer⟩ := by rw [wrapper, Function.update_self]
  have frame_w : t.frame w = none := by rw [frame, Function.update_self]
  have grip : t.grip w = some (callable_ptr (type c) buffer, false) := by
    unfold State.grip
    rw [frame_w, at_w]
  have sits : Sits type t w := by
    refine ⟨fun p u mine => ?_, fun D buffer' d filled mine => ?_, fun f busy => ?_⟩
    · cases grip.symm.trans mine
      exact ⟨c, found⟩
    · cases at_w.symm.trans filled
      rw [Option.some.inj (mine.symm.trans found)]
    · rw [frame_w] at busy
      cases busy
  have others : ∀ v, v ≠ w → Elsewhere s t v := fun v other =>
    ⟨by rw [wrapper, Function.update_of_ne other], by rw [frame, Function.update_of_ne other],
      fun a u theirs => heap a v u theirs⟩
  obtain ⟨inv, custody⟩ := h.of_one sound sits others fun a u mine v u' _ => by
    have target := (Prod.mk.inj (Option.some.inj (grip.symm.trans mine))).1
    exact alone a target v u'
  rw [custody_of_grip grip found] at custody
  exact ⟨inv, custody⟩

theorem view_same (custody : t.custody = Function.update s.custody w none) (free : s.grip w = none)
    (rest : (t.stored, t.log) = (s.stored, s.log)) : view t = view s := by
  obtain ⟨stored, log⟩ := Prod.mk.inj rest
  unfold view
  rw [custody, ← custody_none free, Function.update_eq_self, stored, log]

/-- What reset() does: nothing, no more than to give up a callable, or its destruction. -/
inductive Releases (type : C → CallableType) (s : Ownership.State W C) (w : W) :
    Ownership.State W C → Prop where
  | nothing : s.custody w = none → Releases type s w s
  | gives_up {c u} : s.custody w = some (c, u) → (type c).needs_destruction = false →
      Releases type s w { s with custody := Function.update s.custody w none }
  | destroys {c u} : s.custody w = some (c, u) →
      Releases type s w { s with
        custody := Function.update s.custody w none, log := s.log ++ [.destroyed c] }

omit [DecidableEq W] in
theorem not_calling (next : Next W) (p : Target A) :
    some (Frame.destroying next) ≠ some (.calling p) := fun same => by cases same

variable [DecidableEq A]

theorem Inv.destroyCallable (h : Inv type s) (buffer : Bytes C A) {p : Target A} {u : Bool}
    (grip : s.grip w = some (p, u)) (next : Next W) :
    Inv type ((s.destroyCallable w buffer p).enter w (.destroying next)) ∧
      Releases type (view s) w (view ((s.destroyCallable w buffer p).enter w (.destroying next))) := by
  obtain ⟨c, found⟩ := (h.sits w).gripped p u grip
  have held := custody_of_grip grip found
  unfold State.destroyCallable
  rw [found]
  cases p with
  | inline =>
    obtain ⟨inv, custody⟩ := h.clear (w := w) (x := some ⟨none, .raw⟩) (f := some (.destroying next))
      (t := { s.put w ⟨none, .raw⟩ with log := s.log ++ [Ownership.Event.destroyed c] }.enter w (.destroying next))
      rfl rfl (.inr ⟨_, rfl, not_calling next⟩) (fun _ _ => rfl) rfl
    refine ⟨inv, ?_⟩
    unfold view
    rw [custody]
    exact .destroys held
  | allocated p =>
    cases p with
    | none => cases found
    | some a =>
      obtain ⟨inv, custody⟩ := h.clear (w := w) (x := some ⟨none, buffer⟩)
        (f := some (.destroying next))
        (t := { s.put w ⟨none, buffer⟩ with
          heap := Function.update s.heap a none
          log := s.log ++ [Ownership.Event.destroyed c] }.enter w (.destroying next))
        rfl rfl (.inr ⟨_, rfl, not_calling next⟩)
        (fun a' other => Function.update_of_ne (fun same : a' = a => other u (same ▸ grip)) ..) rfl
      refine ⟨inv, ?_⟩
      unfold view
      rw [custody]
      exact .destroys held

theorem Inv.reset (h : Inv type s) {x : Wrapper C A} (at_w : s.wrapper w = some x)
    (free : s.frame w = none) (next : Next W) :
    Inv type ((s.reset w x).enter w (.destroying next)) ∧
      Releases type (view s) w (view ((s.reset w x).enter w (.destroying next))) := by
  obtain ⟨vtbl, buffer⟩ := x
  cases vtbl with
  | none =>
    have none_held : s.grip w = none := grip_empty at_w fun p => by rw [free]; exact fun none => by cases none
    obtain ⟨inv, custody⟩ := h.clear (w := w) (x := some ⟨none, buffer⟩) (f := some (.destroying next))
      (t := s.enter w (.destroying next)) (by rw [← at_w, Function.update_eq_self]; rfl) rfl
      (.inr ⟨_, rfl, not_calling next⟩) (fun _ _ => rfl) rfl
    refine ⟨inv, ?_⟩
    change Releases type (view s) w (view (s.enter w (.destroying next)))
    rw [view_same custody none_held rfl]
    exact .nothing (custody_none none_held)
  | some D =>
    obtain ⟨-, grip⟩ := grip_stored (h.sits w) at_w
    simp only [State.reset]
    split
    · rename_i trivial
      obtain ⟨c, found⟩ := (h.sits w).gripped _ _ grip
      have kind := (h.sits w).typed D buffer c at_w found
      obtain ⟨inv, custody⟩ := h.clear (w := w) (x := some ⟨none, buffer⟩)
        (f := some (.destroying next)) (t := (s.put w ⟨none, buffer⟩).enter w (.destroying next))
        rfl rfl (.inr ⟨_, rfl, not_calling next⟩) (fun _ _ => rfl) rfl
      refine ⟨inv, ?_⟩
      unfold view
      rw [custody]
      refine .gives_up (custody_of_grip grip found) ?_
      rw [kind]
      simpa [Vtable.trivially_destructible, CallableType.needs_destruction] using trivial
    · exact h.destroyCallable buffer grip next

omit [DecidableEq W] [DecidableEq A] in
theorem find_inline {x : Wrapper C A} {c : C} (at_w : s.wrapper w = some x)
    (found : s.find w .inline = some c) : x.m_buffer = .object c := by
  unfold State.find at found
  rw [at_w] at found
  obtain ⟨vtbl, buffer⟩ := x
  cases buffer with
  | object d => cases found; rfl
  | raw | pointer p => cases found

def movedBytes (D : CallableType) (c : C) (src : Bytes C A) : Bytes C A × Bytes C A :=
  if (make_vtable D).trivially_copiable_destructible then (src, src) else move_destroy D c src

omit [DecidableEq W] [DecidableEq A] in
/-- The pointer to the callable is the same at the destination, or the callable is there itself. -/
theorem moved_target {D : CallableType} {c : C} {x : Wrapper C A} {v : W} (at_v : s.wrapper v = some x)
    (found : s.find v (callable_ptr D x.m_buffer) = some c) :
    callable_ptr D (movedBytes D c x.m_buffer).2 = callable_ptr D x.m_buffer ∧
      (D.is_inlinable = true → (movedBytes D c x.m_buffer).2 = .object c) := by
  unfold movedBytes
  by_cases inlinable : D.is_inlinable = true
  · have target : ∀ b : Bytes C A, callable_ptr D b = .inline := fun b => by
      unfold callable_ptr
      rw [if_pos inlinable]
    refine ⟨by rw [target, target], fun _ => ?_⟩
    split
    · rw [target] at found
      exact find_inline at_v found
    · unfold move_destroy
      rw [if_pos inlinable]
  · refine ⟨?_, fun yes => absurd yes inlinable⟩
    split
    · rfl
    · unfold move_destroy
      rw [if_neg inlinable]

omit [DecidableEq A] in
theorem Inv.move_from (h : Inv type s) {v : W} {x : Wrapper C A} (old : Bytes C A)
    (at_v : s.wrapper v = some x) (free_v : s.frame v = none) (free : s.grip w = none) :
    Inv type ((s.move_from w old v x).leave w) ∧
      (view ((s.move_from w old v x).leave w) = view s ∨
        ∃ c, s.custody v = some (c, false) ∧ s.custody w = none ∧
          view ((s.move_from w old v x).leave w) =
            { view s with
              custody := Function.update (Function.update s.custody v none) w (some (c, false))
              log := s.log ++ [Ownership.Event.moved c] }) := by
  have idle : ∀ p : Target A, (none : Option (Frame W A)) ≠ some (.calling p) := fun _ none => by
    cases none
  obtain ⟨vtbl, buffer⟩ := x
  cases vtbl with
  | none =>
    obtain ⟨inv, custody⟩ := h.clear (w := w) (x := some ⟨none, old⟩) (f := none)
      (t := (s.put w ⟨none, old⟩).leave w) rfl rfl (.inr ⟨_, rfl, idle⟩) (fun _ _ => rfl) rfl
    exact ⟨inv, .inl (view_same custody free rfl)⟩
  | some D =>
    obtain ⟨-, grip⟩ := grip_stored (h.sits v) at_v
    obtain ⟨c, found⟩ := (h.sits v).gripped _ _ grip
    have kind := (h.sits v).typed D buffer c at_v found
    subst kind
    obtain ⟨target, inside⟩ := moved_target at_v found
    have moved : s.move_from w old v ⟨some (type c), buffer⟩ =
        { (s.put v ⟨none, (movedBytes (type c) c buffer).1⟩).put w
            ⟨some (type c), (movedBytes (type c) c buffer).2⟩ with
          log := s.log ++ [Ownership.Event.moved c] } := by
      simp only [State.move_from, found]
      rfl
    rw [moved]
    -- the source is empty before the destination is filled
    obtain ⟨inv, cleared⟩ := h.clear (w := v) (x := some ⟨none, (movedBytes (type c) c buffer).1⟩)
      (f := none) (t := s.put v ⟨none, (movedBytes (type c) c buffer).1⟩) rfl
      (by rw [← free_v, Function.update_eq_self]; rfl) (.inr ⟨_, rfl, idle⟩) (fun _ _ => rfl) rfl
    have grips : ∀ y, y ≠ v →
        (s.put v ⟨none, (movedBytes (type c) c buffer).1⟩).grip y = s.grip y := fun y apart => by
      simp only [State.grip, State.put, Function.update_of_ne apart]
    have empty : (s.put v ⟨none, (movedBytes (type c) c buffer).1⟩).grip v = none :=
      grip_empty (Function.update_self ..) fun p => free_v ▸ idle p
    obtain ⟨filled, custody⟩ := inv.fill (w := w) (c := c)
      (t := { (s.put v ⟨none, (movedBytes (type c) c buffer).1⟩).put w
        ⟨some (type c), (movedBytes (type c) c buffer).2⟩ with
          log := s.log ++ [Ownership.Event.moved c] }.leave w)
      rfl rfl
      (by
        by_cases inlinable : (type c).is_inlinable = true
        · rw [inside inlinable]
          simp [State.find, callable_ptr, inlinable, State.put, State.leave]
        · rw [target]
          rw [← found]
          simp [State.find, callable_ptr, inlinable, State.put, State.leave])
      (fun a at_a y u theirs => by
        by_cases same : y = v
        · rw [same, empty] at theirs
          cases theirs
        · rw [grips y same] at theirs
          rw [target] at at_a
          exact same (h.apart y v a u false theirs (at_a ▸ grip)))
      (fun _ _ _ _ => rfl) rfl
    refine ⟨filled, .inr ⟨c, custody_of_grip grip found, custody_none free, ?_⟩⟩
    unfold view
    rw [custody, cleared]
    rfl

end Pot.UniqueFunction
