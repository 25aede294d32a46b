import Mathlib.Data.List.Count
import Pot.UniqueFunctionInvariant

/-! What every sequence of operations keeps: a callable has one owner, is invoked at most once, and
is left alone once it has been destroyed. -/
namespace Pot.UniqueFunction
open Transition
open Ownership (Event)

variable {W C A : Type} {type : C → CallableType}

/-- What the holders see of an operation. -/
inductive Shows (type : C → CallableType) [DecidableEq W] :
    Act W C A → Ownership.State W C → Ownership.State W C → Prop where
  | same {a s} : (∀ w, a ≠ .throw w) → Shows type a s s
  | keeps {a s op t} : (∀ w, a ≠ .throw w) → Ownership.Moves s op t → (∀ w, op ≠ .drop w) →
      Shows type a s t
  | gives_up {a s w c u} : (∀ w, a ≠ .throw w) → s.custody w = some (c, u) →
      (type c).needs_destruction = false →
      Shows type a s { s with custody := Function.update s.custody w none }
  | throws {s w c u} : s.custody w = some (c, u) →
      Shows type (.throw w) s { s with custody := Function.update s.custody w none }

variable [DecidableEq W]

theorem Shows.of_releases {a : Act W C A} {w : W} {s t : Ownership.State W C}
    (released : Releases type s w t) (quiet : ∀ w, a ≠ .throw w) : Shows type a s t := by
  cases released with
  | nothing held => exact .same quiet
  | gives_up held needless => exact .gives_up quiet held needless
  | destroys held => exact .keeps quiet (.destroy held) fun _ none => by cases none

theorem Shows.step [DecidableEq C] {a : Act W C A} {s t : Ownership.State W C}
    (shows : Shows type a s t) : t = s ∨ ∃ op, Ownership.step s op = some t := by
  cases shows with
  | same => exact .inl rfl
  | keeps quiet moves kept => exact .inr ⟨_, Ownership.step_iff.mpr moves⟩
  | gives_up quiet held needless => exact .inr ⟨_, Ownership.step_iff.mpr (.drop held)⟩
  | throws held => exact .inr ⟨_, Ownership.step_iff.mpr (.drop held)⟩

theorem leave_absent [DecidableEq A] {s : State W C A} {w : W} (free : s.frame w = none) :
    s.leave w = s := by
  unfold State.leave
  rw [← free, Function.update_eq_self]

theorem move_from_frame (s : State W C A) (w v : W) (old : Bytes C A) (x : Wrapper C A) :
    (s.move_from w old v x).frame = s.frame := by
  unfold State.move_from
  split
  · rfl
  · split <;> rfl

variable [DecidableEq A]

section Steps

variable {s : State W C A} (h : Inv type s)
include h

omit [DecidableEq A] in
theorem moved_shows {a : Act W C A} {w v : W} {x : Wrapper C A} (old : Bytes C A)
    (at_v : s.wrapper v = some x) (free_v : s.frame v = none) (free : s.grip w = none)
    (quiet : ∀ w, a ≠ .throw w) :
    Inv type ((s.move_from w old v x).leave w) ∧
      Shows type a (view s) (view ((s.move_from w old v x).leave w)) := by
  obtain ⟨inv, same | ⟨c, held, empty, moved⟩⟩ := h.move_from old at_v free_v free
  · exact ⟨inv, by rw [same]; exact .same quiet⟩
  · refine ⟨inv, ?_⟩
    rw [moved]
    exact .keeps quiet (.move held empty) fun _ none => by cases none

omit [DecidableEq A] in
theorem called_shows {w : W} {D : CallableType} {buffer : Bytes C A} {c : C}
    (at_w : s.wrapper w = some ⟨some D, buffer⟩) (found : s.find w (callable_ptr D buffer) = some c) :
    Inv type { (s.put w ⟨none, buffer⟩).enter w (.calling (callable_ptr D buffer)) with
        log := s.log ++ [Event.used c] } ∧
      Shows (A := A) type (.call w) (view s)
        (view { (s.put w ⟨none, buffer⟩).enter w (.calling (callable_ptr D buffer)) with
          log := s.log ++ [Event.used c] }) := by
  obtain ⟨-, grip⟩ := grip_stored (h.sits w) at_w
  generalize ht : ({ (s.put w ⟨none, buffer⟩).enter w (.calling (callable_ptr D buffer)) with
    log := s.log ++ [Event.used c] } : State W C A) = t
  have wrapper : t.wrapper = Function.update s.wrapper w (some ⟨none, buffer⟩) := by rw [← ht]; rfl
  have frame : t.frame = Function.update s.frame w (some (.calling (callable_ptr D buffer))) := by
    rw [← ht]; rfl
  have heap : t.heap = s.heap := by rw [← ht]; rfl
  have mine : t.grip w = some (callable_ptr D buffer, true) := by
    unfold State.grip
    rw [frame, Function.update_self]
  have still : t.find w (callable_ptr D buffer) = some c := by
    cases target : callable_ptr D buffer with
    | inline =>
      rw [target] at found
      have inside := find_inline at_w found
      unfold State.find
      rw [wrapper, Function.update_self]
      simp only at inside
      rw [inside]
    | allocated p =>
      rw [target] at found
      unfold State.find
      rw [heap]
      exact found
  have others : ∀ v, v ≠ w → Elsewhere s t v := fun v other =>
    ⟨by rw [wrapper, Function.update_of_ne other], by rw [frame, Function.update_of_ne other],
      fun a u _ => by rw [heap]⟩
  have sits : Sits type t w := by
    refine ⟨fun p u theirs => ?_, fun D' buffer' d filled => ?_, fun f busy => ?_⟩
    · cases mine.symm.trans theirs
      exact ⟨c, still⟩
    · rw [wrapper, Function.update_self] at filled
      cases filled
    · exact ⟨buffer, by rw [wrapper, Function.update_self]⟩
  obtain ⟨inv, custody⟩ := h.of_one (by rw [← ht]; rfl) sits others fun a u at_a v u' other theirs => by
    have target := (Prod.mk.inj (Option.some.inj (mine.symm.trans at_a))).1
    rw [target] at grip
    exact other (h.apart v w a u' false theirs grip)
  rw [custody_of_grip mine still] at custody
  refine ⟨inv, ?_⟩
  have shown : view t = { view s with
      custody := Function.update s.custody w (some (c, true)), log := s.log ++ [.used c] } := by
    unfold view
    rw [custody, ← ht]
    rfl
  rw [shown]
  exact .keeps (fun _ none => by cases none) (.use (custody_of_grip grip found))
    fun _ none => by cases none

omit [DecidableEq A] in
theorem thrown_shows {w : W} {p : Target A} (calling : s.frame w = some (.calling p)) :
    Inv type (s.leave w) ∧ Shows (A := A) type (.throw w) (view s) (view (s.leave w)) := by
  obtain ⟨buffer, at_w⟩ := (h.sits w).busy _ calling
  have grip := grip_calling calling
  obtain ⟨c, found⟩ := (h.sits w).gripped _ _ grip
  obtain ⟨inv, custody⟩ := h.clear (w := w) (x := some ⟨none, buffer⟩) (f := none) (t := s.leave w)
    (by rw [← at_w, Function.update_eq_self]; rfl) rfl
    (.inr ⟨_, rfl, fun _ none => by cases none⟩) (fun _ _ => rfl) rfl
  refine ⟨inv, ?_⟩
  unfold view
  rw [custody]
  exact .throws (custody_of_grip grip found)

omit [DecidableEq A] in
theorem finished_shows {w : W} {next : Next W} {x : Option (Wrapper C A)} {a : Act W C A}
    {t : State W C A} (busy : s.frame w = some (.destroying next)) (quiet : ∀ w, a ≠ .throw w)
    (wrapper : t.wrapper = Function.update s.wrapper w x)
    (frame : t.frame = Function.update s.frame w none)
    (bare : (x = none ∧ (none : Option (Frame W A)) = none) ∨
      ∃ buffer, x = some ⟨none, buffer⟩ ∧ ∀ p, (none : Option (Frame W A)) ≠ some (.calling p))
    (rest : (t.heap, t.faulty, t.stored, t.log) = (s.heap, s.faulty, s.stored, s.log)) :
    Inv type t ∧ Shows type a (view s) (view t) := by
  simp only [Prod.mk.injEq] at rest
  obtain ⟨heap, sound, stored, log⟩ := rest
  obtain ⟨buffer, at_w⟩ := (h.sits w).busy _ busy
  have empty : s.grip w = none :=
    grip_empty at_w fun p calling => by rw [busy] at calling; cases calling
  obtain ⟨inv, custody⟩ := h.clear wrapper frame bare (fun a _ => by rw [heap]) sound
  refine ⟨inv, ?_⟩
  rw [view_same custody empty (by rw [stored, log])]
  exact .same quiet

variable [DecidableEq C]

theorem constructed_shows {w : W} {c : C} {a : A} {t : State W C A}
    (taken : step type s (.construct w c a) = some t) :
    Inv type t ∧ Shows type (.construct w c a) (view s) (view t) := by
  have quiet : ∀ v, (.construct w c a : Act W C A) ≠ .throw v := fun _ none => by cases none
  have stores : ∀ {t : State W C A}, s.grip w = none → c ∉ s.stored →
      t.custody = Function.update s.custody w (some (c, false)) → t.stored = s.stored ++ [c] →
      t.log = s.log → Shows type (.construct w c a : Act W C A) (view s) (view t) := by
    intro t free fresh custody stored log
    unfold view
    rw [custody, stored, log]
    exact .keeps quiet (.store (custody_none free) fresh) fun _ none => by cases none
  simp only [step] at taken
  split at taken
  · cases taken
  · rename_i new
    rw [not_or, Option.not_isSome_iff_eq_none] at new
    obtain ⟨absent, fresh⟩ := new
    obtain ⟨free, empty⟩ := grip_absent (h.sits w) absent
    split at taken
    · rename_i inlinable
      cases taken
      obtain ⟨inv, custody⟩ := h.fill (w := w) (c := c)
        (t := { s.put w ⟨some (type c), .object c⟩ with stored := s.stored ++ [c] }) rfl
        (by rw [← free, Function.update_eq_self]; rfl)
        (by simp [State.find, callable_ptr, inlinable, State.put])
        (fun a' target => by simp [callable_ptr, inlinable] at target) (fun _ _ _ _ => rfl) rfl
      exact ⟨inv, stores empty fresh custody rfl rfl⟩
    · rename_i allocated
      split at taken
      · cases taken
      · rename_i unused
        rw [Option.not_isSome_iff_eq_none] at unused
        cases taken
        -- no callable is at the new address
        have alone : ∀ v u, s.grip v ≠ some (.allocated (some a), u) := fun v u theirs => by
          obtain ⟨d, found⟩ := (h.sits v).gripped _ _ theirs
          rw [show s.find v (.allocated (some a)) = s.heap a from rfl, unused] at found
          cases found
        obtain ⟨inv, custody⟩ := h.fill (w := w) (c := c)
          (t := { s.put w ⟨some (type c), .pointer (some a)⟩ with
            heap := Function.update s.heap a (some c), stored := s.stored ++ [c] }) rfl
          (by rw [← free, Function.update_eq_self]; rfl)
          (by simp [State.find, callable_ptr, allocated])
          (fun a' target v u theirs => by
            simp [callable_ptr, allocated] at target
            exact alone v u (target ▸ theirs))
          (fun a' v u theirs =>
            Function.update_of_ne (fun same : a' = a => alone v u (same ▸ theirs)) ..) rfl
        exact ⟨inv, stores empty fresh custody rfl rfl⟩

/-- Every operation is one of the holders' or none, and only an exception lets a callable go that
needs its destructor. -/
theorem step_shows {a : Act W C A} {t : State W C A} (taken : step type s a = some t) :
    Inv type t ∧ Shows type a (view s) (view t) := by
  cases a with
  | default w =>
    simp only [step, Option.ite_none_right_eq_some, Option.some.injEq, Option.isNone_iff_eq_none]
      at taken
    obtain ⟨absent, rfl⟩ := taken
    obtain ⟨free, empty⟩ := grip_absent (h.sits w) absent
    obtain ⟨inv, custody⟩ := h.clear (w := w) (x := some ⟨none, .raw⟩) (f := none)
      (t := s.put w ⟨none, .raw⟩) rfl (by rw [← free, Function.update_eq_self]; rfl)
      (.inr ⟨_, rfl, fun _ none => by cases none⟩) (fun _ _ => rfl) rfl
    refine ⟨inv, ?_⟩
    rw [view_same custody empty rfl]
    exact .same fun _ none => by cases none
  | construct w c a => exact constructed_shows h taken
  | move_construct w v =>
    simp only [step] at taken
    split at taken
    · rename_i x absent at_v free_v
      cases taken
      obtain ⟨free, empty⟩ := grip_absent (h.sits w) absent
      have moved := moved_shows h (a := .move_construct w v) .raw at_v free_v empty
        fun _ none => by cases none
      rwa [leave_absent (by rw [move_from_frame]; exact free)] at moved
    · cases taken
  | move_assign w v =>
    simp only [step] at taken
    split at taken
    · split at taken
      · cases taken
        exact ⟨h, .same fun _ none => by cases none⟩
      · cases taken
        obtain ⟨inv, released⟩ := h.reset ‹_› ‹s.frame w = none› (.move_from v)
        exact ⟨inv, .of_releases released fun _ none => by cases none⟩
    · cases taken
  | reset w =>
    simp only [step] at taken
    split at taken
    · cases taken
      obtain ⟨inv, released⟩ := h.reset ‹_› ‹_› .stay
      exact ⟨inv, .of_releases released fun _ none => by cases none⟩
    · cases taken
  | destroy w =>
    simp only [step] at taken
    split at taken
    · cases taken
      obtain ⟨inv, released⟩ := h.reset ‹_› ‹_› .gone
      exact ⟨inv, .of_releases released fun _ none => by cases none⟩
    · cases taken
  | call w =>
    simp only [step] at taken
    split at taken
    · rename_i D buffer at_w free
      obtain ⟨c, found⟩ := (h.sits w).gripped _ _ (grip_stored (h.sits w) at_w).2
      rw [found] at taken
      cases taken
      exact called_shows h at_w found
    · cases taken
  | return_ w =>
    simp only [step] at taken
    split at taken
    · rename_i x p at_w calling
      cases taken
      obtain ⟨inv, released⟩ := h.destroyCallable x.m_buffer (grip_calling calling) .stay
      exact ⟨inv, .of_releases released fun _ none => by cases none⟩
    · cases taken
  | throw w =>
    simp only [step] at taken
    split at taken
    · cases taken
      exact thrown_shows h ‹_›
    · cases taken
  | finish w =>
    simp only [step] at taken
    have quiet : ∀ v, (.finish w : Act W C A) ≠ .throw v := fun _ none => by cases none
    split at taken
    · rename_i x at_w busy
      cases taken
      exact finished_shows h busy quiet (by rw [← at_w, Function.update_eq_self]; rfl) rfl
        (.inr (h.sits w |>.busy _ busy |>.imp fun b empty => ⟨at_w.symm.trans empty, fun _ => by simp⟩))
        rfl
    · rename_i x at_w busy
      cases taken
      exact finished_shows h busy quiet rfl rfl (.inl ⟨rfl, rfl⟩) rfl
    · rename_i x v at_w busy
      split at taken
      · rename_i y at_v free_v
        cases taken
        obtain ⟨buffer, empty⟩ := (h.sits w).busy _ busy
        exact moved_shows h x.m_buffer at_v free_v
          (grip_empty empty fun p calling => by rw [busy] at calling; cases calling) quiet
      · cases taken
    · cases taken

end Steps

omit [DecidableEq W] [DecidableEq A] in
theorem initial_inv : Inv type (initial : State W C A) where
  sound := rfl
  sits _ := ⟨fun _ _ held => (by cases held), fun _ _ _ filled => (by cases filled),
    fun _ busy => (by cases busy)⟩
  apart _ _ _ _ _ held := by cases held

variable [DecidableEq C]

theorem reached_inv {s : State W C A} (reached : Reached (system W A type) s) : Inv type s :=
  reached.invariant (I := Inv type) (fun _ eq => eq ▸ initial_inv)
    fun _ _ _ h taken => (step_shows h taken).1

/-- The wrappers are holders that use each callable once. -/
theorem simulates_ownership (W A : Type) [DecidableEq W] [DecidableEq A]
    (type : C → CallableType) : Simulates (system W A type) (Ownership.system W C) view where
  start s eq := by
    subst eq
    rfl
  step s a t reached taken := (step_shows (reached_inv reached) taken).2.step

/-- The wrapper is not empty, and this callable is behind its vtable. -/
def State.Owns (s : State W C A) (w : W) (c : C) : Prop :=
  ∃ D buffer, s.wrapper w = some ⟨some D, buffer⟩ ∧ s.find w (callable_ptr D buffer) = some c

omit [DecidableEq W] [DecidableEq A] [DecidableEq C] in
theorem Sits.custody {s : State W C A} {w : W} {c : C} (sits : Sits type s w) (owns : s.Owns w c) :
    s.custody w = some (c, false) := by
  obtain ⟨D, buffer, at_w, found⟩ := owns
  exact custody_of_grip (grip_stored sits at_w).2 found

/-- At any time a callable has one owner, has been invoked at most once, and nothing has happened to
it since it was destroyed; and no access has been to anything but a callable. -/
theorem owned_once {s : State W C A} (reached : Reached (system W A type) s) :
    (∀ v w c, s.Owns v c → s.Owns w c → v = w) ∧ (∀ c, s.log.count (.used c) ≤ 1) ∧
      (s.log.Pairwise fun e later => ∀ c, e = .destroyed c → later.item ≠ c) ∧
      s.faulty = false := by
  have inv := reached_inv reached
  have held : Ownership.Inv (view s) :=
    Ownership.reached_inv ((simulates_ownership W A type).reached reached)
  refine ⟨fun v w c left right => ?_, fun c => ?_, ?_, inv.sound⟩
  · exact held.unique v w c false false ((inv.sits v).custody left) ((inv.sits w).custody right)
  · exact Ownership.count_used_le held.order c
  · refine held.order.imp fun {e later} admits c destroyed => ?_
    subst destroyed
    exact admits

/-- The closure of a std::string and two pointers, say: not trivial, and inlinable. -/
def closure : CallableType := ⟨false, false, true, 48⟩

/-- Moved, assigned to itself, called, and both wrappers destroyed. -/
def movedAndCalled : List (Act Bool Unit Unit) :=
  [.construct false () (), .move_construct true false, .move_assign true true, .call true,
    .return_ true, .finish true, .destroy false, .finish false, .destroy true, .finish true]

theorem owned_once_moved : ∃ s, replay (system Bool Unit fun _ => closure) initial movedAndCalled =
    some s ∧ s.log = [.moved (), .used (), .destroyed ()] ∧ s.log.count (.used ()) ≤ 1 := by
  have run := (Option.some_get (x := replay (system Bool Unit fun _ => closure) initial movedAndCalled)
    (by decide)).symm
  refine ⟨_, run, by decide, ?_⟩
  exact (owned_once ((Reached.start rfl).replay _ run)).2.1 ()

end Pot.UniqueFunction
