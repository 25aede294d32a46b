import Pot.UniqueFunctionOwnership

/-! What is left when all wrappers are gone. operator() destroys the callable after the call, in the
same function; an exception from the call passes by the destruction, and the wrapper is empty by
then, so that reset() has nothing to do. -/
namespace Pot.UniqueFunction
open Transition

variable {W C A : Type} {type : C → CallableType}

/-- The callable that operator() of `w` is in. -/
def State.callee (s : State W C A) (w : W) : Option C :=
  match s.frame w with
  | some (.calling p) => s.find w p
  | _ => none

/-- No exception leaves a callable whose storage has to be given back or whose destructor does
something. -/
def Clean (type : C → CallableType) (s : State W C A) : Act W C A → Prop
  | .throw w => ∀ c ∈ s.callee w, (type c).needs_destruction = false
  | _ => True

instance (s : State W C A) (a : Act W C A) : Decidable (Clean type s a) :=
  match a with
  | .throw w => inferInstanceAs (Decidable (∀ c ∈ s.callee w, (type c).needs_destruction = false))
  | .default _ | .construct .. | .move_construct .. | .move_assign .. | .reset _ | .destroy _
  | .call _ | .return_ _ | .finish _ => .isTrue trivial

/-- Exactly once; for an inline callable with a trivial destructor no destructor call is needed. -/
def State.Destroyed [DecidableEq C] (type : C → CallableType) (s : State W C A) (c : C) : Prop :=
  if (type c).needs_destruction then s.log.count (.destroyed c) = 1
  else s.log.count (.destroyed c) ≤ 1

theorem callee_custody {s : State W C A} {w : W} {c : C} (callee : s.callee w = some c) :
    s.custody w = some (c, true) := by
  unfold State.callee at callee
  split at callee
  · exact custody_of_grip (grip_calling ‹_›) callee
  · cases callee

variable [DecidableEq W] [DecidableEq C] [DecidableEq A]

theorem throw_callee {s t : State W C A} {w : W} (h : Inv type s)
    (taken : step type s (.throw w) = some t) : ∃ c, s.callee w = some c := by
  simp only [step] at taken
  split at taken
  · rename_i p calling
    obtain ⟨c, found⟩ := (h.sits w).gripped p true (grip_calling calling)
    refine ⟨c, ?_⟩
    unfold State.callee
    rw [calling]
    exact found
  · cases taken

/-- Every callable that needs its destructor is behind a pointer or destroyed. -/
def Kept (type : C → CallableType) (s : Ownership.State W C) : Prop :=
  ∀ c ∈ s.stored, (type c).needs_destruction = true → Ownership.Settled s c

def Leaked (type : C → CallableType) (s : Ownership.State W C) : Prop :=
  ∃ c, (type c).needs_destruction = true ∧ Ownership.Lost s c

omit [DecidableEq A] in
theorem Kept.drop {s : Ownership.State W C} {w : W} {c : C} {u : Bool} (kept : Kept type s)
    (held : s.custody w = some (c, u)) (needless : (type c).needs_destruction = false) :
    Kept type { s with custody := Function.update s.custody w none } := by
  intro d mem needs
  have taken := Ownership.step_iff.mpr (.drop held)
  rcases Ownership.step_settled (kept d mem needs) taken with settled | ⟨v, u', op, theirs⟩
  · exact settled
  · cases op
    cases held.symm.trans theirs
    rw [needless] at needs
    cases needs

theorem kept_step {s t : State W C A} {a : Act W C A}
    (reached : Reached (system W A type) s) (kept : Kept type (view s)) (clean : Clean type s a)
    (taken : step type s a = some t) : Kept type (view t) := by
  have inv := reached_inv reached
  have shows := (step_shows inv taken).2
  generalize hs : view s = u at shows kept
  generalize view t = v at shows
  cases shows with
  | same => exact kept
  | keeps _ moves kept_all =>
    intro c mem needs
    have taken := Ownership.step_iff.mpr moves
    rcases Ownership.stored_before mem taken with before | settled
    · rcases Ownership.step_settled (kept c before needs) taken with settled | ⟨w, _, dropped, -⟩
      · exact settled
      · exact absurd dropped (kept_all w)
    · exact settled
  | gives_up _ held needless => exact kept.drop held needless
  | @throws _ w c _ held =>
    obtain ⟨d, callee⟩ := throw_callee inv taken
    have same := callee_custody callee
    rw [← hs] at held
    cases same.symm.trans held
    exact kept.drop (hs ▸ held) (clean c callee)

theorem leaked_step {s t : State W C A} {a : Act W C A}
    (reached : Reached (system W A type) s) (unclean : ¬ Clean type s a)
    (taken : step type s a = some t) : Leaked type (view t) := by
  have shows := (step_shows (reached_inv reached) taken).2
  have held_once := Ownership.reached_inv ((simulates_ownership W A type).reached reached)
  cases a with
  | throw w =>
    simp only [Clean, not_forall, Bool.not_eq_false] at unclean
    obtain ⟨c, callee, needs⟩ := unclean
    have mine := callee_custody callee
    generalize hs : view s = u at shows held_once
    generalize view t = v at shows
    cases shows with
    | same quiet | keeps quiet | gives_up quiet => exact absurd rfl (quiet w)
    | @throws _ _ d _ held =>
      rw [← hs] at held
      cases mine.symm.trans held
      exact ⟨c, needs, Ownership.drop_lost held_once (hs ▸ held)
        (Ownership.step_iff.mpr (.drop (hs ▸ held)))⟩
  | _ => exact absurd trivial unclean

theorem leaked_stays {s t : State W C A} {a : Act W C A} (reached : Reached (system W A type) s)
    (leaked : Leaked type (view s)) (taken : step type s a = some t) : Leaked type (view t) := by
  obtain ⟨c, needs, lost⟩ := leaked
  rcases (step_shows (reached_inv reached) taken).2.step with same | ⟨op, taken⟩
  · exact ⟨c, needs, same ▸ lost⟩
  · exact ⟨c, needs, Ownership.step_lost lost taken⟩

omit [DecidableEq W] [DecidableEq C] [DecidableEq A] in
/-- Without wrappers, only what has been destroyed is settled. -/
theorem settled_iff {s : State W C A} (h : Inv type s) (ended : ∀ w, s.wrapper w = none) (c : C) :
    Ownership.Settled (view s) c ↔ .destroyed c ∈ s.log := by
  constructor
  · rintro (⟨w, u, held⟩ | gone)
    · have empty := custody_none (grip_absent (h.sits w) (ended w)).2
      rw [show s.custody w = some (c, u) from held] at empty
      cases empty
    · exact gone
  · exact .inr

/-- When all wrappers are gone, every callable has been destroyed exactly once if and only if no
call of one that needs it has thrown. -/
theorem destroyed_iff {as : List (Act W C A)} {t : State W C A}
    (run : replay (system W A type) initial as = some t) (ended : ∀ w, t.wrapper w = none) :
    (∀ c ∈ t.stored, t.Destroyed type c) ↔
      ReplaysUnder (system W A type) (Clean type) initial as := by
  have reached : Reached (system W A type) t := (Reached.start rfl).replay as run
  have inv := reached_inv reached
  have order := (Ownership.reached_inv ((simulates_ownership W A type).reached reached)).order
  have verdict := replay_verdict
    (G := fun s => Reached (system W A type) s ∧ Kept type (view s))
    (B := fun s => Reached (system W A type) s ∧ Leaked type (view s))
    (fun s a u good clean taken => ⟨good.1.next taken, kept_step good.1 good.2 clean taken⟩)
    (fun s a u good unclean taken => ⟨good.1.next taken, leaked_step good.1 unclean taken⟩)
    (fun s a u bad taken => ⟨bad.1.next taken, leaked_stays bad.1 bad.2 taken⟩)
    ⟨.start rfl, fun c mem => absurd mem List.not_mem_nil⟩ as run
  rcases verdict with ⟨clean, -, kept⟩ | ⟨unclean, -, c, needs, lost⟩
  · refine ⟨fun _ => clean, fun _ c mem => ?_⟩
    have atMostOnce := Ownership.count_destroyed_le order c
    unfold State.Destroyed
    split
    · rename_i needs
      have gone := (settled_iff inv ended c).mp (kept c mem needs)
      exact Nat.le_antisymm atMostOnce (List.count_pos_iff.mpr gone)
    · exact atMostOnce
  · refine ⟨fun all => ?_, fun clean => absurd clean unclean⟩
    have once := all c lost.1
    unfold State.Destroyed at once
    rw [if_pos needs] at once
    have gone : .destroyed c ∈ t.log := List.count_pos_iff.mp (once ▸ Nat.one_pos)
    exact absurd ((settled_iff inv ended c).mpr gone) lost.2

def closures : Bool → CallableType
  | true => ⟨true, true, true, 8⟩
  | false => closure

/-- The first callable is called and returns, the second one throws. -/
def calledInTurn : List (Act Bool Bool Unit) :=
  [.construct false false (), .construct true true (), .call true, .throw true, .call false,
    .return_ false, .finish false, .destroy false, .finish false, .destroy true, .finish true]

theorem destroyed_iff_in_turn : ∃ t, replay (system Bool Unit closures) initial calledInTurn =
    some t ∧ ∀ c ∈ t.stored, t.Destroyed closures c := by
  have run := (Option.some_get (x := replay (system Bool Unit closures) initial calledInTurn)
    (by decide)).symm
  exact ⟨_, run, (destroyed_iff run (by decide)).mpr (by decide)⟩

def thrown : List (Act Unit Unit Unit) :=
  [.construct () () (), .call (), .throw (), .destroy (), .finish ()]

theorem thrown_leaks :
    ¬ ∀ (type : Unit → CallableType) (as : List (Act Unit Unit Unit)) (t : State Unit Unit Unit),
      replay (system Unit Unit type) initial as = some t → (∀ w, t.wrapper w = none) →
        ∀ c ∈ t.stored, t.Destroyed type c := by
  intro all
  have run := (Option.some_get (x := replay (system Unit Unit fun _ => closure) initial thrown)
    (by decide)).symm
  have destroyed := all _ thrown _ run (fun () => by decide) () (by decide)
  unfold State.Destroyed at destroyed
  exact absurd destroyed (by decide)

end Pot.UniqueFunction
