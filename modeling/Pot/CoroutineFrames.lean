import Mathlib.Algebra.GroupWithZero.Nat
import Mathlib.Data.Fin.Basic
import Mathlib.Data.List.Forall2
import Mathlib.Data.List.Nodup
import Mathlib.Logic.Relation
import Pot.Coroutine

/-! What the frames of a body's locals hold while the body runs, and what it leaves behind. -/
namespace Pot.Coroutine
open Pot.Task (Thrown Outcome Data)

variable {S V E : Type}

abbrev Steps : State S V E → State S V E → Prop :=
  Relation.ReflTransGen fun s t => step s = some t

/-- A frame that is gone: its body ran once, or never if it was a lazy_task nobody awaited. -/
structure Frame.Settled (f : Frame S V E) : Prop where
  destroyed : f.alive = false
  awaited : f.taken ≠ 0 → f.taken = 1 ∧ f.began = 1 ∧ f.ended = 1
  unawaited : f.kind.isLazy = true → f.taken = 0 → f.began = 0 ∧ f.ended = 0
  task : f.kind.isLazy = false → f.began = 1 ∧ f.ended = 1

def Frame.store (f : Frame S V E) (result : Outcome V E) : Frame S V E :=
  { f with body := .finish result, locals := [], m_data := data result }

def Frame.complete (f : Frame S V E) : Frame S V E :=
  { f with m_awaiter := .sentinel, m_ready := true, done := true, ended := f.ended + 1 }

def Frame.destroy (f : Frame S V E) : Frame S V E := { f with alive := false }

/-- The body of frame `a` has run, beginning with `s`: it left its result, and of the frames made
before only its own and those of its locals, `kids`, are not what they were. -/
structure Ends (s t : State S V E) (a : Nat) (kids : List Nat) (r : Outcome V E × S) : Prop where
  control : t.control = .final_suspend a
  callers : t.callers = s.callers
  shared : t.shared = r.2
  next : s.next ≤ t.next
  own : t.frames a = (s.frames a).store r.1
  kept : ∀ b, b < s.next → b ≠ a → b ∉ kids → t.frames b = s.frames b
  settled : ∀ b, b ∈ kids ∨ s.next ≤ b ∧ b < t.next → (t.frames b).Settled

def Runs (s : State S V E) (a : Nat) (kids : List Nat) (r : Outcome V E × S) : Prop :=
  ∃ t, Steps s t ∧ Ends s t a kids r

/-- Wherever the body is begun, it runs as it evaluates. -/
def Prog.Correct (p : Prog S V E) : Prop :=
  ∀ (s : State S V E) a, s.control = .body a → a < s.next → (s.frames a).alive = true →
    (s.frames a).body = p → (s.frames a).locals = [] → Runs s a [] (p.eval [] s.shared)

/-- A local against its slot in the direct evaluation. -/
inductive Holds (frames : Nat → Frame S V E) : Local → Slot S V E → Prop where
  | deferred {kind c} {q : Prog S V E} (isLazy : kind.isLazy = true)
    (frame : frames c = .create kind q) (correct : q.Correct)
    (typed : ∀ s, Typed kind.isVoid (q.eval [] s).1) :
    Holds frames ⟨kind, some c⟩ (.deferred (q.eval []))
  | ready {kind c} {q : Prog S V E} {result} (eager : kind.isLazy = false)
    (frame : frames c = ((Frame.create kind q).begin.store result).complete)
    (typed : Typed kind.isVoid result) : Holds frames ⟨kind, some c⟩ (.ready result)
  | awaited {kind} : Holds frames ⟨kind, none⟩ .awaited

/-- The locals of the body of `a`. -/
structure Holding (s : State S V E) (a : Nat) (env : List (Slot S V E)) : Prop where
  slots : List.Forall₂ (Holds s.frames) (s.frames a).locals env
  distinct : (handles (s.frames a).locals).Nodup
  below : ∀ c ∈ handles (s.frames a).locals, c < s.next ∧ c ≠ a

@[simp] theorem set_frame (s : State S V E) (a : Nat) (f : Frame S V E) : (s.set a f).frames a = f :=
  Function.update_self ..

theorem set_other (s : State S V E) {a b : Nat} (f : Frame S V E) (other : b ≠ a) :
    (s.set a f).frames b = s.frames b := Function.update_of_ne other ..

theorem eval_typed (p : Prog S V E) {isVoid : Bool} {there : List Bool}
    (wellFormed : p.WellFormed isVoid there) (env : List (Slot S V E)) (s : S) :
    Typed isVoid (p.eval env s).1 := by
  induction p generalizing there env s with
  | finish result => exact wellFormed
  | compute effect rest ih => exact ih s (wellFormed s) env (effect s)
  | create kind child rest _ ih =>
    simp only [Prog.eval]
    split
    · exact ih wellFormed.2 _ _
    · exact ih wellFormed.2 _ _
  | await i rest ih =>
    simp only [Prog.eval]
    split
    · exact ih _ (wellFormed.2 _) _ _
    · exact ih _ (wellFormed.2 _) _ _
    · exact ih _ (wellFormed.2 _) _ _

theorem get_store {f : Frame S V E} {result : Outcome V E} (typed : Typed f.kind.isVoid result) :
    (f.store result).complete.get = result := by
  cases result with
  | returned v =>
    cases v with
    | none =>
      have isVoid : f.kind.isVoid = true := typed.symm
      simp only [Frame.get, Frame.store, Frame.complete, data, isVoid, if_true]
    | some v =>
      have notVoid : f.kind.isVoid = false := typed.symm
      simp only [Frame.get, Frame.store, Frame.complete, data, notVoid, if_true, Bool.false_eq_true,
        if_false]
  | threw x => rfl

@[simp] theorem handles_append (locals more : List Local) :
    handles (locals ++ more) = handles locals ++ handles more := List.filterMap_append ..

theorem handles_set {locals : List Local} {i : Nat} {kind : Kind} {c : Nat}
    (there : locals[i]? = some ⟨kind, some c⟩) :
    (handles locals).Perm (c :: handles (locals.set i ⟨kind, none⟩)) := by
  induction locals generalizing i with
  | nil => cases there
  | cons l locals ih =>
    cases i with
    | zero =>
      cases there
      exact .refl _
    | succ i =>
      have rest := ih there
      cases held : l.m_handle with
      | none => simpa only [handles, List.set_cons_succ, List.filterMap_cons, held] using rest
      | some b =>
        simp only [handles, List.set_cons_succ, List.filterMap_cons, held]
        exact (rest.cons b).trans (.swap ..)

theorem forall₂_getElem? {α β : Type} {R : α → β → Prop} {l : List α} {m : List β}
    (related : List.Forall₂ R l m) {i : Nat} {y : β} (there : m[i]? = some y) :
    ∃ x, l[i]? = some x ∧ R x y := by
  induction related generalizing i with
  | nil => cases there
  | @cons x y' l m head _ ih =>
    cases i with
    | zero =>
      cases there
      exact ⟨x, rfl, head⟩
    | succ i => exact ih there

theorem forall₂_set {α β : Type} {R : α → β → Prop} {l : List α} {m : List β}
    (related : List.Forall₂ R l m) (i : Nat) {x : α} {y : β} (now : R x y) :
    List.Forall₂ R (l.set i x) (m.set i y) := by
  induction related generalizing i with
  | nil => exact .nil
  | cons head tail ih =>
    cases i with
    | zero => exact .cons now tail
    | succ i => exact .cons head (ih i)

theorem Holds.congr {frames frames' : Nat → Frame S V E} {l : Local} {slot : Slot S V E}
    (h : Holds frames l slot) (same : ∀ c, l.m_handle = some c → frames' c = frames c) :
    Holds frames' l slot := by
  cases h with
  | deferred isLazy frame correct typed =>
    exact .deferred isLazy ((same _ rfl).trans frame) correct typed
  | ready eager frame typed => exact .ready eager ((same _ rfl).trans frame) typed
  | awaited => exact .awaited

theorem mem_handles {locals : List Local} {c : Nat} :
    c ∈ handles locals ↔ ∃ l ∈ locals, l.m_handle = some c := List.mem_filterMap

theorem holds_congr {frames frames' : Nat → Frame S V E} {locals : List Local}
    {env : List (Slot S V E)} (h : List.Forall₂ (Holds frames) locals env)
    (same : ∀ c ∈ handles locals, frames' c = frames c) :
    List.Forall₂ (Holds frames') locals env := by
  induction h with
  | nil => exact .nil
  | @cons l slot locals env head _ ih =>
    refine .cons (head.congr fun c held => same c ?_) (ih fun c inside => same c ?_)
    · exact mem_handles.mpr ⟨l, List.mem_cons_self, held⟩
    · obtain ⟨l, mem, held⟩ := mem_handles.mp inside
      exact mem_handles.mpr ⟨l, List.mem_cons_of_mem _ mem, held⟩

/-- What a body has not awaited when it ends can go: a lazy_task that never began, a task that
has ended. -/
theorem Holds.kid {frames : Nat → Frame S V E} {kind : Kind} {c : Nat} {slot : Slot S V E}
    (h : Holds frames ⟨kind, some c⟩ slot) :
    (frames c).alive = true ∧ (frames c).locals = [] ∧ (frames c).destroy.Settled := by
  cases h with
  | deferred isLazy frame =>
    rw [frame]
    refine ⟨rfl, rfl, rfl, fun no => absurd rfl no, fun _ _ => ⟨rfl, rfl⟩, fun eager => ?_⟩
    cases isLazy.symm.trans eager
  | ready eager frame =>
    rw [frame]
    refine ⟨rfl, rfl, rfl, fun no => absurd rfl no, fun isLazy => ?_, fun _ => ⟨rfl, rfl⟩⟩
    cases eager.symm.trans isLazy

theorem holds_kid {frames : Nat → Frame S V E} {locals : List Local} {env : List (Slot S V E)}
    (h : List.Forall₂ (Holds frames) locals env) {c : Nat} (inside : c ∈ handles locals) :
    (frames c).alive = true ∧ (frames c).locals = [] ∧ (frames c).destroy.Settled := by
  induction h with
  | nil => cases inside
  | @cons l slot locals env head _ ih =>
    obtain ⟨l', mem, held⟩ := mem_handles.mp inside
    rcases List.mem_cons.mp mem with rfl | mem
    · obtain ⟨kind, handle⟩ := l'
      cases held
      exact head.kid
    · exact ih (mem_handles.mpr ⟨l', mem, held⟩)

end Pot.Coroutine
