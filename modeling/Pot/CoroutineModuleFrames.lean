import Mathlib.Algebra.GroupWithZero.Nat
import Mathlib.Computability.StateTransition
import Pot.CoroutineFrames
import Pot.CoroutineModule

/-! The frames of a body's locals while the body runs, and what a body that has run leaves: its
result in its own frame, nothing of its locals, and the calls of await_suspend that it is in. -/
namespace Pot.CoroutineModule
open StateTransition (Reaches)
open Pot.Task (Thrown Outcome Data)
open Pot.Coroutine (Prog Slot Kind Local Typed handles data handles_append mem_handles forall₂_set)

variable {S V E : Type}

/-- A frame that is gone: its body has run once, or never if it was a lazy_task whose result
nobody took. -/
structure Frame.Settled (f : Frame S V E) : Prop where
  destroyed : f.alive = false
  ran : f.ended = f.began ∧ f.began = if f.kind.isLazy = true ∧ f.taken = 0 then 0 else 1

def Frame.store (f : Frame S V E) (result : Outcome V E) : Frame S V E :=
  { f with body := .finish result, locals := [], m_data := data result, m_ready := true }

def Frame.complete (f : Frame S V E) : Frame S V E := { f with done := true, ended := f.ended + 1 }

def Frame.take (f : Frame S V E) : Frame S V E := { f with taken := f.taken + 1 }

def Frame.destroy (f : Frame S V E) : Frame S V E := { f with alive := false }

structure Frame.Finished (f : Frame S V E) (kind : Kind) (result : Outcome V E) : Prop where
  kind : f.kind = kind
  alive : f.alive = true
  locals : f.locals = []
  m_ready : f.m_ready = true
  m_data : f.m_data = data result
  ran : f.ended = f.began ∧ f.began = 1

/-- Control went on and came back from all it called but calls of await_suspend. -/
structure Onward (s t : State S V E) : Prop where
  callers : ∃ k, t.callers = List.replicate k .await_suspend ++ s.callers
  gets : t.gets = s.gets
  results : t.results = s.results
  next : s.next ≤ t.next

/-- The body of frame `a` has run, beginning with `s`: it left its result, and of the frames made
before only its own and those of its locals, `kids`, are not what they were. -/
structure Ends (s t : State S V E) (a : Nat) (kids : List Nat) (r : Outcome V E × S) : Prop where
  control : t.control = .final_suspend a
  onward : Onward s t
  shared : t.shared = r.2
  own : t.frames a = (s.frames a).store r.1
  kept : ∀ b, b < s.next → b ≠ a → b ∉ kids → t.frames b = s.frames b
  settled : ∀ b, b ∈ kids ∨ s.next ≤ b ∧ b < t.next → (t.frames b).Settled

def Runs (s : State S V E) (a : Nat) (kids : List Nat) (r : Outcome V E × S) : Prop :=
  ∃ t, Reaches step s t ∧ Ends s t a kids r

/-- Wherever the body is begun, it runs as it evaluates. -/
def Correct (p : Prog S V E) : Prop :=
  ∀ (s : State S V E) a, s.control = .body a → a < s.next → (s.frames a).alive = true →
    (s.frames a).body = p → (s.frames a).locals = [] → Runs s a [] (need p [] s.shared)

/-- A local against its slot in the evaluation by need. -/
inductive Holds (frames : Nat → Frame S V E) : Local → Slot S V E → Prop where
  | deferred {kind c} {q : Prog S V E} (isLazy : kind.isLazy = true)
    (frame : frames c = .create kind q) (correct : Correct q)
    (typed : ∀ s, Typed kind.isVoid (need q [] s).1) :
    Holds frames ⟨kind, some c⟩ (.deferred (need q []))
  | ready {kind c result} (finished : (frames c).Finished kind result)
    (had : kind.isLazy = true → (frames c).taken ≠ 0) (typed : Typed kind.isVoid result) :
    Holds frames ⟨kind, some c⟩ (.ready result)

/-- The locals of the body of `a`. -/
structure Holding (s : State S V E) (a : Nat) (env : List (Slot S V E)) : Prop where
  slots : List.Forall₂ (Holds s.frames) (s.frames a).locals env
  distinct : (handles (s.frames a).locals).Nodup
  below : ∀ c ∈ handles (s.frames a).locals, c < s.next ∧ c ≠ a

@[simp] theorem set_frame (s : State S V E) (a : Nat) (f : Frame S V E) : (s.set a f).frames a = f :=
  Function.update_self ..

theorem set_other (s : State S V E) {a b : Nat} (f : Frame S V E) (other : b ≠ a) :
    (s.set a f).frames b = s.frames b := Function.update_of_ne other ..

theorem need_typed (p : Prog S V E) {isVoid : Bool} {created : Nat}
    (inScope : Scoped isVoid p created) (env : List (Slot S V E)) (s : S) :
    Typed isVoid (need p env s).1 := by
  induction p generalizing created env s with
  | finish result => exact inScope
  | compute effect rest ih => exact ih s (inScope s) env (effect s)
  | create kind child rest _ ih =>
    simp only [need]
    split
    · exact ih inScope.2 _ _
    · exact ih inScope.2 _ _
  | await i rest ih =>
    simp only [need]
    split
    · exact ih _ (inScope.2 _) _ _
    · exact ih _ (inScope.2 _) _ _
    · exact ih _ (inScope.2 _) _ _

theorem Frame.Finished.get {f : Frame S V E} {kind : Kind} {result : Outcome V E}
    (h : f.Finished kind result) (typed : Typed kind.isVoid result) : f.get = result := by
  unfold Frame.get
  rw [h.m_data, h.kind]
  cases result with
  | threw x => rfl
  | returned v =>
    cases v with
    | none => exact if_pos typed.symm
    | some v => exact if_neg (Bool.eq_false_iff.mp typed.symm)

theorem Frame.Finished.take {f : Frame S V E} {kind : Kind} {result : Outcome V E}
    (h : f.Finished kind result) : f.take.Finished kind result :=
  ⟨h.kind, h.alive, h.locals, h.m_ready, h.m_data, h.ran⟩

theorem Frame.Finished.settled {f : Frame S V E} {kind : Kind} {result : Outcome V E}
    (h : f.Finished kind result) (had : kind.isLazy = true → f.taken ≠ 0) : f.destroy.Settled where
  destroyed := rfl
  ran := by
    refine ⟨h.ran.1, h.ran.2.trans (if_neg ?_).symm⟩
    rintro ⟨isLazy, none⟩
    exact had (h.kind ▸ isLazy) none

theorem finished_complete {f : Frame S V E} (alive : f.alive = true)
    (begun : f.began = 1 ∧ f.ended = 0) (result : Outcome V E) :
    (f.store result).complete.Finished f.kind result :=
  ⟨rfl, alive, rfl, rfl, rfl, (congrArg (· + 1) begun.2).trans begun.1.symm, begun.1⟩

theorem Onward.trans {s t u : State S V E} (h : Onward s t) (later : Onward t u) : Onward s u where
  callers := by
    obtain ⟨k, callers⟩ := h.callers
    obtain ⟨m, callers'⟩ := later.callers
    exact ⟨m + k, by rw [callers', callers, List.replicate_add, List.append_assoc]⟩
  gets := later.gets.trans h.gets
  results := later.results.trans h.results
  next := h.next.trans later.next

theorem Holds.congr {frames frames' : Nat → Frame S V E} {l : Local} {slot : Slot S V E}
    (h : Holds frames l slot) (same : ∀ c, l.m_handle = some c → frames' c = frames c) :
    Holds frames' l slot := by
  cases h with
  | deferred isLazy frame correct typed =>
    exact .deferred isLazy ((same _ rfl).trans frame) correct typed
  | ready finished had typed =>
    have here := same _ rfl
    exact .ready (here ▸ finished) (here ▸ had) typed

theorem holds_congr {frames frames' : Nat → Frame S V E} {locals : List Local}
    {env : List (Slot S V E)} (h : List.Forall₂ (Holds frames) locals env)
    (same : ∀ c ∈ handles locals, frames' c = frames c) :
    List.Forall₂ (Holds frames') locals env := by
  induction h with
  | nil => exact .nil
  | @cons l slot locals env head _ ih =>
    refine .cons (head.congr fun c held => same c ?_) (ih fun c inside => same c ?_)
    · exact mem_handles.mpr ⟨l, List.mem_cons_self, held⟩
    · obtain ⟨l, mem, held⟩ := mem_handles.mp inside
      exact mem_handles.mpr ⟨l, List.mem_cons_of_mem _ mem, held⟩

/-- A local can go when its body ends: a lazy_task that never began, or a coroutine that has
ended. -/
theorem Holds.kid {frames : Nat → Frame S V E} {kind : Kind} {c : Nat} {slot : Slot S V E}
    (h : Holds frames ⟨kind, some c⟩ slot) :
    (frames c).alive = true ∧ (frames c).locals = [] ∧ (frames c).destroy.Settled := by
  cases h with
  | deferred isLazy frame =>
    rw [frame]
    exact ⟨rfl, rfl, rfl, rfl, (if_pos ⟨isLazy, rfl⟩).symm⟩
  | ready finished had => exact ⟨finished.alive, finished.locals, finished.settled had⟩

theorem holds_kid {frames : Nat → Frame S V E} {locals : List Local} {env : List (Slot S V E)}
    (h : List.Forall₂ (Holds frames) locals env) {c : Nat} (inside : c ∈ handles locals) :
    (frames c).alive = true ∧ (frames c).locals = [] ∧ (frames c).destroy.Settled := by
  induction h with
  | nil => cases inside
  | @cons l slot locals env head _ ih =>
    obtain ⟨⟨kind, handle⟩, mem, held⟩ := mem_handles.mp inside
    rcases List.mem_cons.mp mem with rfl | mem
    · cases held
      exact head.kid
    · exact ih (mem_handles.mpr ⟨_, mem, held⟩)

theorem Holding.congr {s u : State S V E} {a : Nat} {env : List (Slot S V E)}
    (h : Holding s a env) (locals : (u.frames a).locals = (s.frames a).locals)
    (same : ∀ c ∈ handles (s.frames a).locals, u.frames c = s.frames c)
    (next : s.next ≤ u.next) : Holding u a env where
  slots := locals ▸ holds_congr h.slots same
  distinct := locals ▸ h.distinct
  below c inside := by
    rw [locals] at inside
    exact ⟨Nat.lt_of_lt_of_le (h.below c inside).1 next, (h.below c inside).2⟩

theorem Holding.push {s u : State S V E} {a c : Nat} {kind : Kind} {env : List (Slot S V E)}
    {slot : Slot S V E} (h : Holding s a env)
    (locals : (u.frames a).locals = (s.frames a).locals ++ [⟨kind, some c⟩])
    (same : ∀ b ∈ handles (s.frames a).locals, u.frames b = s.frames b) (new : s.next ≤ c)
    (next : c < u.next) (other : c ≠ a) (holds : Holds u.frames ⟨kind, some c⟩ slot) :
    Holding u a (env ++ [slot]) where
  slots := locals ▸ List.rel_append (holds_congr h.slots same) (.cons holds .nil)
  distinct := by
    rw [locals, handles_append]
    apply List.nodup_append.mpr
    refine ⟨h.distinct, List.nodup_singleton c, fun b inside d mem eq => ?_⟩
    cases List.mem_singleton.mp mem
    exact absurd (h.below b inside).1 (Nat.not_lt_of_le (eq ▸ new))
  below b inside := by
    rw [locals, handles_append] at inside
    rcases List.mem_append.mp inside with inside | inside
    · have old := (h.below b inside).1
      exact ⟨by omega, (h.below b inside).2⟩
    · cases List.mem_singleton.mp inside
      exact ⟨next, other⟩

theorem holds_ready {frames frames' : Nat → Frame S V E} {locals : List Local}
    {env : List (Slot S V E)} {i c : Nat} {kind : Kind} {slot : Slot S V E}
    (h : List.Forall₂ (Holds frames) locals env) (distinct : (handles locals).Nodup)
    (there : locals[i]? = some ⟨kind, some c⟩)
    (same : ∀ b ∈ handles locals, b ≠ c → frames' b = frames b)
    (now : Holds frames' ⟨kind, some c⟩ slot) :
    List.Forall₂ (Holds frames') locals (env.set i slot) := by
  induction h generalizing i with
  | nil => cases there
  | @cons l slot' locals env head tail ih =>
    have split : handles (l :: locals) = handles [l] ++ handles locals := handles_append [l] locals
    rw [split, List.nodup_append] at distinct
    rw [split] at same
    cases i with
    | zero =>
      cases there
      refine .cons now (holds_congr tail fun b inside => ?_)
      exact same b (List.mem_append_right _ inside) fun eq =>
        distinct.2.2 c List.mem_cons_self b inside eq.symm
    | succ i =>
      have rest : locals[i]? = some ⟨kind, some c⟩ := there
      have held : c ∈ handles locals := mem_handles.mpr ⟨_, List.mem_of_getElem? rest, rfl⟩
      refine .cons (head.congr fun b own => ?_)
        (ih distinct.2.1 rest fun b inside => same b (List.mem_append_right _ inside))
      have first : b ∈ handles [l] := mem_handles.mpr ⟨l, List.mem_cons_self, own⟩
      exact same b (List.mem_append_left _ first) (distinct.2.2 b first c held)

end Pot.CoroutineModule
