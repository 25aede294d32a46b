import Pot.CoroutineModuleFrames

/-! The machine runs a program as it evaluates by need, by induction on the body. A body that goes
on inside a call of await_suspend leaves that call to be returned from later. -/
namespace Pot.CoroutineModule
open StateTransition (Reaches)
open Relation (ReflTransGen)
open Pot.Task (Thrown Outcome Data)
open Pot.Coroutine (Prog Slot Kind Local Typed handles data handles_append mem_handles
  forall₂_getElem?)

variable {S V E : Type}

theorem destroys (hs : List Nat) {s : State S V E} {next : Kont}
    (at_pc : s.control = .destroy hs next) (distinct : hs.Nodup)
    (there : ∀ c ∈ hs, (s.frames c).alive = true ∧ (s.frames c).locals = []) :
    ∃ t, Reaches step s t ∧ t.control = next.control ∧ t.callers = s.callers ∧ t.gets = s.gets ∧
      t.results = s.results ∧ t.shared = s.shared ∧ t.next = s.next ∧
      (∀ c ∈ hs, t.frames c = (s.frames c).destroy) ∧ ∀ b, b ∉ hs → t.frames b = s.frames b := by
  induction hs generalizing s with
  | nil =>
    have stepped : step s = some (s.goto next.control) := by simp only [step, at_pc]
    exact ⟨_, .single stepped, rfl, rfl, rfl, rfl, rfl, rfl, fun c no => (by cases no), fun b _ => rfl⟩
  | cons c more ih =>
    obtain ⟨alive, empty⟩ := there c List.mem_cons_self
    have apart := List.nodup_cons.mp distinct
    obtain ⟨u, hu⟩ : ∃ u, u = (s.set c (s.frames c).destroy).goto (.destroy more next) := ⟨_, rfl⟩
    have none : handles (s.frames c).locals = [] := by rw [empty]; rfl
    have stepped : step s = some u := by
      simp only [step, at_pc, alive, if_true, none, List.reverse_nil, List.nil_append]
      rw [hu]
      rfl
    have here : u.frames c = (s.frames c).destroy := by
      rw [hu]
      exact set_frame ..
    have still : ∀ b, b ≠ c → u.frames b = s.frames b := fun b other => by
      rw [hu]
      exact set_other _ _ other
    obtain ⟨t, steps, control, callers, gets, results, shared, nexts, gone, kept⟩ :=
      ih (s := u) (by rw [hu]; rfl) apart.2 fun b inside => by
        rw [still b fun same => apart.1 (same ▸ inside)]
        exact there b (List.mem_cons_of_mem _ inside)
    rw [hu] at callers gets results shared nexts
    refine ⟨t, .head stepped steps, control, callers, gets, results, shared, nexts,
      fun b inside => ?_, fun b outside => ?_⟩
    · rcases List.mem_cons.mp inside with rfl | inside
      · rw [kept b apart.1, here]
      · rw [gone b inside, still b fun same => apart.1 (same ▸ inside)]
    · rw [List.mem_cons, not_or] at outside
      rw [kept b outside.2, still b outside.1]

theorem Runs.after {s u : State S V E} {a : Nat} {kids kids' : List Nat} {r : Outcome V E × S}
    (steps : Reaches step s u) (runs : Runs u a kids' r) (onward : Onward s u)
    (own : ∃ body locals, u.frames a = { s.frames a with body := body, locals := locals })
    (kept : ∀ b, b < s.next → b ≠ a → b ∉ kids → u.frames b = s.frames b ∧ b ∉ kids')
    (settled : ∀ b, b ∈ kids ∨ s.next ≤ b ∧ b < u.next →
      b ∈ kids' ∨ b < u.next ∧ b ≠ a ∧ b ∉ kids' ∧ (u.frames b).Settled) : Runs s a kids r := by
  obtain ⟨t, after, ends⟩ := runs
  obtain ⟨body, locals, own⟩ := own
  refine ⟨t, steps.trans after, ends.control, onward.trans ends.onward, ends.shared, ?_, ?_, ?_⟩
  · rw [ends.own, own]
    rfl
  · intro b old other outside
    obtain ⟨same, outside⟩ := kept b old other outside
    rw [ends.kept b (Nat.lt_of_lt_of_le old onward.next) other outside, same]
  · intro b which
    have before : b ∈ kids ∨ s.next ≤ b ∧ b < u.next → (t.frames b).Settled := by
      intro which
      rcases settled b which with inside | ⟨below, other, outside, gone⟩
      · exact ends.settled b (.inl inside)
      · rw [ends.kept b below other outside]
        exact gone
    rcases which with inside | ⟨fresh, below⟩
    · exact before (.inl inside)
    · rcases Nat.lt_or_ge b u.next with old | new
      · exact before (.inr ⟨fresh, old⟩)
      · exact ends.settled b (.inr ⟨new, below⟩)

theorem runs_finish {s : State S V E} {a : Nat} {env : List (Slot S V E)} {result : Outcome V E}
    (at_pc : s.control = .body a) (alive : (s.frames a).alive = true)
    (body : (s.frames a).body = .finish result) (holding : Holding s a env) :
    Runs s a (handles (s.frames a).locals) (result, s.shared) := by
  obtain ⟨u, hu⟩ : ∃ u, u = (s.set a ((s.frames a).store result)).goto
    (.destroy (handles (s.frames a).locals).reverse (.final_suspend a)) := ⟨_, rfl⟩
  have stepped : step s = some u := by
    have run : step s = bodyStep s a (s.frames a).body := by
      simp only [step, at_pc]
      exact if_pos alive
    rw [run, body, hu]
    simp only [bodyStep, Frame.store]
    rw [← body]
  have own : u.frames a = (s.frames a).store result := by
    rw [hu]
    exact set_frame ..
  have still : ∀ b, b ≠ a → u.frames b = s.frames b := fun b other => by
    rw [hu]
    exact set_other _ _ other
  obtain ⟨t, steps, control, callers, gets, results, shared, next, gone, kept⟩ :=
    destroys (handles (s.frames a).locals).reverse (s := u) (by rw [hu]; rfl)
      (List.nodup_reverse.mpr holding.distinct) fun c inside => by
        have held := List.mem_reverse.mp inside
        rw [still c (holding.below c held).2]
        have kid := holds_kid holding.slots held
        exact ⟨kid.1, kid.2.1⟩
  rw [hu] at callers gets results shared next
  refine ⟨t, .head stepped steps, control, ⟨⟨0, callers⟩, gets, results, Nat.le_of_eq next.symm⟩,
    shared, ?_, ?_, ?_⟩
  · rw [kept a fun inside => (holding.below a (List.mem_reverse.mp inside)).2 rfl, own]
  · intro b _ other outside
    rw [kept b fun inside => outside (List.mem_reverse.mp inside), still b other]
  · rintro b (inside | ⟨fresh, below⟩)
    · rw [gone b (List.mem_reverse.mpr inside), still b (holding.below b inside).2]
      exact (holds_kid holding.slots inside).2.2
    · rw [next] at below
      exact absurd fresh (Nat.not_le_of_lt below)

theorem returns (k : Nat) {s : State S V E} {callers : List Caller} (back : s.control = .back)
    (calls : s.callers = List.replicate k .await_suspend ++ callers) :
    Reaches step s { s with callers := callers } := by
  induction k generalizing s with
  | zero =>
    rw [List.replicate_zero, List.nil_append] at calls
    rw [← calls]
    exact .refl
  | succ k ih =>
    rw [List.replicate_succ, List.cons_append] at calls
    have stepped : step s =
        some { s with callers := List.replicate k .await_suspend ++ callers } := by
      simp only [step, back, backStep, calls]
    exact .head stepped (ih back rfl)

/-- The body of frame `c` has run, beginning with `s`, and its final suspend point has passed
control on to `next`. -/
structure Completes (s t : State S V E) (c : Nat) (next : Control) (r : Outcome V E × S) :
    Prop where
  control : t.control = next
  onward : Onward s t
  shared : t.shared = r.2
  own : t.frames c = ((s.frames c).store r.1).complete
  kept : ∀ b, b < s.next → b ≠ c → t.frames b = s.frames b
  settled : ∀ b, s.next ≤ b → b < t.next → (t.frames b).Settled

theorem Correct.completes {p : Prog S V E} (h : Correct p) {s : State S V E} {c : Nat}
    {f : Frame S V E} (frame : s.frames c = f) (control : s.control = .body c) (old : c < s.next)
    (fresh : f.alive = true ∧ f.body = p ∧ f.locals = []) (next : Control)
    (transfer : next = match f.m_continuation with
      | some b => .await_resume b
      | none => .back) :
    ∃ t, Reaches step s t ∧ Completes s t c next (need p [] s.shared) := by
  obtain ⟨alive, body, empty⟩ := fresh
  subst frame
  obtain ⟨t, steps, ends⟩ := h s c control old alive body empty
  have continuation : (t.frames c).m_continuation = (s.frames c).m_continuation := by
    rw [ends.own]
    rfl
  have there : (t.frames c).alive = true := by
    rw [ends.own]
    exact alive
  obtain ⟨u, hu⟩ : ∃ u, u = (t.set c ((s.frames c).store (need p [] s.shared).1).complete).goto
    next := ⟨_, rfl⟩
  have stepped : step t = some u := by
    have final : step t = some (finalStep t c) := by
      simp only [step, ends.control, there, if_true]
    rw [final, hu, transfer, ← ends.own, finalStep, continuation]
    rfl
  have own : u.frames c = ((s.frames c).store (need p [] s.shared).1).complete := by
    rw [hu]
    exact set_frame ..
  have still : ∀ b, b ≠ c → u.frames b = t.frames b := fun b other => by
    rw [hu]
    exact set_other _ _ other
  have onward : Onward s u := by
    have last := ends.onward
    rw [hu]
    exact ⟨last.callers, last.gets, last.results, last.next⟩
  refine ⟨u, steps.tail stepped, by rw [hu]; rfl, onward, by rw [hu]; exact ends.shared, own,
    fun b below other => ?_, fun b fresh below => ?_⟩
  · rw [still b other]
    exact ends.kept b below other List.not_mem_nil
  · rw [still b (Nat.ne_of_gt (Nat.lt_of_lt_of_le old fresh))]
    rw [hu] at below
    exact ends.settled b (.inr ⟨fresh, below⟩)

/-- The body of `a` goes on with `p`, and its locals hold `env`. -/
structure At (s : State S V E) (a : Nat) (p : Prog S V E) (env : List (Slot S V E)) : Prop where
  control : s.control = .body a
  old : a < s.next
  alive : (s.frames a).alive = true
  body : (s.frames a).body = p
  holding : Holding s a env

def Simulated (p : Prog S V E) : Prop :=
  ∀ isVoid env (s : State S V E) a, Scoped isVoid p env.length → At s a p env →
    Runs s a (handles (s.frames a).locals) (need p env s.shared)

theorem At.step {s t : State S V E} {a : Nat} {p : Prog S V E} {env : List (Slot S V E)}
    (h : At s a p env) (stepped : bodyStep s a p = some t) : CoroutineModule.step s = some t := by
  simp only [CoroutineModule.step, h.control, h.alive, if_true, h.body, stepped]

theorem Simulated.correct {p : Prog S V E} (h : Simulated p) {isVoid : Bool}
    (inScope : Scoped isVoid p 0) : Correct p := by
  intro s a control old alive body empty
  have none : handles (s.frames a).locals = [] := by rw [empty]; rfl
  have holding : Holding s a [] := by
    refine ⟨empty ▸ .nil, none ▸ .nil, fun c inside => ?_⟩
    rw [none] at inside
    cases inside
  have runs := h isVoid [] s a inScope ⟨control, old, alive, body, holding⟩
  rwa [none] at runs

theorem simulated_compute {effect : S → S} {rest : S → Prog S V E}
    (ih : ∀ s, Simulated (rest s)) : Simulated (.compute effect rest) := by
  intro isVoid env s a inScope h
  obtain ⟨u, hu⟩ : ∃ u, u = { s.set a { s.frames a with body := rest s.shared } with
    shared := effect s.shared } := ⟨_, rfl⟩
  have own : u.frames a = { s.frames a with body := rest s.shared } := by
    rw [hu]
    exact set_frame ..
  have still : ∀ b, b ≠ a → u.frames b = s.frames b := fun b other => by
    rw [hu]
    exact set_other _ _ other
  have next : u.next = s.next := by rw [hu]; rfl
  have locals : (u.frames a).locals = (s.frames a).locals := by rw [own]
  have holding := h.holding.congr locals (fun c inside => still c (h.holding.below c inside).2)
    (Nat.le_of_eq next.symm)
  have at_u : At u a (rest s.shared) env :=
    ⟨by rw [hu]; exact h.control, next ▸ h.old, by rw [own]; exact h.alive, by rw [own], holding⟩
  have runs := ih s.shared isVoid env u a (inScope s.shared) at_u
  have shared : u.shared = effect s.shared := by rw [hu]
  rw [locals, shared] at runs
  have onward : Onward s u := by
    rw [hu]
    exact ⟨⟨0, rfl⟩, rfl, rfl, Nat.le_refl _⟩
  refine Runs.after (.single (h.step (hu ▸ rfl))) runs onward ⟨_, _, own⟩
    (fun b _ other outside => ⟨still b other, outside⟩) ?_
  rintro b (inside | ⟨fresh, below⟩)
  · exact .inl inside
  · exact absurd fresh (Nat.not_le_of_lt (next ▸ below))

/-- From a body that has one more local on: the frame made first is its child's. -/
theorem runs_create {s u : State S V E} {a : Nat} {kind : Kind} {child rest : Prog S V E}
    {env : List (Slot S V E)} {slot : Slot S V E} {isVoid : Bool} (ih : Simulated rest)
    (inScope : Scoped isVoid rest (env.length + 1))
    (h : At s a (.create kind child rest) env) (steps : Reaches step s u)
    (control : u.control = .body a) (onward : Onward s u) (next : s.next < u.next)
    (own : u.frames a = { s.frames a with
      body := rest, locals := (s.frames a).locals ++ [⟨kind, some s.next⟩] })
    (kept : ∀ b, b < s.next → b ≠ a → u.frames b = s.frames b)
    (holds : Holds u.frames ⟨kind, some s.next⟩ slot)
    (settled : ∀ b, s.next < b → b < u.next → (u.frames b).Settled) :
    Runs s a (handles (s.frames a).locals) (need rest (env ++ [slot]) u.shared) := by
  have other : s.next ≠ a := Nat.ne_of_gt h.old
  have locals : (u.frames a).locals = (s.frames a).locals ++ [⟨kind, some s.next⟩] := by rw [own]
  have holding : Holding u a (env ++ [slot]) := h.holding.push locals
    (fun c inside => kept c (h.holding.below c inside).1 (h.holding.below c inside).2)
    (Nat.le_refl _) next other holds
  have at_u : At u a rest (env ++ [slot]) :=
    ⟨control, h.old.trans next, by rw [own]; exact h.alive, by rw [own], holding⟩
  have runs := ih isVoid _ u a (by rw [List.length_append]; exact inScope) at_u
  have mem : ∀ b, b ∈ handles (u.frames a).locals ↔
      b ∈ handles (s.frames a).locals ∨ b = s.next := fun b => by
    rw [locals, handles_append, List.mem_append]
    exact or_congr_right List.mem_singleton
  refine Runs.after steps runs onward ⟨_, _, own⟩ ?_ ?_
  · intro b old apart outside
    refine ⟨kept b old apart, fun inside => ?_⟩
    rcases (mem b).mp inside with inside | rfl
    · exact outside inside
    · exact Nat.lt_irrefl _ old
  · rintro b (inside | ⟨fresh, below⟩)
    · exact .inl ((mem b).mpr (.inl inside))
    · rcases Nat.eq_or_lt_of_le fresh with same | later
      · exact .inl ((mem b).mpr (.inr same.symm))
      · have apart : b ≠ a := Nat.ne_of_gt (h.old.trans later)
        refine .inr ⟨below, apart, fun inside => ?_, settled b later below⟩
        rcases (mem b).mp inside with inside | same
        · exact Nat.lt_asymm later (h.holding.below b inside).1
        · exact Nat.ne_of_gt later same

theorem simulated_lazy {kind : Kind} {child rest : Prog S V E} (isLazy : kind.isLazy = true)
    (ihc : Simulated child) (ih : Simulated rest) : Simulated (.create kind child rest) := by
  intro isVoid env s a inScope h
  obtain ⟨u, hu⟩ : ∃ u, u = { (s.set a { s.frames a with
    body := rest, locals := (s.frames a).locals ++ [⟨kind, some s.next⟩] }).set s.next
      (.create kind child) with next := s.next + 1 } := ⟨_, rfl⟩
  have stepped : bodyStep s a (.create kind child rest) = some u := by
    simp only [bodyStep, isLazy, if_true, hu]
  have other : s.next ≠ a := Nat.ne_of_gt h.old
  have own : u.frames a = { s.frames a with
      body := rest, locals := (s.frames a).locals ++ [⟨kind, some s.next⟩] } := by
    rw [hu]
    exact (set_other _ _ other.symm).trans (set_frame ..)
  have new : u.frames s.next = .create kind child := by
    rw [hu]
    exact set_frame ..
  have still : ∀ b, b < s.next → b ≠ a → u.frames b = s.frames b := fun b old other => by
    rw [hu]
    exact (set_other _ _ (Nat.ne_of_lt old)).trans (set_other _ _ other)
  have next : u.next = s.next + 1 := by rw [hu]
  have holds : Holds u.frames ⟨kind, some s.next⟩ (.deferred (need child [])) :=
    .deferred isLazy new (ihc.correct inScope.1) fun s => need_typed child inScope.1 [] s
  have shared : u.shared = s.shared := by rw [hu]; rfl
  have result : need (.create kind child rest) env s.shared =
      need rest (env ++ [.deferred (need child [])]) u.shared := by
    rw [shared]
    simp only [need, isLazy, if_true]
  have onward : Onward s u := by
    rw [hu]
    exact ⟨⟨0, rfl⟩, rfl, rfl, Nat.le_succ _⟩
  rw [result]
  exact runs_create ih inScope.2 h (.single (h.step stepped)) (by rw [hu]; exact h.control) onward
    (by omega) own still holds fun b later below => absurd later (by omega)

theorem simulated_task {kind : Kind} {child rest : Prog S V E} (eager : kind.isLazy = false)
    (ihc : Simulated child) (ih : Simulated rest) : Simulated (.create kind child rest) := by
  intro isVoid env s a inScope h
  have other : s.next ≠ a := Nat.ne_of_gt h.old
  -- the call of the child
  obtain ⟨s₁, h₁⟩ : ∃ u, u = { (s.set a { s.frames a with body := rest }).set s.next
    (Frame.create kind child).begin with
      next := s.next + 1, callers := .body a s.next :: s.callers, control := .body s.next } :=
    ⟨_, rfl⟩
  have called : step s = some s₁ := h.step (by simp only [bodyStep, eager, Bool.false_eq_true,
    if_false, h₁])
  have next₁ : s₁.next = s.next + 1 := by rw [h₁]
  have new₁ : s₁.frames s.next = (Frame.create kind child).begin := by
    rw [h₁]
    exact set_frame ..
  have own₁ : s₁.frames a = { s.frames a with body := rest } := by
    rw [h₁]
    exact (set_other _ _ other.symm).trans (set_frame ..)
  have still₁ : ∀ b, b < s.next → b ≠ a → s₁.frames b = s.frames b := fun b old other => by
    rw [h₁]
    exact (set_other _ _ (Nat.ne_of_lt old)).trans (set_other _ _ other)
  -- its final suspend point, and back in the body
  obtain ⟨t, runs, ends⟩ := (ihc.correct inScope.1).completes new₁ (by rw [h₁]) (by omega)
    ⟨rfl, rfl, rfl⟩ .back rfl
  have new : t.frames s.next =
      ((Frame.create kind child).begin.store (need child [] s₁.shared).1).complete := by
    rw [ends.own, new₁]
  have own₂ : t.frames a = { s.frames a with body := rest } := by
    rw [ends.kept a (by have := h.old; omega) other.symm, own₁]
  obtain ⟨k, callers⟩ := ends.onward.callers
  have returned := returns k ends.control callers
  obtain ⟨u, hu⟩ : ∃ u, u = { t.set a { t.frames a with
    locals := (t.frames a).locals ++ [⟨(t.frames s.next).kind, some s.next⟩] } with
      callers := s.callers, control := .body a } := ⟨_, rfl⟩
  have back : step { t with callers := s₁.callers } = some u := by
    have alive : (t.frames a).alive = true := by
      rw [own₂]
      exact h.alive
    have calls : s₁.callers = .body a s.next :: s.callers := by rw [h₁]
    simp only [step, ends.control, backStep, calls]
    exact (if_pos alive).trans (by rw [hu]; rfl)
  have own : u.frames a = { s.frames a with
      body := rest, locals := (s.frames a).locals ++ [⟨kind, some s.next⟩] } := by
    rw [hu]
    refine (set_frame ..).trans ?_
    rw [new, own₂]
    rfl
  have still : ∀ b, b ≠ a → u.frames b = t.frames b := fun b other => by
    rw [hu]
    exact set_other _ _ other
  have old : ∀ b, b < s.next → b ≠ a → u.frames b = s.frames b := fun b old other => by
    rw [still b other, ends.kept b (by omega) (Nat.ne_of_lt old), still₁ b old other]
  have next : u.next = t.next := by rw [hu]; rfl
  have grown := ends.onward.next
  have finished : (u.frames s.next).Finished kind (need child [] s₁.shared).1 := by
    rw [still s.next other, new]
    exact finished_complete rfl ⟨rfl, rfl⟩ _
  have holds : Holds u.frames ⟨kind, some s.next⟩ (.ready (need child [] s₁.shared).1) :=
    .ready finished (fun isLazy => absurd (eager.symm.trans isLazy) Bool.false_ne_true)
      (need_typed child inScope.1 [] _)
  have shared : u.shared = (need child [] s₁.shared).2 := by
    rw [hu]
    exact ends.shared
  have result : need (.create kind child rest) env s.shared =
      need rest (env ++ [.ready (need child [] s₁.shared).1]) u.shared := by
    rw [shared, h₁]
    simp only [need, eager, Bool.false_eq_true, if_false]
    rfl
  have onward : Onward s u := by
    refine ⟨⟨0, by rw [hu]; rfl⟩, ?_, ?_, by omega⟩
    · rw [hu]
      exact ends.onward.gets.trans (by rw [h₁]; rfl)
    · rw [hu]
      exact ends.onward.results.trans (by rw [h₁]; rfl)
  rw [result]
  have first : Reaches step s s₁ := .single called
  refine runs_create ih inScope.2 h (((first.trans runs).trans returned).tail back) (by rw [hu])
    onward (by omega) own old holds fun b later below => ?_
  rw [still b (Nat.ne_of_gt (h.old.trans later))]
  exact ends.settled b (by omega) (by omega)

theorem resumes {s : State S V E} {a i c : Nat} {rest : Outcome V E → Prog S V E} {kind : Kind}
    {result : Outcome V E} (control : s.control = .await_resume a)
    (alive : (s.frames a).alive = true) (body : (s.frames a).body = .await i rest)
    (there : (s.frames a).locals[i]? = some ⟨kind, some c⟩) (other : c ≠ a)
    (finished : (s.frames c).Finished kind result) (typed : Typed kind.isVoid result) :
    ∃ u, step s = some u ∧ u.control = .body a ∧ Onward s u ∧ u.shared = s.shared ∧
      u.next = s.next ∧ u.frames a = { s.frames a with body := rest result } ∧
      u.frames c = (s.frames c).take ∧ ∀ b, b ≠ a → b ≠ c → u.frames b = s.frames b := by
  obtain ⟨u, hu⟩ : ∃ u, u = ((s.set c (s.frames c).take).set a
    { s.frames a with body := rest result }).goto (.body a) := ⟨_, rfl⟩
  have stepped : step s = some u := by
    have resumed : step s = resumeStep s a (.await i rest) := by
      simp only [step, control]
      rw [← body]
      exact if_pos alive
    rw [resumed]
    simp only [resumeStep, there, finished.get typed]
    rw [if_pos finished.alive, if_pos finished.m_ready, hu]
    rfl
  refine ⟨u, stepped, by rw [hu]; rfl, ?_, by rw [hu]; rfl, by rw [hu]; rfl, ?_, ?_,
    fun b other apart => ?_⟩
  · rw [hu]
    exact ⟨⟨0, rfl⟩, rfl, rfl, Nat.le_refl _⟩
  · rw [hu]
    exact set_frame ..
  · rw [hu]
    exact (set_other _ _ other).trans (set_frame ..)
  · rw [hu]
    exact (set_other _ _ other).trans (set_other _ _ apart)

theorem runs_resume {s t : State S V E} {a i c : Nat} {rest : Outcome V E → Prog S V E}
    {kind : Kind} {env : List (Slot S V E)} {isVoid : Bool} {result : Outcome V E}
    (ih : Simulated (rest result)) (inScope : Scoped isVoid (rest result) env.length)
    (h : At s a (.await i rest) env) (there : (s.frames a).locals[i]? = some ⟨kind, some c⟩)
    (steps : Reaches step s t) (control : t.control = .await_resume a) (onward : Onward s t)
    (finished : (t.frames c).Finished kind result) (typed : Typed kind.isVoid result)
    (kept : ∀ b, b < s.next → b ≠ c → t.frames b = s.frames b)
    (settled : ∀ b, s.next ≤ b → b < t.next → (t.frames b).Settled) :
    Runs s a (handles (s.frames a).locals)
      (need (rest result) (env.set i (.ready result)) t.shared) := by
  have inside : c ∈ handles (s.frames a).locals :=
    mem_handles.mpr ⟨_, List.mem_of_getElem? there, rfl⟩
  obtain ⟨below, other⟩ := h.holding.below c inside
  have old := h.old
  have own : t.frames a = s.frames a := kept a old other.symm
  obtain ⟨u, resumed, at_body, onward', shared, next, own', taken, still⟩ :=
    resumes control (by rw [own]; exact h.alive) (by rw [own]; exact h.body)
      (by rw [own]; exact there) other finished typed
  rw [own] at own'
  have locals : (u.frames a).locals = (s.frames a).locals := by rw [own']
  have grown := onward.next
  have same : ∀ b, b < s.next → b ≠ a → b ≠ c → u.frames b = s.frames b :=
    fun b early other apart => by rw [still b other apart, kept b early apart]
  have holds : Holds u.frames ⟨kind, some c⟩ (.ready result) := by
    refine .ready ?_ (fun _ => ?_) typed
    · rw [taken]
      exact finished.take
    · rw [taken]
      exact Nat.succ_ne_zero _
  have holding : Holding u a (env.set i (.ready result)) := by
    refine ⟨?_, locals ▸ h.holding.distinct, fun b held => ?_⟩
    · rw [locals]
      exact holds_ready h.holding.slots h.holding.distinct there (fun b held apart =>
        same b (h.holding.below b held).1 (h.holding.below b held).2 apart) holds
    · rw [locals] at held
      exact ⟨by have := (h.holding.below b held).1; omega, (h.holding.below b held).2⟩
  have at_u : At u a (rest result) (env.set i (.ready result)) :=
    ⟨at_body, by omega, by rw [own']; exact h.alive, by rw [own'], holding⟩
  have runs := ih isVoid _ u a (by rw [List.length_set]; exact inScope) at_u
  rw [locals, shared] at runs
  refine Runs.after (steps.tail resumed) runs (onward.trans onward') ⟨_, _, own'⟩ ?_ ?_
  · intro b early apart absent
    exact ⟨same b early apart fun eq => absent (eq ▸ inside), absent⟩
  · rintro b (held | ⟨fresh, young⟩)
    · exact .inl held
    · have apart : b ≠ a := by omega
      refine .inr ⟨young, apart, fun held => ?_, ?_⟩
      · have := (h.holding.below b held).1
        omega
      · rw [still b apart (by omega)]
        exact settled b fresh (by omega)

/-- A lazy_task runs where it is awaited first and passes control back into the body, which is
still in await_suspend; whatever has run is ready. -/
theorem simulated_await {i : Nat} {rest : Outcome V E → Prog S V E}
    (ih : ∀ o, Simulated (rest o)) : Simulated (.await i rest) := by
  intro isVoid env s a inScope h
  obtain ⟨short, inScope⟩ := inScope
  have in_env : env[i]? = some env[i] := List.getElem?_eq_getElem short
  obtain ⟨l, there, holds⟩ := forall₂_getElem? h.holding.slots in_env
  have run : ∀ {kind : Kind} {c : Nat} {u : State S V E},
      (s.frames a).locals[i]? = some ⟨kind, some c⟩ → await s a c = some u → step s = some u := by
    intro kind c u there awaits
    exact h.step (by simp only [bodyStep, there, awaits])
  generalize env[i] = slot at in_env holds
  cases holds with
  | @ready kind c result finished had typed =>
    have stepped : step s = some (s.goto (.await_resume a)) := run there (by
      rw [await, if_pos finished.alive, if_pos finished.m_ready])
    have result_eq : need (.await i rest) env s.shared =
        need (rest result) (env.set i (.ready result)) s.shared := by
      have same : env.set i (.ready result) = env := by
        obtain ⟨inside, eq⟩ := List.getElem?_eq_some_iff.mp in_env
        rw [← eq, List.set_getElem_self]
      rw [same]
      simp only [need, in_env]
    rw [result_eq]
    exact runs_resume (t := s.goto (.await_resume a)) (ih result) (inScope result) h there
      (.single stepped) rfl ⟨⟨0, rfl⟩, rfl, rfl, Nat.le_refl _⟩ finished typed (fun _ _ _ => rfl)
      fun b fresh below => absurd fresh (Nat.not_le_of_lt below)
  | @deferred kind c q isLazy frame correct typed =>
    have inside : c ∈ handles (s.frames a).locals :=
      mem_handles.mpr ⟨_, List.mem_of_getElem? there, rfl⟩
    obtain ⟨below, other⟩ := h.holding.below c inside
    obtain ⟨f, hf⟩ : ∃ f, f = { (Frame.create kind q : Frame S V E).begin with
      m_continuation := some a } := ⟨_, rfl⟩
    obtain ⟨s₁, h₁⟩ : ∃ u, u = { s.set c f with
      callers := .await_suspend :: s.callers, control := .body c } := ⟨_, rfl⟩
    have stepped : step s = some s₁ := run there (by
      simp only [await, frame, Frame.create, if_true, Bool.false_eq_true, if_false, resume, set_frame]
      rw [h₁, hf]
      simp only [State.set, Function.update_idem]
      rfl)
    have child : s₁.frames c = f := by
      rw [h₁]
      exact set_frame ..
    have still : ∀ b, b ≠ c → s₁.frames b = s.frames b := fun b apart => by
      rw [h₁]
      exact set_other _ _ apart
    have next : s₁.next = s.next := by rw [h₁]; rfl
    have shared : s₁.shared = s.shared := by rw [h₁]; rfl
    have nested : Onward s s₁ := by
      rw [h₁]
      exact ⟨⟨1, rfl⟩, rfl, rfl, Nat.le_refl _⟩
    obtain ⟨t, runs, ends⟩ := correct.completes child (by rw [h₁]) (next ▸ below)
      (by rw [hf]; exact ⟨rfl, rfl, rfl⟩) (.await_resume a) (by rw [hf])
    rw [shared] at ends
    have result_eq : need (.await i rest) env s.shared =
        need (rest (need q [] s.shared).1) (env.set i (.ready (need q [] s.shared).1)) t.shared := by
      rw [ends.shared]
      simp only [need, in_env]
    have finished : (t.frames c).Finished kind (need q [] s.shared).1 := by
      rw [ends.own, child, hf]
      exact finished_complete rfl ⟨rfl, rfl⟩ _
    rw [result_eq]
    refine runs_resume (ih _) (inScope _) h there (.head stepped runs) ends.control
      (nested.trans ends.onward) finished (typed s.shared) (fun b early apart => ?_)
      fun b fresh young => ends.settled b (by omega) young
    rw [ends.kept b (by omega) apart, still b apart]

theorem simulated (p : Prog S V E) : Simulated p := by
  induction p with
  | finish result =>
    intro isVoid env s a _ h
    exact runs_finish h.control h.alive h.body h.holding
  | compute effect rest ih => exact simulated_compute ih
  | create kind child rest ihc ih =>
    cases isLazy : kind.isLazy with
    | true => exact simulated_lazy isLazy ihc ih
    | false => exact simulated_task isLazy ihc ih
  | await i rest ih => exact simulated_await ih

end Pot.CoroutineModule
