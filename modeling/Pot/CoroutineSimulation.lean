import Pot.CoroutineFrames

/-! The machine of frames runs a program as it evaluates, by induction on the body: at its end a
body has used up the frames of its children, and no others but its own are touched. -/
namespace Pot.Coroutine
open Pot.Task (Thrown Outcome Data)

variable {S V E : Type}

theorem destroys (hs : List Nat) {s : State S V E} {next : Kont V E}
    (at_pc : s.control = .destroy hs next) (distinct : hs.Nodup)
    (there : ∀ c ∈ hs, (s.frames c).alive = true ∧ (s.frames c).locals = []) :
    ∃ t, Steps s t ∧ t.control = next.control ∧ t.callers = s.callers ∧ t.shared = s.shared ∧
      t.next = s.next ∧ (∀ c ∈ hs, t.frames c = (s.frames c).destroy) ∧
      ∀ b, b ∉ hs → t.frames b = s.frames b := by
  induction hs generalizing s with
  | nil =>
    have stepped : step s = some (s.goto next.control) := by simp only [step, at_pc]
    exact ⟨_, .single stepped, rfl, rfl, rfl, rfl, fun c no => (by cases no), fun b _ => rfl⟩
  | cons c more ih =>
    obtain ⟨alive, empty⟩ := there c List.mem_cons_self
    have apart := List.nodup_cons.mp distinct
    have stepped : step s = some ((s.set c (s.frames c).destroy).goto (.destroy more next)) := by
      have none : handles (s.frames c).locals = [] := by rw [empty]; rfl
      simp only [step, at_pc, alive, if_true, none, List.nil_append]
      rfl
    have still : ∀ b, b ≠ c → ((s.set c (s.frames c).destroy).goto (.destroy more next)).frames b =
        s.frames b := fun b other => set_other _ _ other
    obtain ⟨t, steps, control, callers, shared, nexts, gone, kept⟩ :=
      ih (s := (s.set c (s.frames c).destroy).goto (.destroy more next)) rfl apart.2
        fun b inside => by
          rw [still b (fun same => apart.1 (same ▸ inside))]
          exact there b (List.mem_cons_of_mem _ inside)
    refine ⟨t, .head stepped steps, control, callers, shared, nexts, fun b inside => ?_,
      fun b outside => ?_⟩
    · rcases List.mem_cons.mp inside with rfl | inside
      · rw [kept b apart.1]
        exact set_frame ..
      · rw [gone b inside, still b (fun same => apart.1 (same ▸ inside))]
    · rw [List.mem_cons, not_or] at outside
      rw [kept b outside.2, still b outside.1]

theorem Runs.after {s u : State S V E} {a : Nat} {kids kids' : List Nat} {r : Outcome V E × S}
    (steps : Steps s u) (runs : Runs u a kids' r) (callers : u.callers = s.callers)
    (next : s.next ≤ u.next)
    (own : ∃ body locals, u.frames a = { s.frames a with body := body, locals := locals })
    (kept : ∀ b, b < s.next → b ≠ a → b ∉ kids → u.frames b = s.frames b ∧ b ∉ kids')
    (settled : ∀ b, b ∈ kids ∨ s.next ≤ b ∧ b < u.next →
      b ∈ kids' ∨ b < u.next ∧ b ≠ a ∧ b ∉ kids' ∧ (u.frames b).Settled) : Runs s a kids r := by
  obtain ⟨t, after, ends⟩ := runs
  obtain ⟨body, locals, own⟩ := own
  refine ⟨t, steps.trans after, ends.control, ends.callers.trans callers, ends.shared,
    next.trans ends.next, ?_, ?_, ?_⟩
  · rw [ends.own, own]
    rfl
  · intro b old other outside
    obtain ⟨same, outside⟩ := kept b old other outside
    rw [ends.kept b (Nat.lt_of_lt_of_le old next) other outside, same]
  · intro b which
    have before : b ∈ kids ∨ s.next ≤ b ∧ b < u.next → (t.frames b).Settled := by
      intro which
      rcases settled b which with inside | ⟨below, other, outside, gone⟩
      · exact ends.settled b (.inl inside)
      · rw [ends.kept b below other outside]
        exact gone
    rcases which with inside | ⟨fresh, below⟩
    · exact before (.inl inside)
    · rcases Nat.lt_or_ge b u.next with old | new
      · exact before (.inr ⟨fresh, old⟩)
      · exact ends.settled b (.inr ⟨new, below⟩)

theorem runs_finish {s : State S V E} {a : Nat} {env : List (Slot S V E)} {result : Outcome V E}
    (at_pc : s.control = .body a) (alive : (s.frames a).alive = true)
    (body : (s.frames a).body = .finish result) (holding : Holding s a env) :
    Runs s a (handles (s.frames a).locals) (result, s.shared) := by
  have stepped : step s = some ((s.set a { s.frames a with m_data := data result, locals := [] }).goto
      (.destroy (handles (s.frames a).locals) (.final_suspend a))) := by
    simp only [step, at_pc, alive, if_true, body, bodyStep]
  have still : ∀ b, b ≠ a → ((s.set a { s.frames a with m_data := data result, locals := [] }).goto
      (.destroy (handles (s.frames a).locals) (.final_suspend a))).frames b = s.frames b :=
    fun b other => set_other _ _ other
  obtain ⟨t, steps, control, callers, shared, next, gone, kept⟩ :=
    destroys _ (s := (s.set a { s.frames a with m_data := data result, locals := [] }).goto
      (.destroy (handles (s.frames a).locals) (.final_suspend a))) rfl holding.distinct
      fun c inside => by
        rw [still c (holding.below c inside).2]
        have kid := holds_kid holding.slots inside
        exact ⟨kid.1, kid.2.1⟩
  refine ⟨t, .head stepped steps, control, callers, shared, Nat.le_of_eq next.symm, ?_, ?_, ?_⟩
  · rw [kept a fun inside => (holding.below a inside).2 rfl]
    refine (set_frame ..).trans ?_
    rw [Frame.store, ← body]
  · intro b _ other outside
    rw [kept b outside, still b other]
  · rintro b (inside | ⟨fresh, below⟩)
    · rw [gone b inside, still b (holding.below b inside).2]
      exact (holds_kid holding.slots inside).2.2
    · rw [next] at below
      exact absurd fresh (Nat.not_le_of_lt below)

theorem Holding.congr {s u : State S V E} {a : Nat} {env : List (Slot S V E)}
    (h : Holding s a env) (locals : (u.frames a).locals = (s.frames a).locals)
    (same : ∀ c ∈ handles (s.frames a).locals, u.frames c = s.frames c)
    (next : s.next ≤ u.next) : Holding u a env where
  slots := by
    rw [locals]
    exact holds_congr h.slots same
  distinct := by
    rw [locals]
    exact h.distinct
  below c inside := by
    rw [locals] at inside
    exact ⟨Nat.lt_of_lt_of_le (h.below c inside).1 next, (h.below c inside).2⟩

theorem Holding.push {s u : State S V E} {a c : Nat} {kind : Kind} {env : List (Slot S V E)}
    {slot : Slot S V E} (h : Holding s a env)
    (locals : (u.frames a).locals = (s.frames a).locals ++ [⟨kind, some c⟩])
    (same : ∀ b ∈ handles (s.frames a).locals, u.frames b = s.frames b) (new : s.next ≤ c)
    (next : c < u.next) (other : c ≠ a) (holds : Holds u.frames ⟨kind, some c⟩ slot) :
    Holding u a (env ++ [slot]) where
  slots := by
    rw [locals]
    exact List.rel_append (holds_congr h.slots same) (.cons holds .nil)
  distinct := by
    rw [locals, handles_append]
    refine List.nodup_append.mpr ⟨h.distinct, List.nodup_singleton c, fun b inside d mem eq => ?_⟩
    cases List.mem_singleton.mp mem
    exact absurd (h.below b inside).1 (Nat.not_lt_of_le (eq ▸ new))
  below b inside := by
    rw [locals, handles_append] at inside
    rcases List.mem_append.mp inside with inside | inside
    · have old := (h.below b inside).1
      exact ⟨by omega, (h.below b inside).2⟩
    · cases List.mem_singleton.mp inside
      exact ⟨next, other⟩

theorem Holding.pull {s u : State S V E} {a c i : Nat} {kind : Kind} {env : List (Slot S V E)}
    (h : Holding s a env) (there : (s.frames a).locals[i]? = some ⟨kind, some c⟩)
    (locals : (u.frames a).locals = (s.frames a).locals.set i ⟨kind, none⟩)
    (same : ∀ b ∈ handles (s.frames a).locals, b ≠ c → u.frames b = s.frames b)
    (next : s.next ≤ u.next) : Holding u a (env.set i .awaited) ∧ c ∉ handles (u.frames a).locals ∧
      ∀ b, b ∈ handles (s.frames a).locals ↔ b = c ∨ b ∈ handles (u.frames a).locals := by
  have moved := handles_set there
  have distinct := moved.nodup_iff.mp h.distinct
  have apart := List.nodup_cons.mp distinct
  have members : ∀ b, b ∈ handles (s.frames a).locals ↔
      b = c ∨ b ∈ handles ((s.frames a).locals.set i ⟨kind, none⟩) :=
    fun b => moved.mem_iff.trans List.mem_cons
  rw [← locals] at apart members
  refine ⟨⟨?_, apart.2, fun b inside => ?_⟩, apart.1, members⟩
  · rw [locals]
    have now : Holds s.frames ⟨kind, none⟩ .awaited := .awaited
    have slots := forall₂_set h.slots i now
    refine holds_congr slots fun b inside => ?_
    rw [← locals] at inside
    exact same b ((members b).mpr (.inr inside)) fun eq => apart.1 (eq ▸ inside)
  · have old := h.below b ((members b).mpr (.inr inside))
    exact ⟨Nat.lt_of_lt_of_le old.1 next, old.2⟩

theorem Ends.finals {s t : State S V E} {c : Nat} {kids : List Nat} {r : Outcome V E × S}
    (ends : Ends s t c kids r) (alive : (s.frames c).alive = true) (next : Control V E)
    (transfer : (s.frames c).m_awaiter = .null ∧ next = .back ∨
      ∃ b, (s.frames c).m_awaiter = .frame b ∧ next = .await_resume b) :
    step t = some ((t.set c ((s.frames c).store r.1).complete).goto next) := by
  have own : (t.frames c).alive = true := by
    rw [ends.own]
    exact alive
  have awaiter : (t.frames c).m_awaiter = (s.frames c).m_awaiter := by
    rw [ends.own]
    rfl
  have final : step t = finalStep t c := by
    simp only [step, ends.control]
    exact if_pos own
  rw [final, ← ends.own]
  rcases transfer with ⟨null, rfl⟩ | ⟨b, awaits, rfl⟩
  · simp only [finalStep, awaiter, null]
    rfl
  · simp only [finalStep, awaiter, awaits]
    rfl

/-- The body of frame `c` has run, beginning with `s`, and its final suspend point has passed
control on to `next`. -/
structure Completes (s t : State S V E) (c : Nat) (next : Control V E) (r : Outcome V E × S) :
    Prop where
  control : t.control = next
  callers : t.callers = s.callers
  shared : t.shared = r.2
  next : s.next ≤ t.next
  own : t.frames c = ((s.frames c).store r.1).complete
  kept : ∀ b, b < s.next → b ≠ c → t.frames b = s.frames b
  settled : ∀ b, s.next ≤ b → b < t.next → (t.frames b).Settled

theorem Prog.Correct.completes {p : Prog S V E} (h : p.Correct) {s : State S V E} {c : Nat}
    {f : Frame S V E} (frame : s.frames c = f) (control : s.control = .body c) (old : c < s.next)
    (fresh : f.alive = true ∧ f.body = p ∧ f.locals = []) (next : Control V E)
    (transfer : f.m_awaiter = .null ∧ next = .back ∨
      ∃ b, f.m_awaiter = .frame b ∧ next = .await_resume b) :
    ∃ t, Steps s t ∧ Completes s t c next (p.eval [] s.shared) := by
  obtain ⟨alive, body, empty⟩ := fresh
  subst frame
  obtain ⟨t, steps, ends⟩ := h s c control old alive body empty
  refine ⟨_, steps.tail (ends.finals alive next transfer), ⟨rfl, ends.callers, ends.shared, ends.next,
    set_frame .., fun b below other => ?_, fun b fresh below => ?_⟩⟩
  · exact (set_other _ _ other).trans (ends.kept b below other List.not_mem_nil)
  · have other : b ≠ c := Nat.ne_of_gt (Nat.lt_of_lt_of_le old fresh)
    have same := set_other t ((s.frames c).store (p.eval [] s.shared).1).complete other
    exact same.symm ▸ ends.settled b (.inr ⟨fresh, below⟩)

/-- The body of `a` goes on with `p`, and its locals hold `env`. -/
structure At (s : State S V E) (a : Nat) (p : Prog S V E) (env : List (Slot S V E)) : Prop where
  control : s.control = .body a
  old : a < s.next
  alive : (s.frames a).alive = true
  body : (s.frames a).body = p
  holding : Holding s a env

def Prog.Simulated (p : Prog S V E) : Prop :=
  ∀ isVoid env (s : State S V E) a, p.WellFormed isVoid (env.map Slot.isThere) → At s a p env →
    Runs s a (handles (s.frames a).locals) (p.eval env s.shared)

theorem At.step {s t : State S V E} {a : Nat} {p : Prog S V E} {env : List (Slot S V E)}
    (h : At s a p env) (stepped : bodyStep s a p = some t) : Coroutine.step s = some t := by
  simp only [Coroutine.step, h.control, h.alive, if_true, h.body, stepped]

theorem Prog.Simulated.correct {p : Prog S V E} (h : p.Simulated) {isVoid : Bool}
    (wellFormed : p.WellFormed isVoid []) : p.Correct := by
  intro s a control old alive body empty
  have none : handles (s.frames a).locals = [] := by rw [empty]; rfl
  have holding : Holding s a [] := by
    refine ⟨?_, ?_, fun c inside => ?_⟩
    · rw [empty]
      exact .nil
    · rw [none]
      exact .nil
    · rw [none] at inside
      cases inside
  have runs := h isVoid [] s a wellFormed ⟨control, old, alive, body, holding⟩
  rwa [none] at runs

theorem simulated_compute {effect : S → S} {rest : S → Prog S V E}
    (ih : ∀ s, (rest s).Simulated) : (Prog.compute effect rest).Simulated := by
  intro isVoid env s a wellFormed h
  obtain ⟨u, hu⟩ : ∃ u, u = { s.set a { s.frames a with body := rest s.shared } with
    shared := effect s.shared } := ⟨_, rfl⟩
  have own : u.frames a = { s.frames a with body := rest s.shared } := by
    rw [hu]
    exact set_frame ..
  have still : ∀ b, b ≠ a → u.frames b = s.frames b := fun b other => by
    rw [hu]
    exact set_other _ _ other
  have next : u.next = s.next := by rw [hu]; rfl
  have locals : (u.frames a).locals = (s.frames a).locals := by rw [own]
  have at_u : At u a (rest s.shared) env := by
    refine ⟨by rw [hu]; exact h.control, next ▸ h.old, by rw [own]; exact h.alive, by rw [own], ?_⟩
    exact h.holding.congr locals (fun c inside => still c (h.holding.below c inside).2)
      (Nat.le_of_eq next.symm)
  have runs := ih s.shared isVoid env u a (wellFormed s.shared) at_u
  have shared : u.shared = effect s.shared := by rw [hu]
  rw [locals, shared] at runs
  refine Runs.after (.single (h.step (hu ▸ rfl))) runs (by rw [hu]; rfl) (Nat.le_of_eq next.symm)
    ⟨_, _, own⟩ (fun b _ other outside => ⟨still b other, outside⟩) ?_
  rintro b (inside | ⟨fresh, below⟩)
  · exact .inl inside
  · exact absurd fresh (Nat.not_le_of_lt (next ▸ below))

/-- From a body that has one more local on: the frame made first is its child's. -/
theorem runs_create {s u : State S V E} {a : Nat} {kind : Kind} {child rest : Prog S V E}
    {env : List (Slot S V E)} {slot : Slot S V E} {isVoid : Bool} (ih : rest.Simulated)
    (wellFormed : rest.WellFormed isVoid (env.map Slot.isThere ++ [true]))
    (h : At s a (.create kind child rest) env) (steps : Steps s u) (control : u.control = .body a)
    (callers : u.callers = s.callers) (next : s.next < u.next)
    (own : u.frames a = { s.frames a with
      body := rest, locals := (s.frames a).locals ++ [⟨kind, some s.next⟩] })
    (kept : ∀ b, b < s.next → b ≠ a → u.frames b = s.frames b)
    (holds : Holds u.frames ⟨kind, some s.next⟩ slot) (there : slot.isThere = true)
    (settled : ∀ b, s.next < b → b < u.next → (u.frames b).Settled) :
    Runs s a (handles (s.frames a).locals) (rest.eval (env ++ [slot]) u.shared) := by
  have other : s.next ≠ a := Nat.ne_of_gt h.old
  have locals : (u.frames a).locals = (s.frames a).locals ++ [⟨kind, some s.next⟩] := by rw [own]
  have holding : Holding u a (env ++ [slot]) := h.holding.push locals
    (fun c inside => kept c (h.holding.below c inside).1 (h.holding.below c inside).2)
    (Nat.le_refl _) next other holds
  have at_u : At u a rest (env ++ [slot]) :=
    ⟨control, h.old.trans next, by rw [own]; exact h.alive, by rw [own], holding⟩
  have slots : (env ++ [slot]).map Slot.isThere = env.map Slot.isThere ++ [true] := by
    rw [List.map_append, List.map_singleton, there]
  have runs := ih isVoid _ u a (slots ▸ wellFormed) at_u
  have mem : ∀ b, b ∈ handles (u.frames a).locals ↔
      b ∈ handles (s.frames a).locals ∨ b = s.next := fun b => by
    rw [locals, handles_append, List.mem_append]
    exact or_congr_right List.mem_singleton
  refine Runs.after steps runs callers next.le ⟨_, _, own⟩ ?_ ?_
  · intro b old apart outside
    refine ⟨kept b old apart, fun inside => ?_⟩
    rcases (mem b).mp inside with inside | rfl
    · exact outside inside
    · exact Nat.lt_irrefl _ old
  · rintro b (inside | ⟨fresh, below⟩)
    · exact .inl ((mem b).mpr (.inl inside))
    · rcases Nat.eq_or_lt_of_le fresh with same | later
      · exact .inl ((mem b).mpr (.inr same.symm))
      · have apart : b ≠ a := Nat.ne_of_gt (h.old.trans later)
        refine .inr ⟨below, apart, fun inside => ?_, settled b later below⟩
        rcases (mem b).mp inside with inside | same
        · exact Nat.lt_asymm later (h.holding.below b inside).1
        · exact Nat.ne_of_gt later same

theorem simulated_lazy {kind : Kind} {child rest : Prog S V E} (isLazy : kind.isLazy = true)
    (ihc : child.Simulated) (ih : rest.Simulated) : (Prog.create kind child rest).Simulated := by
  intro isVoid env s a wellFormed h
  obtain ⟨u, hu⟩ : ∃ u, u = { (s.set a { s.frames a with
    body := rest, locals := (s.frames a).locals ++ [⟨kind, some s.next⟩] }).set s.next
      (.create kind child) with next := s.next + 1 } := ⟨_, rfl⟩
  have stepped : bodyStep s a (.create kind child rest) = some u := by
    simp only [bodyStep, isLazy, if_true, hu]
  have other : s.next ≠ a := Nat.ne_of_gt h.old
  have own : u.frames a = { s.frames a with
      body := rest, locals := (s.frames a).locals ++ [⟨kind, some s.next⟩] } := by
    rw [hu]
    exact (set_other _ _ other.symm).trans (set_frame ..)
  have new : u.frames s.next = .create kind child := by
    rw [hu]
    exact set_frame ..
  have still : ∀ b, b < s.next → b ≠ a → u.frames b = s.frames b := fun b old other => by
    rw [hu]
    exact (set_other _ _ (Nat.ne_of_lt old)).trans (set_other _ _ other)
  have next : u.next = s.next + 1 := by rw [hu]
  have holds : Holds u.frames ⟨kind, some s.next⟩ (.deferred (child.eval [])) :=
    .deferred isLazy new (ihc.correct wellFormed.1) fun s => eval_typed child wellFormed.1 [] s
  have shared : u.shared = s.shared := by rw [hu]; rfl
  have result : (Prog.create kind child rest).eval env s.shared =
      rest.eval (env ++ [.deferred (child.eval [])]) u.shared := by
    rw [shared]
    simp only [Prog.eval, isLazy, if_true]
  rw [result]
  refine runs_create ih wellFormed.2 h (.single (h.step stepped)) ?_ ?_ (by omega) own still holds rfl
    fun b later below => absurd later (by omega)
  · rw [hu]
    exact h.control
  · rw [hu]
    rfl

theorem simulated_task {kind : Kind} {child rest : Prog S V E} (eager : kind.isLazy = false)
    (ihc : child.Simulated) (ih : rest.Simulated) : (Prog.create kind child rest).Simulated := by
  intro isVoid env s a wellFormed h
  have other : s.next ≠ a := Nat.ne_of_gt h.old
  -- the call of the child
  obtain ⟨s₁, h₁⟩ : ∃ u, u = { (s.set a { s.frames a with body := rest }).set s.next
    (Frame.create kind child).begin with
      next := s.next + 1, callers := (a, s.next) :: s.callers, control := .body s.next } := ⟨_, rfl⟩
  have called : step s = some s₁ := h.step (by simp only [bodyStep, eager, Bool.false_eq_true,
    if_false, h₁])
  have next₁ : s₁.next = s.next + 1 := by rw [h₁]
  have new₁ : s₁.frames s.next = (Frame.create kind child).begin := by
    rw [h₁]
    exact set_frame ..
  have own₁ : s₁.frames a = { s.frames a with body := rest } := by
    rw [h₁]
    exact (set_other _ _ other.symm).trans (set_frame ..)
  have still₁ : ∀ b, b < s.next → b ≠ a → s₁.frames b = s.frames b := fun b old other => by
    rw [h₁]
    exact (set_other _ _ (Nat.ne_of_lt old)).trans (set_other _ _ other)
  -- its final suspend point, and back in the body
  obtain ⟨t, runs, ends⟩ := (ihc.correct wellFormed.1).completes new₁ (by rw [h₁]) (by omega)
    ⟨rfl, rfl, rfl⟩ .back (.inl ⟨rfl, rfl⟩)
  have new : t.frames s.next =
      ((Frame.create kind child).begin.store (child.eval [] s₁.shared).1).complete := by
    rw [ends.own, new₁]
  have own₂ : t.frames a = { s.frames a with body := rest } := by
    rw [ends.kept a (by have := h.old; omega) other.symm, own₁]
  have callers : t.callers = (a, s.next) :: s.callers := ends.callers.trans (by rw [h₁])
  obtain ⟨u, hu⟩ : ∃ u, u = { t.set a { t.frames a with
    locals := (t.frames a).locals ++ [⟨(t.frames s.next).kind, some s.next⟩] } with
      callers := s.callers, control := .body a } := ⟨_, rfl⟩
  have back : step t = some u := by
    have alive : (t.frames a).alive = true := by
      rw [own₂]
      exact h.alive
    simp only [step, ends.control, callers]
    exact (if_pos alive).trans (by rw [hu])
  have own : u.frames a = { s.frames a with
      body := rest, locals := (s.frames a).locals ++ [⟨kind, some s.next⟩] } := by
    rw [hu]
    refine (set_frame ..).trans ?_
    rw [new, own₂]
    rfl
  have still : ∀ b, b ≠ a → u.frames b = t.frames b := fun b other => by
    rw [hu]
    exact set_other _ _ other
  have old : ∀ b, b < s.next → b ≠ a → u.frames b = s.frames b := fun b old other => by
    rw [still b other, ends.kept b (by omega) (Nat.ne_of_lt old), still₁ b old other]
  have next : u.next = t.next := by rw [hu]; rfl
  have grown := ends.next
  have holds : Holds u.frames ⟨kind, some s.next⟩ (.ready (child.eval [] s₁.shared).1) :=
    .ready eager ((still s.next other).trans new) (eval_typed child wellFormed.1 [] _)
  have shared : u.shared = (child.eval [] s₁.shared).2 := by
    rw [hu]
    exact ends.shared
  have result : (Prog.create kind child rest).eval env s.shared =
      rest.eval (env ++ [.ready (child.eval [] s₁.shared).1]) u.shared := by
    rw [shared, h₁]
    simp only [Prog.eval, eager, Bool.false_eq_true, if_false]
    rfl
  rw [result]
  have first : Steps s s₁ := .single called
  refine runs_create ih wellFormed.2 h ((first.trans runs).tail back) (by rw [hu]) (by rw [hu])
    (by omega) own old holds rfl fun b later below => ?_
  rw [still b (Nat.ne_of_gt (h.old.trans later))]
  exact ends.settled b (by omega) (by omega)

/-- The result of a child is taken and its frame destroyed. -/
def Frame.take (f : Frame S V E) : Frame S V E := { f with taken := f.taken + 1 }

theorem resumes {s : State S V E} {a i c : Nat} {rest : Outcome V E → Prog S V E} {kind : Kind}
    (control : s.control = .await_resume a) (alive : (s.frames a).alive = true)
    (body : (s.frames a).body = .await i rest)
    (there : (s.frames a).locals[i]? = some ⟨kind, some c⟩) (other : c ≠ a)
    (ready : (s.frames c).alive = true ∧ (s.frames c).locals = []) :
    ∃ u, Steps s u ∧ u.control = .body a ∧ u.callers = s.callers ∧ u.shared = s.shared ∧
      u.next = s.next ∧ u.frames a = { s.frames a with
        body := rest (s.frames c).get, locals := (s.frames a).locals.set i ⟨kind, none⟩ } ∧
      u.frames c = (s.frames c).take.destroy ∧ ∀ b, b ≠ a → b ≠ c → u.frames b = s.frames b := by
  obtain ⟨t, ht⟩ : ∃ t, t = ((s.set c (s.frames c).take).set a { s.frames a with
    body := rest (s.frames c).get, locals := (s.frames a).locals.set i ⟨kind, none⟩ }).goto
      (.destroy [c] (.body a)) := ⟨_, rfl⟩
  have stepped : step s = some t := by
    have resumed : step s = resumeStep s a (.await i rest) := by
      simp only [step, control]
      rw [← body]
      exact if_pos alive
    rw [resumed]
    simp only [resumeStep, there]
    exact (if_pos ready.1).trans (by rw [ht]; rfl)
  have own : t.frames a = { s.frames a with
      body := rest (s.frames c).get, locals := (s.frames a).locals.set i ⟨kind, none⟩ } := by
    rw [ht]
    exact set_frame ..
  have child : t.frames c = (s.frames c).take := by
    rw [ht]
    exact (set_other _ _ other).trans (set_frame ..)
  have still : ∀ b, b ≠ a → b ≠ c → t.frames b = s.frames b := fun b other apart => by
    rw [ht]
    exact (set_other _ _ other).trans (set_other _ _ apart)
  obtain ⟨u, steps, control, callers, shared, next, gone, kept⟩ :=
    destroys [c] (s := t) (by rw [ht]; rfl) (List.nodup_singleton c) fun b inside => by
      cases List.mem_singleton.mp inside
      rw [child]
      exact ready
  refine ⟨u, .head stepped steps, control, ?_, ?_, ?_, ?_, ?_, fun b other apart => ?_⟩
  · rw [callers, ht]
    rfl
  · rw [shared, ht]
    rfl
  · rw [next, ht]
    rfl
  · rw [kept a fun inside => other (List.mem_singleton.mp inside).symm, own]
  · rw [gone c List.mem_cons_self, child]
  · rw [kept b fun inside => apart (List.mem_singleton.mp inside), still b other apart]

theorem runs_resume {s t : State S V E} {a i c : Nat} {rest : Outcome V E → Prog S V E}
    {kind : Kind} {env : List (Slot S V E)} {isVoid : Bool} {result : Outcome V E}
    (ih : (rest result).Simulated)
    (wellFormed : (rest result).WellFormed isVoid ((env.map Slot.isThere).set i false))
    (h : At s a (.await i rest) env) (there : (s.frames a).locals[i]? = some ⟨kind, some c⟩)
    (steps : Steps s t) (control : t.control = .await_resume a) (callers : t.callers = s.callers)
    (next : s.next ≤ t.next) (ended : (t.frames c).get = result)
    (ready : (t.frames c).alive = true ∧ (t.frames c).locals = [])
    (settles : (t.frames c).take.destroy.Settled)
    (kept : ∀ b, b < s.next → b ≠ c → t.frames b = s.frames b)
    (settled : ∀ b, s.next ≤ b → b < t.next → (t.frames b).Settled) :
    Runs s a (handles (s.frames a).locals) ((rest result).eval (env.set i .awaited) t.shared) := by
  have inside : c ∈ handles (s.frames a).locals :=
    (handles_set there).mem_iff.mpr List.mem_cons_self
  have other : c ≠ a := (h.holding.below c inside).2
  have own : t.frames a = s.frames a := kept a h.old other.symm
  obtain ⟨u, resumed, at_body, callers', shared, next', own', gone, still⟩ :=
    resumes control (by rw [own]; exact h.alive) (by rw [own]; exact h.body)
      (by rw [own]; exact there) other ready
  rw [own, ended] at own'
  have locals : (u.frames a).locals = (s.frames a).locals.set i ⟨kind, none⟩ := by rw [own']
  have old : ∀ b, b < s.next → b ≠ a → b ≠ c → u.frames b = s.frames b :=
    fun b old other apart => by rw [still b other apart, kept b old apart]
  obtain ⟨holding, outside, members⟩ := h.holding.pull there locals
    (fun b inside apart => old b (h.holding.below b inside).1 (h.holding.below b inside).2 apart)
    (next'.symm ▸ next)
  have at_u : At u a (rest result) (env.set i .awaited) :=
    ⟨at_body, by have := h.old; omega, by rw [own']; exact h.alive, by rw [own'], holding⟩
  have runs := ih isVoid _ u a (by rw [List.map_set]; exact wellFormed) at_u
  rw [shared] at runs
  refine Runs.after (steps.trans resumed) runs (callers'.trans callers) (by omega) ⟨_, _, own'⟩ ?_ ?_
  · intro b below apart absent
    have different : b ≠ c := fun same => absent (same ▸ inside)
    exact ⟨old b below apart different, fun within => absent ((members b).mpr (.inr within))⟩
  · intro b which
    by_cases same : b = c
    · subst same
      have below := (h.holding.below b inside).1
      refine .inr ⟨by omega, other, outside, ?_⟩
      rw [gone]
      exact settles
    · rcases which with within | ⟨fresh, below⟩
      · exact .inl (((members b).mp within).resolve_left same)
      · have apart : b ≠ a := by have := h.old; omega
        refine .inr ⟨below, apart, fun within => ?_, ?_⟩
        · have := (h.holding.below b ((members b).mpr (.inr within))).1
          omega
        · rw [still b apart same]
          exact settled b fresh (by omega)

/-- A lazy_task runs where it is awaited and passes control back; a task has run. -/
theorem simulated_await {i : Nat} {rest : Outcome V E → Prog S V E}
    (ih : ∀ o, (rest o).Simulated) : (Prog.await i rest).Simulated := by
  intro isVoid env s a wellFormed h
  obtain ⟨there, wellFormed⟩ := wellFormed
  rw [List.getElem?_map, Option.map_eq_some_iff] at there
  obtain ⟨slot, in_env, is_there⟩ := there
  obtain ⟨l, there, holds⟩ := forall₂_getElem? h.holding.slots in_env
  cases holds with
  | awaited => cases is_there
  | @ready kind c q result eager frame typed =>
    obtain ⟨t, ht⟩ : ∃ t, t = s.goto (.await_resume a) := ⟨_, rfl⟩
    have stepped : bodyStep s a (.await i rest) = some t := by
      simp only [bodyStep, there, eager, Bool.false_eq_true, if_false, awaitTask, frame, ht]
      rfl
    have child : t.frames c = ((Frame.create kind q).begin.store result).complete := by
      rw [ht]
      exact frame
    have first : Steps s t := .single (h.step stepped)
    have result_eq : (Prog.await i rest).eval env s.shared =
        (rest result).eval (env.set i .awaited) t.shared := by
      rw [ht]
      simp only [Prog.eval, in_env]
      rfl
    rw [result_eq]
    refine runs_resume (ih result) (wellFormed result) h there first (by rw [ht]; rfl)
      (by rw [ht]; rfl) (Nat.le_of_eq (by rw [ht]; rfl)) ?_ ?_ ?_ ?_ ?_
    · rw [child]
      exact get_store typed
    · rw [child]
      exact ⟨rfl, rfl⟩
    · rw [child]
      exact ⟨rfl, fun _ => ⟨rfl, rfl, rfl⟩, fun _ no => (by cases no), fun _ => ⟨rfl, rfl⟩⟩
    · intro b _ _
      rw [ht]
      rfl
    · intro b fresh below
      rw [ht] at below
      exact absurd fresh (Nat.not_le_of_lt below)
  | @deferred kind c q isLazy frame correct typed =>
    have inside : c ∈ handles (s.frames a).locals :=
      (handles_set there).mem_iff.mpr List.mem_cons_self
    obtain ⟨below, other⟩ := h.holding.below c inside
    obtain ⟨s₁, h₁⟩ : ∃ u, u = (s.set c { (Frame.create kind q).begin with
      m_awaiter := .frame a }).goto (.body c) := ⟨_, rfl⟩
    have stepped : bodyStep s a (.await i rest) = some s₁ := by
      simp only [bodyStep, there, isLazy, if_true, awaitLazy, frame, h₁]
      rfl
    have child : s₁.frames c = { (Frame.create kind q).begin with m_awaiter := .frame a } := by
      rw [h₁]
      exact set_frame ..
    have still : ∀ b, b ≠ c → s₁.frames b = s.frames b := fun b apart => by
      rw [h₁]
      exact set_other _ _ apart
    have next : s₁.next = s.next := by rw [h₁]; rfl
    have shared : s₁.shared = s.shared := by rw [h₁]; rfl
    -- the final suspend point of the child passes control to the body
    obtain ⟨t, runs, ends⟩ := correct.completes child (by rw [h₁]; rfl) (next ▸ below)
      ⟨rfl, rfl, rfl⟩ (.await_resume a) (.inr ⟨a, rfl, rfl⟩)
    rw [shared] at ends
    have result_eq : (Prog.await i rest).eval env s.shared =
        (rest (q.eval [] s.shared).1).eval (env.set i .awaited) t.shared := by
      rw [ends.shared]
      simp only [Prog.eval, in_env]
    have grown := ends.next
    rw [result_eq]
    refine runs_resume (ih _) (wellFormed _) h there (.head (h.step stepped) runs) ends.control
      (ends.callers.trans (by rw [h₁]; rfl)) (by omega) ?_ ?_ ?_ ?_ ?_
    · rw [ends.own, child]
      exact get_store (typed s.shared)
    · rw [ends.own, child]
      exact ⟨rfl, rfl⟩
    · rw [ends.own, child]
      refine ⟨rfl, fun _ => ⟨rfl, rfl, rfl⟩, fun _ no => (by cases no), fun eager => ?_⟩
      cases isLazy.symm.trans eager
    · intro b old apart
      rw [ends.kept b (by omega) apart, still b apart]
    · intro b fresh young
      exact ends.settled b (by omega) young

theorem simulated (p : Prog S V E) : p.Simulated := by
  induction p with
  | finish result =>
    intro isVoid env s a _ h
    exact runs_finish h.control h.alive h.body h.holding
  | compute effect rest ih => exact simulated_compute ih
  | create kind child rest ihc ih =>
    cases isLazy : kind.isLazy with
    | true => exact simulated_lazy isLazy ihc ih
    | false => exact simulated_task isLazy ihc ih
  | await i rest ih => exact simulated_await ih

/-- The root is called, and after its final suspend point get() takes its result. -/
theorem root_runs (kind : Kind) {p : Prog S V E} (wellFormed : p.WellFormed kind.isVoid [])
    (shared : S) : ∃ t, Steps (initial kind p shared) t ∧
      t.control = .returned (p.eval [] shared).1 ∧ t.shared = (p.eval [] shared).2 ∧
      ∀ a, a < t.next → (t.frames a).Settled := by
  obtain ⟨s₁, h₁⟩ : ∃ u : State S V E, u =
    ((initial kind p shared).set 0 (Frame.create kind p).begin).goto (.body 0) := ⟨_, rfl⟩
  have root : s₁.frames 0 = (Frame.create kind p).begin := by
    rw [h₁]
    exact set_frame (initial kind p shared) 0 _
  have next : s₁.next = 1 := by rw [h₁]; rfl
  have same : s₁.shared = shared := by rw [h₁]; rfl
  obtain ⟨t, runs, ends⟩ := ((simulated p).correct wellFormed).completes root (by rw [h₁]; rfl)
    (by rw [next]; exact Nat.one_pos) ⟨rfl, rfl, rfl⟩ .back (.inl ⟨rfl, rfl⟩)
  rw [same] at ends
  have done : t.frames 0 = ((Frame.create kind p).begin.store (p.eval [] shared).1).complete := by
    rw [ends.own, root]
  have typed : Typed kind.isVoid (p.eval [] shared).1 := eval_typed p wellFormed [] shared
  have result : (t.frames 0).get = (p.eval [] shared).1 := by
    rw [done]
    exact get_store typed
  have back : step t = some (t.goto .get) := by
    have callers : t.callers = [] := ends.callers.trans (by rw [h₁]; rfl)
    simp only [step, ends.control, callers]
  obtain ⟨t₂, h₂⟩ : ∃ u, u = ((t.goto .get).set 0 (t.frames 0).take).goto
    (.destroy [0] (.returned (p.eval [] shared).1)) := ⟨_, rfl⟩
  have taken : step (t.goto .get) = some t₂ := by
    have alive : (t.frames 0).alive = true := by rw [done]; rfl
    rw [h₂, ← result]
    exact if_pos alive
  have held : t₂.frames 0 = (t.frames 0).take := by
    rw [h₂]
    exact set_frame (t.goto .get) 0 _
  obtain ⟨u, steps, control, -, shared', next', gone, kept⟩ :=
    destroys [0] (s := t₂) (by rw [h₂]; rfl) (List.nodup_singleton 0) fun c inside => by
      cases List.mem_singleton.mp inside
      rw [held, done]
      exact ⟨rfl, rfl⟩
  have first : Steps (initial kind p shared) s₁ := .single (by rw [h₁]; rfl)
  have last : Steps t u := .head back (.head taken steps)
  refine ⟨u, (first.trans runs).trans last, control, ?_, fun a below => ?_⟩
  · rw [shared', h₂]
    exact ends.shared
  · by_cases same : a = 0
    · subst same
      rw [gone 0 List.mem_cons_self, held, done]
      refine ⟨rfl, fun _ => ⟨rfl, rfl, rfl⟩, fun _ no => (by cases no), fun _ => ⟨rfl, rfl⟩⟩
    · have outside : a ∉ [0] := fun inside => same (List.mem_singleton.mp inside)
      have still : t₂.frames a = t.frames a := by
        rw [h₂]
        exact set_other _ _ same
      have left : u.next = t.next := by
        rw [next', h₂]
        rfl
      rw [kept a outside, still]
      exact ends.settled a (by omega) (by omega)

theorem step_returned {s : State S V E} {result : Outcome V E} (h : s.control = .returned result) :
    step s = none := by
  simp only [step, h]

theorem run_steps {s t : State S V E} (steps : Steps s t) (terminal : step t = none) :
    ∃ fuel, ∀ more, fuel ≤ more → run more s = t := by
  induction steps using Relation.ReflTransGen.head_induction_on with
  | refl =>
    refine ⟨0, fun more _ => ?_⟩
    cases more with
    | zero => rfl
    | succ more => simp only [run, terminal]
  | head first _ ih =>
    obtain ⟨fuel, enough⟩ := ih
    refine ⟨fuel + 1, fun more above => ?_⟩
    cases more with
    | zero => exact absurd above (Nat.not_succ_le_zero fuel)
    | succ more =>
      simp only [run, first]
      exact enough more (Nat.le_of_succ_le_succ above)

/-- The machine is deterministic, so on its way to the end it stops nowhere. -/
theorem Steps.never_stuck {s t u : State S V E} (steps : Steps s t) (terminal : step t = none)
    (reached : Steps s u) : u = t ∨ ∃ v, step u = some v := by
  have unique : Relator.RightUnique fun s t : State S V E => step s = some t :=
    fun _ _ _ first second => Option.some.inj (first.symm.trans second)
  have onward : Steps u t := by
    rcases Relation.ReflTransGen.total_of_right_unique unique reached steps with onward | back
    · exact onward
    · rcases back.cases_head with same | ⟨v, first, -⟩
      · exact same ▸ .refl
      · cases terminal.symm.trans first
  rcases onward.cases_head with same | ⟨v, first, -⟩
  · exact .inl same
  · exact .inr ⟨v, first⟩

theorem guarded {p : Prop} [Decidable p] {u : Option (State S V E)} {t : State S V E}
    (taken : (if p then u else none) = some t) : p ∧ u = some t := by
  split at taken
  · exact ⟨‹p›, taken⟩
  · cases taken

theorem await_uses {s t : State S V E} {a i c : Nat} {rest : Outcome V E → Prog S V E}
    (child : (s.frames a).locals[i]?.bind Local.m_handle = some c)
    (taken : bodyStep s a (.await i rest) = some t ∨ resumeStep s a (.await i rest) = some t) :
    (s.frames c).alive = true := by
  obtain ⟨⟨kind, handle⟩, there, held⟩ := Option.bind_eq_some_iff.mp child
  cases held
  rcases taken with taken | taken
  · simp only [bodyStep, there] at taken
    split at taken
    · exact (guarded taken).1
    · exact (guarded taken).1
  · simp only [resumeStep, there] at taken
    exact (guarded taken).1

theorem child_uses {s t : State S V E} {a c : Nat} (child : s.child a = some c)
    (taken : bodyStep s a (s.frames a).body = some t ∨ resumeStep s a (s.frames a).body = some t) :
    (s.frames c).alive = true := by
  cases body : (s.frames a).body with
  | await i rest =>
    simp only [State.child, body] at child
    rw [body] at taken
    exact await_uses child taken
  | finish | compute | create =>
    simp only [State.child, body] at child
    cases child

theorem step_uses {s t : State S V E} (stepped : step s = some t) :
    ∀ c ∈ s.uses, (s.frames c).alive = true := by
  cases control : s.control with
  | start | returned result =>
    simp only [State.uses, control]
    exact fun c no => by cases no
  | body a =>
    simp only [step, control] at stepped
    obtain ⟨alive, taken⟩ := guarded stepped
    simp only [State.uses, control, List.forall_mem_cons, Option.mem_toList]
    exact ⟨alive, fun c child => child_uses child (.inl taken)⟩
  | await_resume a =>
    simp only [step, control] at stepped
    obtain ⟨alive, taken⟩ := guarded stepped
    simp only [State.uses, control, List.forall_mem_cons, Option.mem_toList]
    exact ⟨alive, fun c child => child_uses child (.inr taken)⟩
  | final_suspend a | get =>
    simp only [step, control] at stepped
    simp only [State.uses, control, List.forall_mem_singleton]
    exact (guarded stepped).1
  | back =>
    cases callers : s.callers with
    | nil =>
      simp only [State.uses, control, callers]
      exact fun c no => by cases no
    | cons caller rest =>
      simp only [step, control, callers] at stepped
      simp only [State.uses, control, callers, List.head?_cons, Option.map_some,
        Option.toList_some, List.forall_mem_singleton]
      exact (guarded stepped).1
  | destroy handles next =>
    cases handles with
    | nil =>
      simp only [State.uses, control]
      exact fun c no => by cases no
    | cons c more =>
      simp only [step, control] at stepped
      simp only [State.uses, control, List.head?_cons, Option.toList_some, List.forall_mem_singleton]
      exact (guarded stepped).1

/-- get() on a root coroutine ends with the value or the exception of the direct evaluation. No
step on the way uses a destroyed frame; in the end every frame is destroyed, its body has run once
if the coroutine was a task or was awaited, and never if it was a lazy_task nobody awaited. -/
theorem get_evaluates (kind : Kind) (p : Prog S V E) (wellFormed : p.WellFormed kind.isVoid [])
    (shared : S) :
    (∃ fuel, ∀ more, fuel ≤ more →
      (run more (initial kind p shared)).control = .returned (p.eval [] shared).1 ∧
      (run more (initial kind p shared)).shared = (p.eval [] shared).2 ∧
      ∀ a, a < (run more (initial kind p shared)).next →
        ((run more (initial kind p shared)).frames a).Settled) ∧
    ∀ s, Steps (initial kind p shared) s → ∀ c ∈ s.uses, (s.frames c).alive = true := by
  obtain ⟨t, steps, control, result, settled⟩ := root_runs kind wellFormed shared
  have terminal := step_returned control
  obtain ⟨fuel, enough⟩ := run_steps steps terminal
  refine ⟨⟨fuel, fun more above => ?_⟩, fun s reached => ?_⟩
  · rw [enough more above]
    exact ⟨control, result, settled⟩
  · rcases steps.never_stuck terminal reached with rfl | ⟨next, stepped⟩
    · simp only [State.uses, control]
      exact fun c no => by cases no
    · exact step_uses stepped

def co_await (i : Nat) (rest : Option V → Prog S V E) : Prog S V E :=
  .await i fun
    | .returned v => rest v
    | .threw x => .finish (.threw x)

/-- A task and two lazy_tasks. The second lazy_task is awaited in a try block and throws; the
first one is not awaited. The shared state is the record of who ran. -/
def mixed : Prog (List Nat) Nat Bool :=
  .create ⟨false, false⟩ (.compute (· ++ [1]) fun _ => .finish (.returned (some 5)))
    (.create ⟨true, true⟩ (.compute (· ++ [2]) fun _ => .finish (.returned none))
      (.create ⟨true, true⟩ (.compute (· ++ [3]) fun _ => .finish (.threw (.user true)))
        (.await 2 fun _ => co_await 0 fun v => .finish (.returned (some (v.getD 0 + 1))))))

theorem get_evaluates_mixed :
    (mixed.eval [] []).2 = [1, 3] ∧
      ∃ fuel, (run fuel (initial ⟨true, false⟩ mixed [])).control = .returned (.returned (some 6)) := by
  have wellFormed : mixed.WellFormed false [] := by
    refine ⟨fun _ => rfl, fun _ => rfl, fun _ => trivial, rfl, fun _ => ⟨rfl, fun o => ?_⟩⟩
    cases o with
    | returned v => rfl
    | threw x => trivial
  obtain ⟨⟨fuel, enough⟩, -⟩ := get_evaluates ⟨true, false⟩ mixed wellFormed []
  exact ⟨rfl, fuel, (enough fuel (Nat.le_refl fuel)).1⟩

def fibonacci_lazy : Nat → Prog S Nat E
  | 0 => .finish (.returned (some 0))
  | 1 => .finish (.returned (some 1))
  | i + 2 =>
    .create ⟨true, false⟩ (fibonacci_lazy (i + 1)) (.create ⟨true, false⟩ (fibonacci_lazy i)
      (co_await 0 fun fib1 => co_await 1 fun fib2 =>
        .finish (.returned (some (fib1.getD 0 + fib2.getD 0)))))

theorem fibonacci_wellFormed (i : Nat) :
    (fibonacci_lazy i : Prog S Nat E).WellFormed false [] := by
  induction i using fibonacci_lazy.induct with
  | case1 | case2 => rfl
  | case3 i ih₁ ih₂ =>
    refine ⟨ih₁, ih₂, rfl, fun o => ?_⟩
    cases o with
    | threw x => trivial
    | returned v =>
      refine ⟨rfl, fun o => ?_⟩
      cases o with
      | threw x => trivial
      | returned v => rfl

end Pot.Coroutine
