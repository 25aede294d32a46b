import Pot.CoroutineModuleRuns
import Pot.CoroutineSimulation

/-! get() on a root coroutine of the module, as often as it is called, and how the two
implementations compare. -/
namespace Pot.CoroutineModule
open StateTransition (Reaches)
open Pot.Task (Thrown Outcome Data)
open Pot.Coroutine (Prog Slot Kind Local Typed handles)

variable {S V E : Type}

theorem leaves {s : State S V E} (control : s.control = .get) (none : s.gets = 0)
    (alive : (s.frames 0).alive = true) (empty : (s.frames 0).locals = []) :
    ∃ t, Reaches step s t ∧ t.control = .returned ∧ t.results = s.results ∧ t.shared = s.shared ∧
      t.next = s.next ∧ t.frames 0 = (s.frames 0).destroy ∧ ∀ b, b ≠ 0 → t.frames b = s.frames b := by
  have stepped : step s = some (s.goto (.destroy [0] .returned)) := by
    simp only [step, control, getStep, none]
  obtain ⟨t, steps, control, -, -, results, shared, next, gone, kept⟩ :=
    destroys [0] (s := s.goto (.destroy [0] .returned)) rfl (List.nodup_singleton 0)
      fun c inside => by
        cases List.mem_singleton.mp inside
        exact ⟨alive, empty⟩
  exact ⟨t, .head stepped steps, control, results, shared, next, gone 0 List.mem_cons_self,
    fun b other => kept b fun inside => other (List.mem_singleton.mp inside)⟩

theorem waits {s : State S V E} {kind : Kind} {result : Outcome V E} {k : Nat}
    (control : s.control = .wait) (calls : s.gets = k + 1)
    (finished : (s.frames 0).Finished kind result) (typed : Typed kind.isVoid result) :
    ∃ u, step s = some u ∧ u.control = .get ∧ u.gets = k ∧ u.results = s.results ++ [result] ∧
      u.shared = s.shared ∧ u.next = s.next ∧ u.frames 0 = (s.frames 0).take ∧
      ∀ b, b ≠ 0 → u.frames b = s.frames b := by
  obtain ⟨u, hu⟩ : ∃ u, u = { s.set 0 (s.frames 0).take with
    gets := k, results := s.results ++ [result], control := .get } := ⟨_, rfl⟩
  have stepped : step s = some u := by
    simp only [step, control, calls, finished.get typed, Nat.add_sub_cancel]
    rw [if_pos finished.alive, if_pos finished.m_ready, hu]
    rfl
  refine ⟨u, stepped, by rw [hu], by rw [hu], by rw [hu], by rw [hu]; rfl, by rw [hu]; rfl, ?_,
    fun b other => ?_⟩
  · rw [hu]
    exact set_frame s 0 _
  · rw [hu]
    exact set_other _ _ other

/-- Every further get() gives the same, and then the root goes out of scope. -/
theorem gets_ready (k : Nat) {s : State S V E} {kind : Kind} {result : Outcome V E}
    (control : s.control = .get) (calls : s.gets = k) (finished : (s.frames 0).Finished kind result)
    (had : kind.isLazy = true → (s.frames 0).taken ≠ 0) (typed : Typed kind.isVoid result) :
    ∃ t, Reaches step s t ∧ t.control = .returned ∧
      t.results = s.results ++ List.replicate k result ∧ t.shared = s.shared ∧ t.next = s.next ∧
      (t.frames 0).Settled ∧ ∀ b, b ≠ 0 → t.frames b = s.frames b := by
  induction k generalizing s with
  | zero =>
    obtain ⟨t, steps, control, results, shared, next, gone, kept⟩ :=
      leaves control calls finished.alive finished.locals
    refine ⟨t, steps, control, ?_, shared, next, ?_, kept⟩
    · rw [results, List.replicate_zero, List.append_nil]
    · rw [gone]
      exact finished.settled had
  | succ k ih =>
    have ready : step s = some (s.goto .wait) := by
      simp only [step, control, getStep, calls]
      rw [if_pos finished.alive, if_pos finished.m_ready]
    obtain ⟨u, stepped, control, calls, results, shared, next, taken, still⟩ :=
      waits (s := s.goto .wait) rfl calls finished typed
    obtain ⟨t, steps, returned, results', shared', next', settled, kept⟩ := ih control calls
      (by rw [taken]; exact finished.take) (fun _ => by rw [taken]; exact Nat.succ_ne_zero _)
    refine ⟨t, .head ready (.head stepped steps), returned, ?_, shared'.trans shared,
      next'.trans next, settled, fun b other => (kept b other).trans (still b other)⟩
    rw [results', results, List.append_assoc, List.replicate_succ]
    rfl

/-- The root runs from its first resumption on, and returns into `caller`. -/
theorem root_completes (kind : Kind) {p : Prog S V E} (inScope : Scoped kind.isVoid p 0)
    {s : State S V E} (caller : Caller) (callers : s.callers = []) (next : s.next = 1)
    (root : s.frames 0 = .create kind p) :
    ∃ t, Reaches step (resume s 0 caller) t ∧ t.control = .back ∧ t.callers = [caller] ∧
      t.gets = s.gets ∧ t.results = s.results ∧ t.shared = (need p [] s.shared).2 ∧ 1 ≤ t.next ∧
      (t.frames 0).Finished kind (need p [] s.shared).1 ∧
      ∀ b, b ≠ 0 → b < t.next → (t.frames b).Settled := by
  obtain ⟨u, hu⟩ : ∃ u, u = { s.set 0 (Frame.create kind p).begin with
    callers := caller :: s.callers, control := .body 0 } := ⟨_, rfl⟩
  have resumed : resume s 0 caller = u := by
    rw [resume, root, hu]
    rfl
  have own : u.frames 0 = (Frame.create kind p).begin := by
    rw [hu]
    exact set_frame s 0 _
  have first : u.next = 1 := by
    rw [hu]
    exact next
  obtain ⟨t, steps, ends⟩ := ((simulated p).correct inScope).completes own (by rw [hu])
    (by rw [first]; exact Nat.one_pos) ⟨rfl, rfl, rfl⟩ .back rfl
  have shared : u.shared = s.shared := by rw [hu]; rfl
  rw [shared] at ends
  obtain ⟨k, calls⟩ := ends.onward.callers
  have called : u.callers = [caller] := by rw [hu, callers]
  have returned := returns k ends.control calls
  have grown := ends.onward.next
  refine ⟨{ t with callers := u.callers }, resumed ▸ steps.trans returned, ends.control, called,
    ends.onward.gets.trans (by rw [hu]; rfl), ends.onward.results.trans (by rw [hu]; rfl),
    ends.shared, first ▸ grown, ?_, fun b other below => ?_⟩
  · change (t.frames 0).Finished kind _
    rw [ends.own, own]
    exact finished_complete rfl ⟨rfl, rfl⟩ _
  · exact ends.settled b (by omega) below

/-- What is left when the root has gone out of scope. -/
structure Finishes (t : State S V E) (result : Outcome V E) (gets : Nat) (shared : S) : Prop where
  control : t.control = .returned
  results : t.results = List.replicate gets result
  shared : t.shared = shared
  settled : ∀ a, a < t.next → (t.frames a).Settled

theorem task_runs {kind : Kind} (eager : kind.isLazy = false) {p : Prog S V E}
    (inScope : Scoped kind.isVoid p 0) (gets : Nat) (shared : S) :
    ∃ t, Reaches step (initial kind p gets shared) t ∧
      Finishes t (need p [] shared).1 gets (need p [] shared).2 := by
  have called : step (initial kind p gets shared) =
      some (resume (initial kind p gets shared) 0 .root) := by
    simp only [step, initial, Frame.create, eager, Bool.false_eq_true, if_false]
  obtain ⟨t, steps, control, callers, calls, results, shared', some, finished, settled⟩ :=
    root_completes kind inScope (s := initial kind p gets shared) .root rfl rfl rfl
  have back : step t = Option.some { t with callers := [], control := .get } := by
    simp only [step, control, backStep, callers]
  obtain ⟨u, last, returned, results', shared'', next, gone, kept⟩ :=
    gets_ready gets (s := { t with callers := [], control := .get }) rfl calls finished
      (fun isLazy => absurd (eager.symm.trans isLazy) Bool.false_ne_true)
      (need_typed p inScope [] shared)
  refine ⟨u, .head called (steps.trans (.head back last)), returned, ?_, shared''.trans shared',
    fun a below => ?_⟩
  · rw [results', results]
    rfl
  · by_cases root : a = 0
    · exact root ▸ gone
    · rw [kept a root]
      exact settled a root (next ▸ below)

theorem lazy_runs {kind : Kind} (isLazy : kind.isLazy = true) {p : Prog S V E}
    (inScope : Scoped kind.isVoid p 0) (more : Nat) (shared : S) :
    ∃ t, Reaches step (initial kind p (more + 1) shared) t ∧
      Finishes t (need p [] shared).1 (more + 1) (need p [] shared).2 := by
  have called : step (initial kind p (more + 1) shared) =
      some ((initial kind p (more + 1) shared).goto .get) := by
    simp only [step, initial, Frame.create, isLazy, if_true]
  have began : step ((initial kind p (more + 1) shared).goto .get) =
      some (resume ((initial kind p (more + 1) shared).goto .get) 0 .get) := rfl
  obtain ⟨t, steps, control, callers, calls, results, shared', some, finished, settled⟩ :=
    root_completes kind inScope (s := (initial kind p (more + 1) shared).goto .get) .get rfl rfl rfl
  have back : step t = Option.some { t with callers := [], control := .wait } := by
    simp only [step, control, backStep, callers]
  have typed := need_typed p inScope [] shared
  obtain ⟨v, stepped, control', calls', results', shared'', next, taken, still⟩ :=
    waits (s := { t with callers := [], control := .wait }) rfl calls finished typed
  obtain ⟨u, last, returned, results'', shared''', next', gone, kept⟩ :=
    gets_ready more control' calls' (by rw [taken]; exact finished.take)
      (fun _ => by rw [taken]; exact Nat.succ_ne_zero _) typed
  refine ⟨u, .head called (.head began (steps.trans (.head back (.head stepped last)))), returned,
    ?_, shared'''.trans (shared''.trans shared'), fun a below => ?_⟩
  · rw [results'', results', results, List.append_assoc, List.replicate_succ]
    rfl
  · by_cases root : a = 0
    · exact root ▸ gone
    · rw [kept a root, still a root]
      exact settled a root (by rw [next', next] at below; exact below)

theorem unused_runs {kind : Kind} (isLazy : kind.isLazy = true) (p : Prog S V E) (shared : S) :
    ∃ t, Reaches step (initial kind p 0 shared) t ∧ Finishes t (need p [] shared).1 0 shared := by
  have called : step (initial kind p 0 shared) = some ((initial kind p 0 shared).goto .get) := by
    simp only [step, initial, Frame.create, isLazy, if_true]
  obtain ⟨t, steps, returned, results, shared', next, gone, -⟩ :=
    leaves (s := (initial kind p 0 shared).goto .get) rfl rfl rfl rfl
  refine ⟨t, .head called steps, returned, results, shared', fun a below => ?_⟩
  rw [next] at below
  cases Nat.lt_one_iff.mp below
  rw [gone]
  exact ⟨rfl, rfl, (if_pos ⟨isLazy, rfl⟩).symm⟩

theorem root_finishes (kind : Kind) {p : Prog S V E} (inScope : Scoped kind.isVoid p 0) (gets : Nat)
    (shared : S) : ∃ t, Reaches step (initial kind p gets shared) t ∧
      Finishes t (need p [] shared).1 gets
        (if kind.isLazy = true ∧ gets = 0 then shared else (need p [] shared).2) := by
  cases isLazy : kind.isLazy with
  | false =>
    rw [if_neg fun both => Bool.false_ne_true both.1]
    exact task_runs isLazy inScope gets shared
  | true =>
    cases gets with
    | zero => exact unused_runs isLazy p shared
    | succ more =>
      rw [if_neg fun both => Nat.succ_ne_zero more both.2]
      exact lazy_runs isLazy inScope more shared

/-- The machine is deterministic, so it stops nowhere on its way to the end. -/
theorem goes_on {s t u : State S V E} (steps : Reaches step s t) (terminal : step t = none)
    (reached : Reaches step s u) : u = t ∨ ∃ v, step u = some v := by
  have onward : Reaches step u t := by
    rcases StateTransition.reaches_total reached steps with onward | back
    · exact onward
    · rcases back.cases_head with same | ⟨v, first, -⟩
      · exact same ▸ .refl
      · cases terminal.symm.trans first
  rcases onward.cases_head with same | ⟨v, first, -⟩
  · exact .inl same
  · exact .inr ⟨v, first⟩

theorem child_uses {s t : State S V E} {a c : Nat} (child : s.child a = some c)
    (taken : bodyStep s a (s.frames a).body = some t ∨ resumeStep s a (s.frames a).body = some t) :
    (s.frames c).alive = true := by
  cases body : (s.frames a).body with
  | await i rest =>
    simp only [State.child, body] at child
    rw [body] at taken
    obtain ⟨⟨kind, handle⟩, there, held⟩ := Option.bind_eq_some_iff.mp child
    cases held
    rcases taken with taken | taken
    · simp only [bodyStep, there, await] at taken
      exact (Option.ite_none_right_eq_some.mp taken).1
    · simp only [resumeStep, there] at taken
      exact (Option.ite_none_right_eq_some.mp taken).1
  | finish | compute | create =>
    simp only [State.child, body] at child
    cases child

theorem step_uses {s t : State S V E} (stepped : step s = some t) :
    ∀ c ∈ s.uses, (s.frames c).alive = true := by
  cases control : s.control with
  | start | returned =>
    simp only [State.uses, control]
    exact fun c no => by cases no
  | body a =>
    simp only [step, control] at stepped
    obtain ⟨alive, taken⟩ := Option.ite_none_right_eq_some.mp stepped
    simp only [State.uses, control, List.forall_mem_cons, Option.mem_toList]
    exact ⟨alive, fun c child => child_uses child (.inl taken)⟩
  | await_resume a =>
    simp only [step, control] at stepped
    obtain ⟨alive, taken⟩ := Option.ite_none_right_eq_some.mp stepped
    simp only [State.uses, control, List.forall_mem_cons, Option.mem_toList]
    exact ⟨alive, fun c child => child_uses child (.inr taken)⟩
  | final_suspend a | wait =>
    simp only [step, control] at stepped
    simp only [State.uses, control, List.forall_mem_singleton]
    exact (Option.ite_none_right_eq_some.mp stepped).1
  | back =>
    simp only [step, control, backStep] at stepped
    simp only [State.uses, control]
    split
    · rename_i a c rest callers
      simp only [callers] at stepped
      simp only [List.forall_mem_singleton]
      exact (Option.ite_none_right_eq_some.mp stepped).1
    · exact fun c no => by cases no
  | get =>
    simp only [step, control, getStep] at stepped
    simp only [State.uses, control]
    cases calls : s.gets with
    | zero => exact fun c no => by cases no
    | succ k =>
      simp only [calls] at stepped
      rw [if_neg (Nat.succ_ne_zero k), List.forall_mem_singleton]
      exact (Option.ite_none_right_eq_some.mp stepped).1
  | destroy handles next =>
    cases handles with
    | nil =>
      simp only [State.uses, control]
      exact fun c no => by cases no
    | cons c more =>
      simp only [step, control] at stepped
      simp only [State.uses, control, List.head?_cons, Option.toList_some, List.forall_mem_singleton]
      exact (Option.ite_none_right_eq_some.mp stepped).1

/-- Every get() on a root coroutine gives the value or the exception of the evaluation by need,
which runs the body of a lazy_task once however often it is awaited. No step on the way uses a
destroyed frame, and in the end every frame is destroyed. -/
theorem get_memoizes (kind : Kind) (p : Prog S V E) (inScope : Scoped kind.isVoid p 0) (gets : Nat)
    (shared : S) :
    (∃ t ∈ StateTransition.eval step (initial kind p gets shared),
      Finishes t (need p [] shared).1 gets
        (if kind.isLazy = true ∧ gets = 0 then shared else (need p [] shared).2)) ∧
    ∀ s, Reaches step (initial kind p gets shared) s → ∀ c ∈ s.uses, (s.frames c).alive = true := by
  obtain ⟨t, steps, finishes⟩ := root_finishes kind inScope gets shared
  have terminal : step t = none := by simp only [step, finishes.control]
  refine ⟨⟨t, StateTransition.mem_eval.mpr ⟨steps, terminal⟩, finishes⟩, fun s reached => ?_⟩
  rcases goes_on steps terminal reached with rfl | ⟨next, stepped⟩
  · simp only [State.uses, finishes.control]
    exact fun c no => by cases no
  · exact step_uses stepped

/-- A lazy_task that throws, awaited twice in try blocks, and a task whose result is had twice.
The shared state is the record of who ran. -/
def twice : Prog (List Nat) Nat Bool :=
  .create ⟨true, true⟩ (.compute (· ++ [1]) fun _ => .finish (.threw (.user true)))
    (.create ⟨false, false⟩ (.compute (· ++ [2]) fun _ => .finish (.returned (some 5)))
      (.await 0 fun _ => .await 1 fun _ => .await 0 fun _ =>
        Coroutine.co_await 1 fun v => .finish (.returned (some (v.getD 0)))))

theorem get_memoizes_twice : (need twice [] []).2 = [2, 1] ∧
    ∃ t ∈ StateTransition.eval step (initial ⟨true, false⟩ twice 2 []),
      t.results = [.returned (some 5), .returned (some 5)] := by
  have inScope : Scoped false twice 0 :=
    ⟨fun _ => trivial, ⟨fun _ => rfl, by decide, fun _ => ⟨by decide, fun _ => ⟨by decide, fun _ =>
      ⟨by decide, fun o => by cases o <;> trivial⟩⟩⟩⟩⟩
  obtain ⟨⟨t, ends, finishes⟩, -⟩ := get_memoizes ⟨true, false⟩ twice inScope 2 []
  exact ⟨rfl, t, ends, finishes.results⟩

/-- A slot of the two evaluations: where a child can be had once only, it is gone after that. -/
inductive Same : Slot S V E → Slot S V E → Prop where
  | deferred (call : S → Outcome V E × S) : Same (.deferred call) (.deferred call)
  | ready (result : Outcome V E) : Same (.ready result) (.ready result)
  | awaited (slot : Slot S V E) : Same slot .awaited

/-- A body that awaits each child once sees no difference between the evaluations. -/
theorem need_eval (p : Prog S V E) {isVoid : Bool} {env once : List (Slot S V E)}
    (wellFormed : p.WellFormed isVoid (once.map Slot.isThere)) (same : List.Forall₂ Same env once)
    (s : S) : need p env s = p.eval once s := by
  induction p generalizing isVoid env once s with
  | finish result => rfl
  | compute effect rest ih => exact ih s (wellFormed s) same (effect s)
  | create kind child rest ihc ih =>
    have call : need child [] = child.eval [] := funext fun s => ihc wellFormed.1 .nil s
    have onward : ∀ slot : Slot S V E, slot.isThere = true → Same slot slot → ∀ s,
        need rest (env ++ [slot]) s = rest.eval (once ++ [slot]) s := by
      intro slot there refl s
      have later : rest.WellFormed isVoid ((once ++ [slot]).map Slot.isThere) := by
        rw [List.map_append, List.map_singleton, there]
        exact wellFormed.2
      exact ih later (List.rel_append same (.cons refl .nil)) s
    simp only [need, Prog.eval, call]
    split
    · exact onward _ rfl (.deferred _) s
    · exact onward _ rfl (.ready _) _
  | await i rest ih =>
    obtain ⟨there, wellFormed⟩ := wellFormed
    rw [List.getElem?_map, Option.map_eq_some_iff] at there
    obtain ⟨slot, in_once, is_there⟩ := there
    obtain ⟨slot', in_env, here⟩ := Coroutine.forall₂_getElem? same in_once
    have gone : ∀ (o : Outcome V E) (now : Slot S V E) s,
        need (rest o) (env.set i now) s = (rest o).eval (once.set i .awaited) s := by
      intro o now s
      have later : (rest o).WellFormed isVoid ((once.set i .awaited).map Slot.isThere) := by
        rw [List.map_set]
        exact wellFormed o
      exact ih o later (Coroutine.forall₂_set same i (.awaited now)) s
    cases here with
    | awaited => cases is_there
    | deferred call =>
      simp only [need, Prog.eval, in_env, in_once]
      exact gone ..
    | ready result =>
      have still : env.set i (.ready result) = env := by
        obtain ⟨inside, eq⟩ := List.getElem?_eq_some_iff.mp in_env
        rw [← eq, List.set_getElem_self]
      have later := gone result (.ready result) s
      rw [still] at later
      simp only [need, Prog.eval, in_env, in_once]
      exact later

theorem wellFormed_scoped (p : Prog S V E) {isVoid : Bool} {there : List Bool}
    (wellFormed : p.WellFormed isVoid there) : Scoped isVoid p there.length := by
  induction p generalizing isVoid there with
  | finish result => exact wellFormed
  | compute effect rest ih => exact fun s => ih s (wellFormed s)
  | create kind child rest ihc ih =>
    have later := ih wellFormed.2
    rw [List.length_append] at later
    exact ⟨ihc wellFormed.1, later⟩
  | await i rest ih =>
    refine ⟨(List.getElem?_eq_some_iff.mp wellFormed.1).1, fun o => ?_⟩
    have later := ih o (wellFormed.2 o)
    rwa [List.length_set] at later

/-- Where every child is awaited once at most, get() of the module and get() of the headers give
the same, and the bodies do the same to what they share. -/
theorem implementations_agree (kind : Kind) (p : Prog S V E)
    (wellFormed : p.WellFormed kind.isVoid []) (more : Nat) (shared : S) :
    ∃ t ∈ StateTransition.eval step (initial kind p (more + 1) shared),
      ∃ u result, (∃ fuel, ∀ longer, fuel ≤ longer →
        Coroutine.run longer (Coroutine.initial kind p shared) = u) ∧
      u.control = .returned result ∧ t.results = List.replicate (more + 1) result ∧
      t.shared = u.shared := by
  obtain ⟨t, steps, finishes⟩ := root_finishes kind (wellFormed_scoped p wellFormed) (more + 1) shared
  rw [if_neg fun both => Nat.succ_ne_zero more both.2, need_eval p wellFormed .nil] at finishes
  have terminal : step t = none := by simp only [step, finishes.control]
  obtain ⟨u, runs, control, shared', -⟩ := Coroutine.root_runs kind wellFormed shared
  exact ⟨t, StateTransition.mem_eval.mpr ⟨steps, terminal⟩, u, _,
    Coroutine.run_steps runs (Coroutine.step_returned control), control, finishes.results,
    finishes.shared.trans shared'.symm⟩

theorem implementations_agree_fibonacci :
    ∃ t ∈ StateTransition.eval step
        (initial ⟨true, false⟩ (Coroutine.fibonacci_lazy 7 : Prog Unit Nat Bool) 1 ()),
      ∃ u result, (∃ fuel, ∀ longer, fuel ≤ longer → Coroutine.run longer
        (Coroutine.initial ⟨true, false⟩ (Coroutine.fibonacci_lazy 7 : Prog Unit Nat Bool) ()) = u) ∧
      u.control = .returned result ∧ t.results = [result] ∧ t.shared = u.shared :=
  implementations_agree ⟨true, false⟩ (Coroutine.fibonacci_lazy 7)
    (Coroutine.fibonacci_wellFormed 7) 0 ()

end Pot.CoroutineModule
