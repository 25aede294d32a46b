import Mathlib.Logic.Function.Basic

/-! Guarded transition systems. A step is a partial function of the label, so the guard a
proof splits on is the guard a replay runs. Runs may be restricted to the steps that meet a
condition; an unrestricted run is the case where every step does. -/
namespace Transition

structure System (S A : Type*) where
  start : S → Prop
  step : S → A → Option S

variable {S A : Type*}

/-- The states of the runs whose every step meets `ok` in the state it is taken from. -/
inductive ReachedUnder (sys : System S A) (ok : S → A → Prop) : S → Prop where
  | start {s} : sys.start s → ReachedUnder sys ok s
  | next {s a t} : ReachedUnder sys ok s → ok s a → sys.step s a = some t → ReachedUnder sys ok t

def Reached (sys : System S A) : S → Prop := ReachedUnder sys (fun _ _ => True)

def replay (sys : System S A) (s : S) : List A → Option S
  | [] => some s
  | a :: rest => (sys.step s a).bind (fun t => replay sys t rest)

/-- Nothing is enabled: a run that ends here is maximal. -/
def Terminal (sys : System S A) (s : S) : Prop := ∀ a, sys.step s a = none

theorem ReachedUnder.invariant {sys : System S A} {ok : S → A → Prop} {I : S → Prop}
    (initial : ∀ s, sys.start s → I s)
    (preserves : ∀ s a t, I s → ok s a → sys.step s a = some t → I t)
    {s : S} (reached : ReachedUnder sys ok s) : I s := by
  induction reached with
  | start h => exact initial _ h
  | next _ hok hstep ih => exact preserves _ _ _ ih hok hstep

theorem Reached.invariant {sys : System S A} {I : S → Prop}
    (initial : ∀ s, sys.start s → I s)
    (preserves : ∀ s a t, I s → sys.step s a = some t → I t)
    {s : S} (reached : Reached sys s) : I s :=
  ReachedUnder.invariant initial (fun s a t h _ => preserves s a t h) reached

theorem Reached.start {sys : System S A} {s : S} (h : sys.start s) : Reached sys s :=
  ReachedUnder.start h

theorem Reached.next {sys : System S A} {s t : S} {a : A} (h : Reached sys s)
    (hstep : sys.step s a = some t) : Reached sys t :=
  ReachedUnder.next h trivial hstep

theorem ReachedUnder.reached {sys : System S A} {ok : S → A → Prop} {s : S}
    (h : ReachedUnder sys ok s) : Reached sys s := by
  induction h with
  | start h => exact .start h
  | next _ _ hstep ih => exact ih.next hstep

theorem ReachedUnder.mono {sys : System S A} {ok ok' : S → A → Prop} {s : S}
    (weaker : ∀ s a, ok s a → ok' s a) (h : ReachedUnder sys ok s) : ReachedUnder sys ok' s := by
  induction h with
  | start h => exact .start h
  | next _ hok hstep ih => exact ih.next (weaker _ _ hok) hstep

theorem replay_invariant {sys : System S A} {I : S → Prop}
    (preserves : ∀ s a t, I s → sys.step s a = some t → I t) {s t : S} (h : I s) (as : List A)
    (run : replay sys s as = some t) : I t := by
  induction as generalizing s with
  | nil => cases run; exact h
  | cons a as ih =>
    simp only [replay, Option.bind_eq_some_iff] at run
    obtain ⟨u, hu, rest⟩ := run
    exact ih (preserves s a u h hu) rest

/-- The invariant of a run of some of the labels. -/
theorem replay_among {sys : System S A} {I : S → Prop} {mine : A → Prop}
    (preserves : ∀ s a t, I s → mine a → sys.step s a = some t → I t) {s t : S} (h : I s)
    (as : List A) (all : ∀ a ∈ as, mine a) (run : replay sys s as = some t) : I t := by
  induction as generalizing s with
  | nil => cases run; exact h
  | cons a as ih =>
    simp only [Transition.replay, Option.bind_eq_some_iff] at run
    obtain ⟨u, hu, rest⟩ := run
    exact ih (preserves s a u h (all a List.mem_cons_self) hu)
      (fun b mem => all b (List.mem_cons_of_mem a mem)) rest

theorem Reached.replay {sys : System S A} {s t : S} (h : Reached sys s) (as : List A)
    (run : replay sys s as = some t) : Reached sys t :=
  replay_invariant (fun _ _ _ before hstep => before.next hstep) h as run

theorem update_outside {ι β : Type*} [DecidableEq ι] (f : ι → β) (i : ι) (b : β) (j : ι)
    (other : j ∉ [i]) : Function.update f i b j = f j :=
  Function.update_of_ne (fun same => other (List.mem_singleton.mpr same)) ..

/-- When each step moves finitely many parties, all but finitely many are still at home. -/
theorem ReachedUnder.support {ι β : Type*} {sys : System S A} {ok : S → A → Prop}
    (place : S → ι → β) (home : β) (starts : ∀ s, sys.start s → ∀ i, place s i = home)
    (moves : ∀ s a t, sys.step s a = some t → ∃ l : List ι, ∀ i, i ∉ l → place t i = place s i)
    {s : S} (h : ReachedUnder sys ok s) : ∃ l : List ι, ∀ i, i ∉ l → place s i = home := by
  induction h with
  | start h => exact ⟨[], fun i _ => starts _ h i⟩
  | next _ _ hstep ih =>
    obtain ⟨l, hl⟩ := ih
    obtain ⟨m, hm⟩ := moves _ _ _ hstep
    refine ⟨m ++ l, fun i outside => ?_⟩
    rw [List.mem_append, not_or] at outside
    exact (hm i outside.1).trans (hl i outside.2)

/-- What a step of `sys` does to the view is a step of `spec` or nothing. -/
structure Simulates {S' A' : Type*} (sys : System S A) (spec : System S' A') (view : S → S') :
    Prop where
  start : ∀ s, sys.start s → spec.start (view s)
  step : ∀ s a t, Reached sys s → sys.step s a = some t →
    view t = view s ∨ ∃ b, spec.step (view s) b = some (view t)

theorem Simulates.reached {S' A' : Type*} {sys : System S A} {spec : System S' A'} {view : S → S'}
    (sim : Simulates sys spec view) {s : S} (h : Reached sys s) : Reached spec (view s) := by
  induction h with
  | start h => exact .start (sim.start _ h)
  | next before _ hstep ih =>
    rcases sim.step _ _ _ before hstep with same | ⟨b, hb⟩
    · exact same ▸ ih
    · exact ih.next hb

/-- A system of larger steps, each of which is a run of the smaller ones. -/
structure Coarsens {A' : Type*} (coarse : System S A') (fine : System S A) : Prop where
  start : ∀ s, coarse.start s → fine.start s
  step : ∀ s a t, coarse.step s a = some t → ∃ as, replay fine s as = some t

theorem Coarsens.reached {A' : Type*} {coarse : System S A'} {fine : System S A}
    (sim : Coarsens coarse fine) {s : S} (h : Reached coarse s) : Reached fine s := by
  induction h with
  | start h => exact .start (sim.start _ h)
  | next _ _ hstep ih =>
    obtain ⟨as, run⟩ := sim.step _ _ _ hstep
    exact ih.replay as run

theorem replay_cons {sys : System S A} {s t : S} {a : A} (hstep : sys.step s a = some t)
    (as : List A) : replay sys s (a :: as) = replay sys t as := by
  rw [replay, hstep, Option.bind_some]

theorem replay_append {sys : System S A} {s t : S} (as bs : List A)
    (run : replay sys s as = some t) : replay sys s (as ++ bs) = replay sys t bs := by
  induction as generalizing s with
  | nil => cases run; rfl
  | cons a as ih =>
    simp only [replay, Option.bind_eq_some_iff] at run
    obtain ⟨u, hu, rest⟩ := run
    exact (replay_cons hu (as ++ bs)).trans (ih rest)

theorem replay_split {sys : System S A} {s u : S} (as bs : List A)
    (run : replay sys s (as ++ bs) = some u) :
    ∃ t, replay sys s as = some t ∧ replay sys t bs = some u := by
  induction as generalizing s with
  | nil => exact ⟨s, rfl, run⟩
  | cons a as ih =>
    rw [List.cons_append] at run
    simp only [replay, Option.bind_eq_some_iff] at run
    obtain ⟨v, hv, rest⟩ := run
    obtain ⟨t, first, last⟩ := ih rest
    exact ⟨t, (replay_cons hv as).trans first, last⟩

theorem replay_snoc {sys : System S A} {s u : S} (as : List A) (a : A)
    (run : replay sys s (as ++ [a]) = some u) :
    ∃ t, replay sys s as = some t ∧ sys.step t a = some u := by
  obtain ⟨t, first, last⟩ := replay_split as [a] run
  simp only [replay, Option.bind_eq_some_iff] at last
  obtain ⟨_, taken, same⟩ := last
  exact ⟨t, first, same ▸ taken⟩

/-- Only the steps that meet a condition. -/
def System.guarded (sys : System S A) (ok : S → A → Prop) [∀ s a, Decidable (ok s a)] :
    System S A where
  start := sys.start
  step s a := if ok s a then sys.step s a else none

section Guarded

variable {sys : System S A} {ok : S → A → Prop} [∀ s a, Decidable (ok s a)]

theorem guarded_step {s t : S} {a : A} :
    (sys.guarded ok).step s a = some t ↔ ok s a ∧ sys.step s a = some t := by
  simp only [System.guarded]
  split
  · rename_i meets
    exact (and_iff_right meets).symm
  · rename_i fails
    exact iff_of_false nofun fun taken => fails taken.1

theorem replay_of_guarded {s t : S} (as : List A) (run : replay (sys.guarded ok) s as = some t) :
    replay sys s as = some t := by
  induction as generalizing s with
  | nil => exact run
  | cons a as ih =>
    simp only [replay, Option.bind_eq_some_iff] at run
    obtain ⟨u, taken, rest⟩ := run
    exact (replay_cons (guarded_step.mp taken).2 as).trans (ih rest)

/-- A run of some of the labels whose invariant gives the condition. -/
theorem replay_guarded {I : S → Prop} {mine : A → Prop}
    (preserves : ∀ s a t, I s → mine a → sys.step s a = some t → I t)
    (meets : ∀ s a, I s → mine a → ok s a) {s t : S} (h : I s) (as : List A)
    (all : ∀ a ∈ as, mine a) (run : replay sys s as = some t) :
    replay (sys.guarded ok) s as = some t := by
  induction as generalizing s with
  | nil => exact run
  | cons a as ih =>
    simp only [replay, Option.bind_eq_some_iff] at run
    obtain ⟨u, taken, rest⟩ := run
    have mine := all a List.mem_cons_self
    exact (replay_cons (guarded_step.mpr ⟨meets s a h mine, taken⟩) as).trans
      (ih (preserves s a u h mine taken) (fun b mem => all b (List.mem_cons_of_mem a mem)) rest)

end Guarded

/-- Some run from `s` comes to a state with `P`. -/
def Leads (sys : System S A) (s : S) (P : S → Prop) : Prop :=
  ∃ as t, replay sys s as = some t ∧ P t

theorem Leads.now {sys : System S A} {s : S} {P : S → Prop} (h : P s) : Leads sys s P :=
  ⟨[], s, rfl, h⟩

theorem Leads.mono {sys : System S A} {s : S} {P Q : S → Prop} (h : Leads sys s P)
    (weaker : ∀ t, P t → Q t) : Leads sys s Q := by
  obtain ⟨as, t, run, ht⟩ := h
  exact ⟨as, t, run, weaker t ht⟩

theorem Leads.next {sys : System S A} {s t : S} {a : A} {P : S → Prop}
    (hstep : sys.step s a = some t) (h : Leads sys t P) : Leads sys s P := by
  obtain ⟨as, u, run, hu⟩ := h
  exact ⟨a :: as, u, (replay_cons hstep as).trans run, hu⟩

theorem Leads.trans {sys : System S A} {s : S} {P Q : S → Prop} (first : Leads sys s P)
    (second : ∀ t, P t → Leads sys t Q) : Leads sys s Q := by
  obtain ⟨as, t, ha, ht⟩ := first
  obtain ⟨bs, u, hb, hu⟩ := second t ht
  exact ⟨as ++ bs, u, (replay_append as bs ha).trans hb, hu⟩

/-- When each party can be brought to `H` without moving the others, all can be. -/
theorem leads_home {P : Type*} {sys : System S A} {I : S → Prop} {H : S → P → Prop}
    (one : ∀ s p, I s → Leads sys s fun t => I t ∧ H t p ∧ ∀ q, q ≠ p → H s q → H t q)
    (away : List P) {s : S} (h : I s) (others : ∀ p, p ∉ away → H s p) :
    Leads sys s fun t => I t ∧ ∀ p, H t p := by
  induction away generalizing s with
  | nil => exact .now ⟨h, fun p => others p List.not_mem_nil⟩
  | cons p away ih =>
    refine (one s p h).trans fun t ⟨ht, here, kept⟩ => ih ht fun q outside => ?_
    by_cases same : q = p
    · exact same ▸ here
    · exact kept q same (others q fun mem => (List.mem_cons.mp mem).elim same outside)

/-- A bound that can be lowered as long as `P` does not hold. -/
theorem Leads.lowers {sys : System S A} {I : S → Nat → Prop} {P : S → Prop}
    (lower : ∀ s k, I s k → P s ∨ Leads sys s fun t => ∃ j, j < k ∧ I t j) {s : S} {k : Nat}
    (h : I s k) : Leads sys s P := by
  induction k using Nat.strongRecOn generalizing s with
  | ind k ih =>
    rcases lower s k h with done | further
    · exact .now done
    · exact further.trans fun t ⟨j, less, ht⟩ => ih j less ht

/-- Allowed steps that lower a measure come to where no step is allowed. -/
theorem settles {sys : System S A} {ok : S → A → Prop} {I : S → Prop} (measure : S → Nat)
    (keeps : ∀ s a t, I s → ok s a → sys.step s a = some t → I t ∧ measure t < measure s) {s : S}
    (h : I s) : ∃ t, I t ∧ ∀ a, ok t a → sys.step t a = none := by
  induction k : measure s using Nat.strongRecOn generalizing s with
  | ind k ih =>
    by_cases stuck : ∀ a, ok s a → sys.step s a = none
    · exact ⟨s, h, stuck⟩
    · obtain ⟨a, more⟩ := not_forall.mp stuck
      obtain ⟨allowed, some⟩ := Classical.not_imp.mp more
      obtain ⟨t, taken⟩ := Option.ne_none_iff_exists'.mp some
      obtain ⟨ht, less⟩ := keeps s a t h allowed taken
      exact ih (measure t) (k ▸ less) ht rfl

/-- Of two runs of the only label one continues the other. -/
theorem replay_comparable {sys : System S Unit} {s t u : S} (as bs : List Unit)
    (left : replay sys s as = some t) (right : replay sys s bs = some u) :
    (∃ cs, replay sys t cs = some u) ∨ ∃ cs, replay sys u cs = some t := by
  induction as generalizing s bs with
  | nil => cases left; exact .inl ⟨bs, right⟩
  | cons a as ih =>
    cases bs with
    | nil => cases right; exact .inr ⟨a :: as, left⟩
    | cons b bs =>
      simp only [replay, Option.bind_eq_some_iff] at left right
      obtain ⟨v, hv, left⟩ := left
      obtain ⟨w, hw, right⟩ := right
      have same : v = w := Option.some.inj (hv.symm.trans hw)
      exact ih bs left (same ▸ right)

/-- A system with one label that repeats a state for ever has no maximal run. -/
theorem replay_livelock {sys : System S Unit} {s t u : S} (as bs : List Unit)
    (run : replay sys s as = some t) (repeats : sys.step t () = some t)
    (other : replay sys s bs = some u) : ¬ Terminal sys u := by
  intro terminal
  have stays : ∀ cs v, replay sys t cs = some v → v = t := fun cs v h =>
    replay_invariant (I := fun x => x = t)
      (fun x _ y at_t hstep => by rw [at_t, repeats] at hstep; exact (Option.some.inj hstep).symm)
      rfl cs h
  have ends : ∀ cs v, replay sys u cs = some v → v = u := fun cs v h =>
    replay_invariant (I := fun x => x = u)
      (fun x a y at_u hstep => by rw [at_u, terminal a] at hstep; contradiction)
      rfl cs h
  have same : u = t := by
    rcases replay_comparable as bs run other with ⟨cs, onward⟩ | ⟨cs, onward⟩
    · exact stays cs u onward
    · exact (ends cs t onward).symm
  rw [← same, terminal ()] at repeats
  contradiction

/-- Every label of the list is enabled and meets `ok` where it is taken. -/
def ReplaysUnder (sys : System S A) (ok : S → A → Prop) (s : S) : List A → Prop
  | [] => True
  | a :: rest => ok s a ∧
    match sys.step s a with
    | some t => ReplaysUnder sys ok t rest
    | none => False

instance ReplaysUnder.decidable (sys : System S A) (ok : S → A → Prop)
    [∀ s a, Decidable (ok s a)] (s : S) : (as : List A) → Decidable (ReplaysUnder sys ok s as)
  | [] => .isTrue trivial
  | a :: rest =>
    match h : sys.step s a with
    | none => .isFalse fun allowed => by
      simp only [ReplaysUnder, h] at allowed
      exact allowed.2
    | some t =>
      have := ReplaysUnder.decidable sys ok t rest
      decidable_of_iff (ok s a ∧ ReplaysUnder sys ok t rest) (by simp only [ReplaysUnder, h])

theorem ReachedUnder.replay {sys : System S A} {ok : S → A → Prop} {s t : S}
    (h : ReachedUnder sys ok s) (as : List A) (allowed : ReplaysUnder sys ok s as)
    (run : replay sys s as = some t) : ReachedUnder sys ok t := by
  induction as generalizing s with
  | nil => cases run; exact h
  | cons a as ih =>
    simp only [Transition.replay, Option.bind_eq_some_iff] at run
    obtain ⟨u, hu, rest⟩ := run
    obtain ⟨hok, allowed⟩ := allowed
    rw [hu] at allowed
    exact ih (h.next hok hu) allowed rest

theorem replaysUnder_cons {sys : System S A} {ok : S → A → Prop} {s t : S} {a : A}
    (hstep : sys.step s a = some t) (as : List A) :
    ReplaysUnder sys ok s (a :: as) ↔ ok s a ∧ ReplaysUnder sys ok t as := by
  rw [ReplaysUnder, hstep]

/-- A run keeps `G` as long as its steps meet `ok`; one that does not leaves `B` for good. -/
theorem replay_verdict {sys : System S A} {ok : S → A → Prop} {G B : S → Prop}
    (keeps : ∀ s a t, G s → ok s a → sys.step s a = some t → G t)
    (breaks : ∀ s a t, G s → ¬ ok s a → sys.step s a = some t → B t)
    (stays : ∀ s a t, B s → sys.step s a = some t → B t) {s t : S} (h : G s) (as : List A)
    (run : replay sys s as = some t) :
    ReplaysUnder sys ok s as ∧ G t ∨ ¬ ReplaysUnder sys ok s as ∧ B t := by
  induction as generalizing s with
  | nil => cases run; exact .inl ⟨trivial, h⟩
  | cons a as ih =>
    simp only [Transition.replay, Option.bind_eq_some_iff] at run
    obtain ⟨u, hu, rest⟩ := run
    rw [replaysUnder_cons hu]
    by_cases hok : ok s a
    · rcases ih (keeps s a u h hok hu) rest with ⟨all, good⟩ | ⟨not_all, bad⟩
      · exact .inl ⟨⟨hok, all⟩, good⟩
      · exact .inr ⟨fun both => not_all both.2, bad⟩
    · exact .inr ⟨fun both => hok both.1, replay_invariant stays (breaks s a u h hok hu) as rest⟩

/-- What the steps of a run show, in their order. -/
def shown {O : Type*} (sys : System S A) (see : S → A → Option O) (s : S) : List A → List O
  | [] => []
  | a :: rest =>
    match sys.step s a with
    | some t => (see s a).toList ++ shown sys see t rest
    | none => []

theorem shown_invariant {O : Type*} {sys : System S A} {see : S → A → Option O}
    {I : S → List O → Prop}
    (keeps : ∀ s a t log, I s log → sys.step s a = some t → I t (log ++ (see s a).toList))
    {s t : S} {log : List O} (h : I s log) (as : List A) (run : replay sys s as = some t) :
    I t (log ++ shown sys see s as) := by
  induction as generalizing s log with
  | nil =>
    cases run
    rw [shown, List.append_nil]
    exact h
  | cons a as ih =>
    simp only [Transition.replay, Option.bind_eq_some_iff] at run
    obtain ⟨u, taken, rest⟩ := run
    have later := ih (keeps s a u log h taken) rest
    rw [List.append_assoc] at later
    rw [shown, taken]
    exact later

/-- A measure that every step of a run lowers bounds the length of the run. -/
theorem replay_bounded (sys : System S A) {I : S → Prop} (measure : S → Nat)
    (preserves : ∀ s a t, I s → sys.step s a = some t → I t)
    (lowers : ∀ s a t, I s → sys.step s a = some t → measure t < measure s)
    {s t : S} (h : I s) (as : List A) (run : replay sys s as = some t) :
    as.length + measure t ≤ measure s := by
  induction as generalizing s with
  | nil => cases run; simp
  | cons a as ih =>
    simp only [Transition.replay, Option.bind_eq_some_iff] at run
    obtain ⟨u, hu, rest⟩ := run
    have tail := ih (preserves s a u h hu) rest
    have head := lowers s a u h hu
    rw [List.length_cons]
    omega

/-- A label that stays enabled and lowers a measure until `home` is taken until `home`. -/
theorem replay_home (sys : System S A) (I home : S → Prop) (measure : S → Nat) (a : A)
    (moves : ∀ s, I s → ¬ home s → ∃ t, sys.step s a = some t ∧ I t ∧ measure t < measure s)
    {s : S} (h : I s) : ∃ n t, replay sys s (List.replicate n a) = some t ∧ I t ∧ home t := by
  induction hm : measure s using Nat.strongRecOn generalizing s with
  | ind m ih =>
    by_cases there : home s
    · exact ⟨0, s, rfl, h, there⟩
    · obtain ⟨t, hstep, ht, lower⟩ := moves s h there
      obtain ⟨n, u, run, hu, home⟩ := ih (measure t) (hm ▸ lower) ht rfl
      refine ⟨n + 1, u, ?_, hu, home⟩
      rw [List.replicate_succ, replay_cons hstep]
      exact run

end Transition
