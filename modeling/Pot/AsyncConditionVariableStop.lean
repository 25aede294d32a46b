import Pot.AsyncConditionVariableChains

/-! stop() takes the awaiters of the variable and resumes none of them. They are the only ones that
no set() can reach again, and they stay suspended whatever happens later. -/
namespace Pot.AsyncConditionVariable
open Transition LinkedLists

variable {Cid Tid : Type}

theorem Chains.unique {s : State Cid Tid} {chain chain' : Option Tid → List Cid}
    (h : Chains s chain) (h' : Chains s chain') : chain = chain' := by
  funext o
  exact (h.spells o).unique (h'.spells o)

def Abandoned (s : State Cid Tid) (c : Cid) : Prop :=
  s.pc c = .suspended ∧ ∀ chain, Chains s chain → ∀ o, c ∉ chain o

theorem abandoned_iff {s : State Cid Tid} {chain : Option Tid → List Cid} (h : Chains s chain)
    (c : Cid) : Abandoned s c ↔ s.pc c = .suspended ∧ ∀ o, c ∉ chain o := by
  refine and_congr_right fun _ => ⟨fun nowhere => nowhere chain h, fun nowhere chain' h' => ?_⟩
  rw [h'.unique h]
  exact nowhere

/-- The awaiters that stop() is about to take. -/
def State.stops (s : State Cid Tid) (t : Tid) (c : Cid) : Prop :=
  s.call t = .drop ∧ ∃ l, Spells s.next s.m_awaiter_head l ∧ c ∈ l

theorem abandoned_congr {s u : State Cid Tid} {chain : Option Tid → List Cid} (h : Chains s chain)
    (h' : Chains u chain) {c : Cid} (same : u.pc c = .suspended ↔ s.pc c = .suspended) :
    Abandoned u c ↔ Abandoned s c := by
  rw [abandoned_iff h, abandoned_iff h', same]

variable [DecidableEq Cid]

theorem abandoned_goto {s u : State Cid Tid} {chain : Option Tid → List Cid} {d : Cid} {p : Pc Cid}
    (h : Chains s chain) (before : s.pc d ≠ .suspended) (after : p ≠ .suspended)
    (head : u.m_awaiter_head = s.m_awaiter_head) (call : u.call = s.call)
    (next : u.next = s.next ∨ ∃ link, u.next = Function.update s.next d link)
    {c : Cid}
    (pc : u.pc = Function.update s.pc d p) : Abandoned u c ↔ Abandoned s c := by
  refine abandoned_congr h (h.goto before head call next pc) ?_
  by_cases here : c = d
  · subst here
    rw [pc, Function.update_self]
    exact ⟨fun no => absurd no after, fun no => absurd no before⟩
  · rw [pc, Function.update_of_ne here]

variable [DecidableEq Tid]

/-- Only what stop() takes is abandoned, and for good. -/
theorem step_abandoned {s u : State Cid Tid} {chain : Option Tid → List Cid} {a : Act Cid Tid}
    (h : Chains s chain) (taken : step s a = some u) (c : Cid) :
    Abandoned u c ↔ Abandoned s c ∨ ∃ t, a = .call t ∧ s.stops t c := by
  have unstopped : (∀ t, a = .call t → s.call t ≠ .drop) → (Abandoned u c ↔ Abandoned s c) →
      (Abandoned u c ↔ Abandoned s c ∨ ∃ t, a = .call t ∧ s.stops t c) := by
    intro other same
    rw [same]
    exact ⟨.inl, fun either => either.resolve_right fun ⟨t, act, drops, _⟩ => other t act drops⟩
  cases step_cases taken with
  | ready at_pc | unready at_pc | load at_pc =>
    refine unstopped (fun t no => by cases no) ?_
    exact abandoned_goto (u := s.goto _ _) h (by simp [at_pc]) (by simp) rfl rfl (.inl rfl) rfl
  | resume at_pc =>
    refine unstopped (fun t no => by cases no) ?_
    exact abandoned_goto (u := (reset s).goto _ _) h (by simp [at_pc]) (by simp) rfl rfl (.inl rfl)
      rfl
  | @again d spurious old_head at_pc =>
    refine unstopped (fun t no => by cases no) ?_
    let linked := { s with next := Function.update s.next d old_head }
    exact abandoned_goto (u := linked.goto _ _) h (by simp [at_pc]) (by simp) rfl rfl
      (.inr ⟨_, rfl⟩) rfl
  | @set t at_pc =>
    refine unstopped (fun t no => by cases no) ?_
    have after : Chains ({ s with m_set_state := true }.setCall t .exchange) chain :=
      h.setCall (by rw [at_pc]; rfl) rfl rfl rfl rfl
    exact abandoned_congr h after Iff.rfl
  | @stop t at_pc =>
    refine unstopped (fun t no => by cases no) ?_
    have after : Chains ((reset s).setCall t .drop) chain :=
      h.setCall (by rw [at_pc]; rfl) rfl rfl rfl rfl
    exact abandoned_congr h after Iff.rfl
  | @finish t at_pc =>
    refine unstopped (fun t same => by cases same; rw [at_pc]; simp) ?_
    have after : Chains (s.setCall t .idle) chain :=
      h.setCall (by rw [at_pc]; rfl) rfl rfl rfl rfl
    exact abandoned_congr h after Iff.rfl
  | reset =>
    refine unstopped (fun t no => by cases no) ?_
    have after : Chains (reset s) chain := h.congr (fun o => by cases o <;> rfl) rfl rfl
    exact abandoned_congr h after Iff.rfl
  | @link d at_pc =>
    refine unstopped (fun t no => by cases no) ?_
    have before : s.pc d ≠ .suspended := by rw [at_pc]; simp
    rw [abandoned_iff h, abandoned_iff (h.link before)]
    by_cases here : c = d
    · subst here
      refine ⟨fun gone => ?_, fun gone => absurd gone.1 before⟩
      have absent := gone.2 none
      rw [Function.update_self] at absent
      exact absurd List.mem_cons_self absent
    · simp only [State.goto, Function.update_of_ne here]
      refine and_congr_right fun _ => forall_congr' fun o => ?_
      rw [Function.update_apply]
      split
      · rename_i same
        subst same
        rw [List.mem_cons, not_or]
        exact ⟨fun both => both.2, fun absent => ⟨here, absent⟩⟩
      · exact Iff.rfl
  | @exchange t at_pc =>
    refine unstopped (fun t same => by cases same; rw [at_pc]; simp) ?_
    have nothing : chain (some t) = [] := h.empty (by rw [State.first, at_pc]; rfl)
    rw [abandoned_iff h, abandoned_iff h.exchange]
    refine and_congr_right fun _ => ⟨fun gone o => ?_, fun gone o => ?_⟩
    · cases o with
      | none =>
        have absent := gone (some t)
        rwa [Function.update_of_ne (by simp), Function.update_self] at absent
      | some k =>
        by_cases here : k = t
        · rw [here, nothing]
          exact List.not_mem_nil
        · have absent := gone (some k)
          rwa [Function.update_of_ne (by simp), Function.update_of_ne (by simpa using here)] at absent
    · rw [Function.update_apply, Function.update_apply]
      split
      · exact List.not_mem_nil
      · split
        · exact gone none
        · exact gone o
  | @wake t d at_loop waiting =>
    refine unstopped (fun t same => by cases same; rw [at_loop]; simp) ?_
    obtain ⟨rest, split, after⟩ := h.wake at_loop
    rw [abandoned_iff h, abandoned_iff after]
    by_cases here : c = d
    · subst here
      refine ⟨fun gone => ?_, fun gone => absurd (split ▸ List.mem_cons_self) (gone.2 (some t))⟩
      have resumed := gone.1
      simp only [State.goto, Function.update_self] at resumed
      cases resumed
    · simp only [State.goto, State.setCall, Function.update_of_ne here]
      refine and_congr_right fun _ => forall_congr' fun o => ?_
      rw [Function.update_apply]
      split
      · rename_i same
        subst same
        rw [split, List.mem_cons, not_or]
        exact ⟨fun absent => ⟨here, absent⟩, fun both => both.2⟩
      · exact Iff.rfl
  | @drop t at_pc =>
    rw [abandoned_iff h, abandoned_iff (h.drop at_pc)]
    have listed : (∃ k, (Act.call t : Act Cid Tid) = Act.call k ∧ s.stops k c) ↔ c ∈ chain none := by
      constructor
      · rintro ⟨k, same, -, l, spells, mem⟩
        rwa [(h.spells none).unique spells]
      · exact fun mem => ⟨t, rfl, at_pc, chain none, h.spells none, mem⟩
    rw [listed]
    constructor
    · rintro ⟨waits, gone⟩
      by_cases mem : c ∈ chain none
      · exact .inr mem
      · refine .inl ⟨waits, fun o => ?_⟩
        by_cases here : o = none
        · exact here ▸ mem
        · have absent := gone o
          rwa [Function.update_of_ne here] at absent
    · rintro (⟨waits, gone⟩ | mem)
      · refine ⟨waits, fun o => ?_⟩
        rw [Function.update_apply]
        split
        · exact List.not_mem_nil
        · exact gone o
      · refine ⟨h.waits none c mem, fun o other => ?_⟩
        rw [Function.update_apply] at other
        split at other
        · exact List.not_mem_nil other
        · exact ‹¬o = none› (h.apart o none c other mem)

def Stopped (s : State Cid Tid) (as : List (Act Cid Tid)) (c : Cid) : Prop :=
  ∃ bs t cs u, as = bs ++ .call t :: cs ∧ replay (system Cid Tid) s bs = some u ∧ u.stops t c

theorem stopped_snoc {s u : State Cid Tid} {as : List (Act Cid Tid)}
    (run : replay (system Cid Tid) s as = some u) (a : Act Cid Tid) (c : Cid) :
    Stopped s (as ++ [a]) c ↔ Stopped s as c ∨ ∃ t, a = .call t ∧ u.stops t c := by
  constructor
  · rintro ⟨bs, t, cs, x, split, before, stops⟩
    rcases List.eq_nil_or_concat cs with rfl | ⟨ds, b, rfl⟩
    · obtain ⟨rfl, last⟩ := List.append_inj' split rfl
      cases last
      cases run.symm.trans before
      exact .inr ⟨t, rfl, stops⟩
    · rw [List.concat_eq_append, ← List.cons_append, ← List.append_assoc] at split
      obtain ⟨rfl, -⟩ := List.append_inj' split rfl
      exact .inl ⟨bs, t, ds, x, rfl, before, stops⟩
  · rintro (⟨bs, t, cs, x, rfl, before, stops⟩ | ⟨t, rfl, stops⟩)
    · exact ⟨bs, t, cs ++ [a], x, by rw [List.append_assoc, List.cons_append], before, stops⟩
    · exact ⟨as, t, [], u, rfl, run, stops⟩

/-- The coroutines that are suspended outside of all lists are those a stop() has taken; no set()
of a later step resumes them. -/
theorem stop_abandons {s u : State Cid Tid} (start : (system Cid Tid).start s)
    (as : List (Act Cid Tid)) (run : replay (system Cid Tid) s as = some u) (c : Cid) :
    (Abandoned u c ↔ Stopped s as c) ∧
      (Stopped s as c → ∀ bs v, replay (system Cid Tid) u bs = some v → v.pc c = .suspended) := by
  have taken_away : Abandoned u c ↔ Stopped s as c := by
    induction as using List.reverseRecOn generalizing u with
    | nil =>
      cases run
      obtain ⟨set, rfl⟩ : ∃ set, s = initial set := start
      refine ⟨fun gone => (by cases gone.1), ?_⟩
      rintro ⟨bs, t, cs, _, no, -⟩
      exact absurd no.symm (by simp)
    | append_singleton as a ih =>
      obtain ⟨x, before, taken⟩ := replay_snoc as a run
      obtain ⟨chain, h⟩ := reached_chains ((Reached.start start).replay as before)
      rw [step_abandoned h taken, stopped_snoc before, ih before]
  refine ⟨taken_away, fun stopped bs v onward => ?_⟩
  have reached := (Reached.start start).replay as run
  have gone := replay_invariant (I := fun x => Reached (system Cid Tid) x ∧ Abandoned x c)
    (fun x a y h taken => by
      obtain ⟨chain, lists⟩ := reached_chains h.1
      exact ⟨h.1.next taken, (step_abandoned lists taken c).mpr (.inl h.2)⟩)
    ⟨reached, taken_away.mpr stopped⟩ bs onward
  exact gone.2.1

/-- Two coroutines wait; one of two threads takes them with stop() before the other's set(). -/
def stoppedFirst : List (Act Bool Bool) :=
  [.coAwait true, .go true false, .go true false, .coAwait false, .go false false, .go false false,
    .stop true, .set false, .call true, .call false, .call false]

def abandonedBoth : State Bool Bool :=
  (replay (system Bool Bool) (initial false) stoppedFirst).get (by decide)

theorem stop_abandons_both : abandonedBoth.m_set_state = true ∧
    Stopped (initial false) stoppedFirst true ∧ abandonedBoth.pc true = .suspended := by
  have stopped : Stopped (initial false) stoppedFirst true :=
    ⟨stoppedFirst.take 8, true, stoppedFirst.drop 9, _, rfl, (Option.some_get (by decide)).symm,
      by decide, [false, true], by simp [LinkedLists.Spells]; decide, by simp⟩
  have run : replay (system Bool Bool) (initial false) stoppedFirst = some abandonedBoth :=
    (Option.some_get _).symm
  have after := stop_abandons ⟨false, rfl⟩ stoppedFirst run true
  exact ⟨by decide, stopped, after.2 stopped [] abandonedBoth rfl⟩

/-- A set() is about to resume a coroutine only while it is suspended, no other set() has it in its
list, and it is not in the list of the variable. -/
theorem resumes_once {s : State Cid Tid} (reached : Reached (system Cid Tid) s) {t : Tid} {c : Cid}
    (at_loop : s.call t = .loop (some c)) : s.pc c = .suspended ∧
      (∀ u l, Spells s.next (s.call u).head l → c ∈ l → u = t) ∧
      ∀ l, Spells s.next s.m_awaiter_head l → c ∉ l := by
  obtain ⟨chain, h⟩ := reached_chains reached
  obtain ⟨rest, split, -⟩ := h.wake at_loop
  have first : c ∈ chain (some t) := split ▸ List.mem_cons_self
  refine ⟨h.waits (some t) c first, fun u l spells mem => ?_, fun l spells mem => ?_⟩
  · have listed : c ∈ chain (some u) := (h.spells (some u)).unique spells ▸ mem
    exact Option.some.inj (h.apart (some u) (some t) c listed first)
  · have listed : c ∈ chain none := (h.spells none).unique spells ▸ mem
    cases h.apart none (some t) c listed first

/-- set() has taken the one coroutine that waits. -/
def aboutToResume : State Bool Bool :=
  (replay (system Bool Bool) (initial false)
    [.coAwait true, .go true false, .go true false, .set false, .call false]).get (by decide)

theorem resumes_once_about : aboutToResume.pc true = .suspended := by
  have start : (system Bool Bool).start (initial false) := ⟨false, rfl⟩
  have reached : Reached (system Bool Bool) aboutToResume :=
    (Reached.start start).replay _ (Option.some_get _).symm
  have at_loop : aboutToResume.call false = .loop (some true) := by decide
  exact (resumes_once reached at_loop).1

end Pot.AsyncConditionVariable
