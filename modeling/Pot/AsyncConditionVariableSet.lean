import Pot.AsyncConditionVariableNesting
import Mathlib.Algebra.BigOperators.Group.Finset.Basic
import Mathlib.Algebra.Order.BigOperators.Group.List
import Mathlib.Algebra.Order.Ring.Nat

/-! set() on one thread returns, and what it has resumed by then. Every access on the thread uses
up what the coroutines on the stack and in the lists can still do. -/
namespace Pot.AsyncConditionVariableThread
open Transition LinkedLists AsyncConditionVariable
open scoped BigOperators

variable {m t : Thread} {chain : Option Nat → List Nat}

/-- How many accesses a frame can still make before the coroutine on it waits or ends. -/
def frame (s : AsyncConditionVariable.State Nat Nat) : Frame → Nat
  | .body rest => 12 * rest.length + 1
  | .awaiting a rest => match s.pc a with
    | .running => 12 * rest.length + 2
    | .awaitResume => 12 * rest.length + 3
    | .compareExchange _ => 12 * rest.length + 8
    | .loadHead => 12 * rest.length + 9
    | .suspended => 1
  | .call n => match s.call n with
    | .idle => 1
    | .exchange => 3
    | .loop _ | .drop => 2

/-- How many a waiting coroutine can make once resumed. -/
def waiting (m : Thread) (a : Nat) : Nat :=
  if m.cv.pc a = .suspended then 12 * (m.handle a).length + 5 else 0

def potential (m : Thread) : Nat :=
  (m.stack.map (frame m.cv)).sum + ∑ a ∈ Finset.range m.awaiters, waiting m a

/-- The frames below the one on top do not gain. -/
theorem potential_lt {f : Frame} {l below : List Frame} (top : m.stack = f :: below)
    (stack : t.stack = l ++ below) (kept : ∀ g ∈ below, frame t.cv g ≤ frame m.cv g)
    (lower : (l.map (frame t.cv)).sum + ∑ a ∈ Finset.range t.awaiters, waiting t a <
      frame m.cv f + ∑ a ∈ Finset.range m.awaiters, waiting m a) : potential t < potential m := by
  have rest : (below.map (frame t.cv)).sum ≤ (below.map (frame m.cv)).sum :=
    List.sum_le_sum kept
  rw [potential, potential, top, stack, List.map_append, List.sum_append, List.map_cons,
    List.sum_cons]
  omega

theorem potential_lt_of_same {f : Frame} {l below : List Frame} (top : m.stack = f :: below)
    (stack : t.stack = l ++ below) (kept : ∀ g ∈ below, frame t.cv g ≤ frame m.cv g)
    (awaiters : t.awaiters = m.awaiters) (waits : ∀ a < m.awaiters, waiting t a = waiting m a)
    (lower : (l.map (frame t.cv)).sum < frame m.cv f) : potential t < potential m := by
  refine potential_lt top stack kept ?_
  have sums : ∑ a ∈ Finset.range m.awaiters, waiting t a =
      ∑ a ∈ Finset.range m.awaiters, waiting m a :=
    Finset.sum_congr rfl fun a mem => waits a (Finset.mem_range.mp mem)
  rw [awaiters, sums]
  omega

theorem frame_others {s u : AsyncConditionVariable.State Nat Nat} (shape : Stacked m)
    {f : Frame} {below : List Frame} (top : m.stack = f :: below)
    (calls : ∀ n, .call n ∈ below → frame u (.call n) ≤ frame s (.call n)) :
    ∀ g ∈ below, frame u g ≤ frame s g := by
  intro g mem
  cases g with
  | body rest => exact Nat.le_refl _
  | awaiting a rest => exact absurd mem (shape.below top)
  | call n => exact calls n mem

theorem frame_same {s u : AsyncConditionVariable.State Nat Nat} (shape : Stacked m)
    {f : Frame} {below : List Frame} (top : m.stack = f :: below) (call : u.call = s.call) :
    ∀ g ∈ below, frame u g ≤ frame s g :=
  frame_others shape top fun n _ => by simp only [frame, call]; exact Nat.le_refl _

theorem frame_setCall {n : Nat} {p : Call Nat} {u : AsyncConditionVariable.State Nat Nat}
    (call : u.call = Function.update m.cv.call n p)
    (lower : frame u (.call n) ≤ frame m.cv (.call n)) (k : Nat) :
    frame u (.call k) ≤ frame m.cv (.call k) := by
  by_cases same : k = n
  · exact same ▸ lower
  · simp only [frame, call, Function.update_of_ne same]
    exact Nat.le_refl _

theorem waiting_update {a : Nat} {p : Pc Nat} (before : m.cv.pc a ≠ .suspended)
    (after : p ≠ .suspended) (pc : t.cv.pc = Function.update m.cv.pc a p)
    (handle : ∀ b, b ≠ a → t.handle b = m.handle b) (b : Nat) : waiting t b = waiting m b := by
  by_cases same : b = a
  · simp [waiting, pc, same, before, after]
  · simp [waiting, pc, same, handle b same]

theorem potential_lt_of_one {f : Frame} {l below : List Frame} {a : Nat} {p : Pc Nat}
    (top : m.stack = f :: below) (stack : t.stack = l ++ below)
    (kept : ∀ g ∈ below, frame t.cv g ≤ frame m.cv g) (born : a < m.awaiters)
    (awaiters : t.awaiters = m.awaiters) (pc : t.cv.pc = Function.update m.cv.pc a p)
    (handle : t.handle = m.handle)
    (lower : (l.map (frame t.cv)).sum + waiting t a < frame m.cv f + waiting m a) :
    potential t < potential m := by
  refine potential_lt top stack kept ?_
  have mem := Finset.mem_range.mpr born
  have rest : ∑ b ∈ (Finset.range m.awaiters).erase a, waiting t b =
      ∑ b ∈ (Finset.range m.awaiters).erase a, waiting m b := by
    refine Finset.sum_congr rfl fun b inside => ?_
    simp [waiting, pc, handle, Finset.ne_of_mem_erase inside]
  have left := Finset.add_sum_erase _ (waiting t) mem
  have right := Finset.add_sum_erase _ (waiting m) mem
  rw [awaiters]
  omega

theorem potential_awaiting (shape : Stacked m) {a : Nat} {rest : List Op} {below : List Frame}
    {cv : AsyncConditionVariable.State Nat Nat} (born : m.cv.pc a ≠ .running → a < m.awaiters)
    (top : m.stack = .awaiting a rest :: below)
    (made : AsyncConditionVariable.step m.cv (.go a false) = some cv) :
    potential { m with cv := cv } < potential m := by
  have here : Frame.awaiting a rest ∈ m.stack := top ▸ List.mem_cons_self
  have quiet : ∀ p, m.cv.pc a ≠ .suspended → p ≠ .suspended → cv.pc = Function.update m.cv.pc a p →
      cv.call = m.cv.call → frame cv (.awaiting a rest) < frame m.cv (.awaiting a rest) →
      potential { m with cv := cv } < potential m := by
    intro p before after pc call lower
    refine potential_lt_of_same (l := [.awaiting a rest]) top top (frame_same shape top call) rfl
      (fun b _ => ?_) ?_
    · exact waiting_update (t := { m with cv := cv }) before after pc (fun _ _ => rfl) b
    · simpa using lower
  simp only [AsyncConditionVariable.step] at made
  cases at_pc : m.cv.pc a with
  | running | suspended => rw [at_pc] at made; cases made
  | loadHead =>
    rw [at_pc] at made
    cases made
    exact quiet (.compareExchange _) (by simp [at_pc]) (by simp) rfl rfl
      (by simp [frame, State.goto, at_pc])
  | awaitResume =>
    rw [at_pc] at made
    cases made
    exact quiet .running (by simp [at_pc]) (by simp) rfl rfl (by simp [frame, State.goto, at_pc])
  | compareExchange old_head =>
    have same := shape.compare a rest old_head here at_pc
    rw [at_pc] at made
    simp only [access, same, and_self, if_true] at made
    cases made
    refine potential_lt_of_one (l := [.awaiting a rest]) top top (frame_same shape top rfl)
      (born (by simp [at_pc])) rfl rfl rfl ?_
    simp [waiting, frame, State.goto, at_pc, shape.handle a rest here]
    omega

theorem potential_coAwait (h : Ledger m chain) (shape : Stacked m) {op : Op} {rest : List Op}
    {below : List Frame} {cv : AsyncConditionVariable.State Nat Nat}
    (top : m.stack = .body (op :: rest) :: below) (made : Steps m.cv (.coAwait m.awaiters) cv) :
    potential { m with
      cv := cv
      handle := Function.update m.handle m.awaiters rest
      stack := .awaiting m.awaiters rest :: below
      awaiters := m.awaiters + 1 } < potential m := by
  have call : cv.call = m.cv.call := by cases made <;> rfl
  have idle := h.unborn m.awaiters (Nat.le_refl _)
  refine potential_lt (l := [.awaiting m.awaiters rest]) top rfl (frame_same shape top call) ?_
  have pc : ∃ p, p ≠ .suspended ∧ cv.pc = Function.update m.cv.pc m.awaiters p ∧
      frame cv (.awaiting m.awaiters rest) ≤ 12 * rest.length + 9 := by
    cases made with
    | ready => exact ⟨.awaitResume, by simp, rfl, by simp [frame, State.goto]⟩
    | unready => exact ⟨.loadHead, by simp, rfl, by simp [frame, State.goto]⟩
  obtain ⟨p, after, pc, bound⟩ := pc
  have same : ∀ b, waiting { m with
      cv := cv
      handle := Function.update m.handle m.awaiters rest
      stack := .awaiting m.awaiters rest :: below
      awaiters := m.awaiters + 1 } b = waiting m b :=
    waiting_update (by simp [idle]) after pc fun b other => Function.update_of_ne other ..
  have new : waiting m m.awaiters = 0 := by simp [waiting, idle]
  simp only [same, Finset.sum_range_succ, new, List.map_cons, List.map_nil, List.sum_cons,
    List.sum_nil]
  simp only [frame, List.length_cons] at bound ⊢
  omega

theorem potential_wake (h : Ledger m chain) (shape : Stacked m) {n a : Nat} {below : List Frame}
    (top : m.stack = .call n :: below) (at_call : m.cv.call n = .loop (some a))
    (waits : m.cv.pc a = .suspended) (events : List Event) : potential { m with
      cv := (m.cv.setCall n (.loop (m.cv.next a))).goto a .awaitResume
      stack := .awaiting a (m.handle a) :: m.stack
      events := events } < potential m := by
  have stack : Frame.awaiting a (m.handle a) :: m.stack =
    [.awaiting a (m.handle a), .call n] ++ below := by rw [top]; rfl
  refine potential_lt_of_one top stack ?_ (h.born (by simp [waits] : m.cv.pc a ≠ _)) rfl rfl rfl ?_
  · refine frame_others shape top fun k _ => frame_setCall (p := .loop (m.cv.next a)) rfl ?_ k
    simp [frame, State.goto, State.setCall, at_call]
  · simp [waiting, frame, State.goto, State.setCall, waits, at_call]

theorem potential_enter (shape : Stacked m) {op : Op} {rest : List Op} {below : List Frame}
    {cv : AsyncConditionVariable.State Nat Nat} (top : m.stack = .body (op :: rest) :: below)
    (pc : cv.pc = m.cv.pc) (others : ∀ n, n ≠ m.calls → cv.call n = m.cv.call n)
    (bound : frame cv (.call m.calls) ≤ 3) : potential { m with
      cv := cv
      stack := .call m.calls :: .body rest :: below
      calls := m.calls + 1 } < potential m := by
  refine potential_lt_of_same (l := [.call m.calls, .body rest]) top rfl ?_ rfl ?_ ?_
  · refine frame_others shape top fun n mem => ?_
    have called := shape.called n (top ▸ List.mem_cons_of_mem _ mem)
    simp only [frame, others n (Nat.ne_of_lt called)]
    exact Nat.le_refl _
  · intro a _
    simp only [waiting, pc]
  · simp only [frame, List.map_cons, List.map_nil, List.sum_cons, List.sum_nil,
      List.length_cons] at bound ⊢
    omega

theorem potential_call (shape : Stacked m) {n : Nat} {p : Call Nat} {below : List Frame}
    (top : m.stack = .call n :: below) (stack : t.stack = m.stack)
    (awaiters : t.awaiters = m.awaiters) (handle : t.handle = m.handle) (pc : t.cv.pc = m.cv.pc)
    (call : t.cv.call = Function.update m.cv.call n p)
    (lower : frame t.cv (.call n) < frame m.cv (.call n)) : potential t < potential m := by
  refine potential_lt_of_same (l := [.call n]) top (stack.trans top)
    (frame_others shape top fun k _ => ?_) awaiters (fun a _ => ?_) ?_
  · exact frame_setCall call (Nat.le_of_lt lower) k
  · simp only [waiting, pc, handle]
  · simpa using lower

/-- Every step but the failure of a weak compare-exchange uses the potential up. -/
theorem step_potential (h : Ledger m chain) (shape : Stacked m)
    (taken : step m (.go false) = some t) : potential t < potential m := by
  have kept : ∀ {f below}, m.stack = f :: below → ∀ {u}, u.call = m.cv.call →
      ∀ g ∈ below, frame u g ≤ frame m.cv g := fun top _ => frame_same shape top
  cases step_cases taken with
  | quit top =>
    exact potential_lt_of_same (l := []) top rfl (kept top rfl) rfl (fun _ _ => rfl)
      (by simp [frame])
  | coAwait top made => exact potential_coAwait h shape top made
  | reset top made =>
    cases made
    exact potential_lt_of_same (l := [.body _]) top rfl (kept top rfl) rfl (fun _ _ => rfl)
      (by simp [frame])
  | set top made =>
    cases made
    exact potential_enter shape top rfl (fun n other => Function.update_of_ne other ..)
      (by simp [frame, State.setCall])
  | stop top made =>
    cases made
    exact potential_enter shape top rfl (fun n other => Function.update_of_ne other ..)
      (by simp [frame, State.setCall])
  | awake top at_pc =>
    exact potential_lt_of_same (l := [.body _]) top rfl (kept top rfl) rfl (fun _ _ => rfl)
      (by simp [frame, at_pc])
  | away top at_pc =>
    exact potential_lt_of_same (l := []) top rfl (kept top rfl) rfl (fun _ _ => rfl)
      (by simp [frame, at_pc])
  | awaiting top made => exact potential_awaiting shape h.born top made
  | leave top at_call =>
    exact potential_lt_of_same (l := []) top rfl (kept top rfl) rfl (fun _ _ => rfl)
      (by simp [frame, at_call])
  | exchange top at_call =>
    exact potential_call (p := .loop m.cv.m_awaiter_head) shape top rfl rfl rfl rfl rfl
      (by simp [frame, State.setCall, at_call])
  | finish top at_call | drop top at_call =>
    exact potential_call (p := .idle) shape top rfl rfl rfl rfl rfl
      (by simp [frame, State.setCall, at_call])
  | wake top at_call waits => exact potential_wake h shape top at_call waits _

/-- As long as something is under way on the thread, it goes on. -/
theorem step_enabled (h : Ledger m chain) (busy : m.stack ≠ []) :
    ∃ t, step m (.go false) = some t := by
  have idle := (h.uncalled m.calls (Nat.le_refl _)).1
  have fresh := h.unborn m.awaiters (Nat.le_refl _)
  cases top : m.stack with
  | nil => exact absurd top busy
  | cons f below =>
    simp only [step, top]
    cases f with
    | body script =>
      cases script with
      | nil => exact ⟨_, rfl⟩
      | cons op rest =>
        cases op with
        | coAwait => simp [body, Thread.access, AsyncConditionVariable.step, fresh]
        | reset => exact ⟨_, rfl⟩
        | set | stop => simp [body, Thread.access, AsyncConditionVariable.step, idle]
    | awaiting a rest =>
      simp only [awaiting]
      cases at_pc : m.cv.pc a with
      | running | suspended => exact ⟨_, rfl⟩
      | loadHead | awaitResume =>
        simp [Thread.access, AsyncConditionVariable.step, at_pc, access]
      | compareExchange old_head =>
        simp only [Thread.access, AsyncConditionVariable.step, at_pc, access]
        split <;> exact ⟨_, rfl⟩
    | call n =>
      simp only [call]
      cases at_call : m.cv.call n with
      | idle => exact ⟨_, rfl⟩
      | exchange | drop => simp [Thread.access, AsyncConditionVariable.step, at_call, callStep]
      | loop head =>
        cases head with
        | none => simp [Thread.access, AsyncConditionVariable.step, at_call, callStep]
        | some a =>
          obtain ⟨rest, split, -⟩ := h.chains.wake at_call
          have waits := h.chains.waits (some n) a (split ▸ List.mem_cons_self)
          simp [Thread.access, AsyncConditionVariable.step, at_call, callStep, waits]

def Inv (m : Thread) : Prop := (∃ chain, Ledger m chain) ∧ Stacked m

theorem step_inv {a : Act} (h : Inv m) (taken : step m a = some t) : Inv t := by
  obtain ⟨⟨chain, ledger⟩, shape⟩ := h
  exact ⟨step_ledger ledger shape taken, step_stacked shape taken⟩

theorem inv_initial (set : Bool) : Inv (initial set) := by
  refine ⟨⟨fun _ => [], chains_initial set, fun _ => rfl, .nil, fun _ => .nil, fun _ _ => rfl,
    fun _ _ => ⟨rfl, rfl⟩, fun _ _ => rfl, ?_, .nil⟩, .plain ?_ ?_ ?_⟩
  · exact fun e mem => absurd mem List.not_mem_nil
  · exact fun n busy => absurd rfl busy
  · exact fun n mem => absurd mem List.not_mem_nil
  · exact fun a rest mem => absurd mem List.not_mem_nil

theorem reached_inv (reached : Reached system m) : Inv m := by
  refine reached.invariant (I := Inv) ?_ fun _ _ _ h taken => step_inv h taken
  rintro s ⟨set, rfl⟩
  exact inv_initial set

/-- Whatever the resumed coroutines do, the thread comes to the end of it. -/
theorem returns (h : Inv m) : ∃ k t, replay system m (List.replicate k (.go false)) = some t ∧
    Inv t ∧ t.stack = [] := by
  refine replay_home system Inv (fun t => t.stack = []) potential (.go false) ?_ h
  intro s hs busy
  obtain ⟨⟨chain, ledger⟩, shape⟩ := hs
  obtain ⟨t, taken⟩ := step_enabled ledger busy
  exact ⟨t, taken, ⟨step_ledger ledger shape taken, step_stacked shape taken⟩,
    step_potential ledger shape taken⟩

/-- On one thread, with coroutines that await, reset, stop and set again as they are resumed: a
call takes the awaiters of the list, latest first; it resumes those itself, in that order, no
others, and all of them by the time it returns; no awaiter is read or resumed after it has been
resumed; and every call returns. -/
theorem set_resumes {m : Thread} (reached : Reached system m) :
    Spells m.cv.next m.cv.m_awaiter_head m.list ∧
    (∀ n, (m.taken n).Pairwise (· > ·) ∧ directly n m.events <+: m.taken n ∧
      (m.cv.call n = .idle → directly n m.events = m.taken n)) ∧
    Clean m.events ∧
    ∃ k t, replay system m (List.replicate k (.go false)) = some t ∧ t.stack = [] ∧
      ∀ n, t.cv.call n = .idle := by
  have h := reached_inv reached
  obtain ⟨chain, ledger⟩ := h.1
  refine ⟨?_, fun n => ⟨ledger.order n, ?_, fun idle => ?_⟩, ledger.clean, ?_⟩
  · rw [ledger.list]
    exact ledger.chains.spells none
  · rw [ledger.taken n]
    exact List.prefix_append ..
  · have rest : chain (some n) = [] := ledger.chains.empty (by rw [State.first, idle]; rfl)
    rw [ledger.taken n, rest, List.append_nil]
  · obtain ⟨k, t, run, ⟨-, shape⟩, empty⟩ := returns h
    refine ⟨k, t, run, empty, fun n => ?_⟩
    by_contra busy
    have mem := shape.calling n busy
    rw [empty] at mem
    exact absurd mem List.not_mem_nil

def nested : List Act :=
  .start [.coAwait, .set] :: List.replicate 4 (.go false) ++
    .start [.coAwait, .coAwait] :: List.replicate 4 (.go false) ++
    .start [.set] :: List.replicate 24 (.go false)

def afterNested : Thread := (replay system (initial false) nested).get rfl

theorem set_resumes_nested : directly 0 afterNested.events = [1, 0] ∧
    directly 1 afterNested.events = [2] ∧ directly 0 afterNested.events = afterNested.taken 0 ∧
    Clean afterNested.events := by
  have start : Reached system (initial false) := .start (Exists.intro false rfl)
  have reached : Reached system afterNested := start.replay nested (Option.some_get _).symm
  exact ⟨rfl, rfl, ((set_resumes reached).2.1 0).2.2 rfl, (set_resumes reached).2.2.1⟩

end Pot.AsyncConditionVariableThread
