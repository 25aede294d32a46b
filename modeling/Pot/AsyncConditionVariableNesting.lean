import Pot.AsyncConditionVariableThread

/-! What holds at every nesting depth of the set() calls of one thread: which awaiters are in
which list, what each call has done, and what the frames on the stack stand for. -/
namespace Pot.AsyncConditionVariableThread
open Transition LinkedLists AsyncConditionVariable

def Clean (events : List Event) : Prop :=
  events.Pairwise fun e e' => ∀ n a, e = .resume n a → e'.awaiter ≠ a

def Resumed (s : AsyncConditionVariable.State Nat Nat) (a : Nat) : Prop :=
  s.pc a = .awaitResume ∨ s.pc a = .running

/-- Where the awaiters are, and what the calls have taken and resumed. -/
structure Ledger (m : Thread) (chain : Option Nat → List Nat) : Prop where
  chains : Chains m.cv chain
  taken : ∀ n, m.taken n = directly n m.events ++ chain (some n)
  sorted : (chain none).Pairwise (· > ·)
  order : ∀ n, (m.taken n).Pairwise (· > ·)
  unborn : ∀ a, m.awaiters ≤ a → m.cv.pc a = .running
  uncalled : ∀ n, m.calls ≤ n → m.cv.call n = .idle ∧ m.taken n = []
  before : ∀ n, m.cv.call n = .exchange → m.taken n = []
  resumed : ∀ e ∈ m.events, e.awaiter < m.awaiters ∧ Resumed m.cv e.awaiter
  clean : Clean m.events

/-- What the frames on the stack stand for. -/
structure Stacked (m : Thread) : Prop where
  calling : ∀ n, m.cv.call n ≠ .idle → .call n ∈ m.stack
  called : ∀ n, .call n ∈ m.stack → n < m.calls
  top : ∀ f ∈ m.stack.tail, ∀ a rest, f ≠ .awaiting a rest
  handle : ∀ a rest, .awaiting a rest ∈ m.stack → m.handle a = rest
  /-- nothing is linked between the construction of an awaiter and its own linking -/
  newest : ∀ a rest old_head, .awaiting a rest ∈ m.stack → m.cv.pc a = .loadHead ∨
    m.cv.pc a = .compareExchange old_head → a + 1 = m.awaiters
  compare : ∀ a rest old_head, .awaiting a rest ∈ m.stack →
    m.cv.pc a = .compareExchange old_head → old_head = m.cv.m_awaiter_head

variable {m t : Thread} {chain : Option Nat → List Nat}

theorem Ledger.born (h : Ledger m chain) {a : Nat} (busy : m.cv.pc a ≠ .running) :
    a < m.awaiters :=
  Nat.lt_of_not_le fun later => busy (h.unborn a later)

theorem Ledger.called (h : Ledger m chain) {n : Nat} (busy : m.cv.call n ≠ .idle) :
    n < m.calls :=
  Nat.lt_of_not_le fun later => busy (h.uncalled n later).1

theorem Ledger.apart (h : Ledger m chain) {n k : Nat} (busy : m.cv.call n ≠ .idle)
    (later : m.calls ≤ k) : k ≠ n :=
  fun same => Nat.not_le_of_lt (h.called busy) (same ▸ later)

theorem still_before {n k : Nat} {p : Call Nat} (done : p ≠ .exchange)
    (still : Function.update m.cv.call n p k = .exchange) : k ≠ n ∧ m.cv.call k = .exchange := by
  have other : k ≠ n := fun same => by
    rw [same, Function.update_self] at still
    exact done still
  exact ⟨other, by rwa [Function.update_of_ne other] at still⟩

theorem Ledger.list (h : Ledger m chain) : m.list = chain none := by
  refine walk_eq (h.chains.spells none) ?_
  have inside : chain none ⊆ List.range m.awaiters := fun a mem => by
    refine List.mem_range.mpr (h.born ?_)
    rw [h.chains.waits none a mem]
    nofun
  exact ((h.chains.once none).subperm inside).length_le.trans_eq List.length_range

theorem Ledger.same (h : Ledger m chain) (chains : Chains t.cv chain) (taken : t.taken = m.taken)
    (events : t.events = m.events) (awaiters : m.awaiters ≤ t.awaiters)
    (calls : m.calls ≤ t.calls) (unborn : ∀ a, t.awaiters ≤ a → t.cv.pc a = m.cv.pc a)
    (uncalled : ∀ n, t.calls ≤ n → t.cv.call n = m.cv.call n)
    (before : ∀ n, t.cv.call n = .exchange → m.cv.call n = .exchange ∨ m.calls ≤ n)
    (resumed : ∀ a, a < m.awaiters → Resumed m.cv a → Resumed t.cv a) : Ledger t chain where
  chains := chains
  taken n := by rw [taken, events]; exact h.taken n
  sorted := h.sorted
  order n := by rw [taken]; exact h.order n
  unborn a later := (unborn a later).trans (h.unborn a (awaiters.trans later))
  uncalled n later := by
    rw [uncalled n later, taken]
    exact h.uncalled n (calls.trans later)
  before n at_call := by
    rw [taken]
    exact (before n at_call).elim (h.before n) fun later => (h.uncalled n later).2
  resumed e mem := by
    rw [events] at mem
    obtain ⟨born, done⟩ := h.resumed e mem
    exact ⟨born.trans_le awaiters, resumed _ born done⟩
  clean := events ▸ h.clean

theorem Ledger.stack (h : Ledger m chain) (stack : List Frame) :
    Ledger { m with stack := stack } chain :=
  h.same h.chains rfl rfl (Nat.le_refl _) (Nat.le_refl _) (fun _ _ => rfl) (fun _ _ => rfl)
    (fun _ => .inl) fun _ _ => id

theorem Ledger.coAwait (h : Ledger m chain) {cv : AsyncConditionVariable.State Nat Nat}
    (made : Steps m.cv (.coAwait m.awaiters) cv) (handle : Nat → List Op) (stack : List Frame) :
    Ledger { m with cv := cv, handle := handle, stack := stack, awaiters := m.awaiters + 1 }
      chain := by
  have step : ∀ p, Chains (m.cv.goto m.awaiters p) chain → Ledger { m with
      cv := m.cv.goto m.awaiters p
      handle := handle
      stack := stack
      awaiters := m.awaiters + 1 } chain := by
    intro p chains
    refine h.same chains rfl rfl (Nat.le_succ _) (Nat.le_refl _) ?_ (fun _ _ => rfl)
      (fun _ => .inl) ?_
    · intro a later
      exact Function.update_of_ne (show a ≠ m.awaiters from fun same => by
        simp only at later; omega) ..
    · intro a old done
      have different : a ≠ m.awaiters := by omega
      simpa [Resumed, State.goto, different] using done
  cases made with
  | ready at_pc => exact step _ (h.chains.goto (by simp [at_pc]) rfl rfl (.inl rfl) rfl)
  | unready at_pc =>
    exact step _ (h.chains.goto (by simp [at_pc]) rfl rfl (.inl rfl) rfl)

theorem Ledger.enter (h : Ledger m chain) {cv : AsyncConditionVariable.State Nat Nat}
    {p : Call Nat} (nothing : p.head = none) (head : cv.m_awaiter_head = m.cv.m_awaiter_head)
    (next : cv.next = m.cv.next) (pc : cv.pc = m.cv.pc)
    (call : cv.call = Function.update m.cv.call m.calls p) (stack : List Frame) :
    Ledger { m with cv := cv, stack := stack, calls := m.calls + 1 } chain := by
  have idle := (h.uncalled m.calls (Nat.le_refl _)).1
  have chains : Chains cv chain :=
    h.chains.setCall (by rw [idle, nothing]; rfl) head next pc call
  refine h.same chains rfl rfl (Nat.le_refl _) (Nat.le_succ _) (fun a _ => by rw [pc]) ?_ ?_ ?_
  · intro n later
    simp only at later ⊢
    rw [call, Function.update_of_ne (by omega)]
  · intro n at_call
    simp only at at_call
    rw [call, Function.update_apply] at at_call
    split at at_call
    · exact .inr (Nat.le_of_eq ‹n = m.calls›.symm)
    · exact .inl at_call
  · intro a _ done
    simpa only [Resumed, pc] using done

theorem Ledger.awaiting (h : Ledger m chain) (shape : Stacked m)
    {cv : AsyncConditionVariable.State Nat Nat} {a : Nat} {rest : List Op} {below : List Frame}
    {spurious : Bool} (top : m.stack = .awaiting a rest :: below)
    (made : Steps m.cv (.go a spurious) cv) :
    ∃ chain', Ledger { m with cv := cv } chain' := by
  have here : Frame.awaiting a rest ∈ m.stack := top ▸ List.mem_cons_self
  have other : ∀ {p : Pc Nat}, ¬ Resumed m.cv a → ∀ b, Resumed m.cv b →
      Resumed (m.cv.goto a p) b := by
    intro p waits b done
    have different : b ≠ a := fun same => waits (same ▸ done)
    simpa [Resumed, State.goto, different] using done
  have fresh : ∀ {p : Pc Nat}, m.cv.pc a ≠ .running → ∀ b, m.awaiters ≤ b →
      (m.cv.goto a p).pc b = m.cv.pc b := by
    intro p busy b later
    have := h.born busy
    exact Function.update_of_ne (by omega) ..
  have step : ∀ p u, m.cv.pc a ≠ .running → ¬ Resumed m.cv a →
      Chains u chain → u.pc = (m.cv.goto a p).pc → u.call = m.cv.call →
      Ledger { m with cv := u } chain := by
    intro p u busy waits chains pc call
    refine h.same chains rfl rfl (Nat.le_refl _) (Nat.le_refl _) ?_ ?_ ?_ ?_
    · intro b later
      simp only
      rw [pc]
      exact fresh busy b later
    · intro n _
      simp only
      rw [call]
    · intro n at_call
      simp only at at_call
      exact .inl (call ▸ at_call)
    · intro b _ done
      simpa only [Resumed, pc] using other (p := p) waits b done
  cases made with
  | load at_pc =>
    exact ⟨chain, step _ _ (by simp [at_pc]) (by simp [Resumed, at_pc])
      (h.chains.goto (by simp [at_pc]) rfl rfl (.inl rfl) rfl) rfl rfl⟩
  | again at_pc =>
    exact ⟨chain, step _ _ (by simp [at_pc]) (by simp [Resumed, at_pc])
      (h.chains.goto (by simp [at_pc]) rfl rfl (.inr ⟨_, rfl⟩) rfl) rfl rfl⟩
  | resume at_pc =>
    refine ⟨chain, h.same (h.chains.goto (by simp [at_pc]) rfl rfl (.inl rfl) rfl) rfl rfl
      (Nat.le_refl _) (Nat.le_refl _) (fun b later => fresh (by simp [at_pc]) b later)
      (fun _ _ => rfl) (fun _ => .inl) fun b _ done => ?_⟩
    by_cases same : b = a
    · subst same
      exact .inr (Function.update_self ..)
    · simpa [Resumed, State.goto, reset, same] using done
  | link at_pc =>
    have newest := shape.newest a rest _ here (.inr at_pc)
    have outside := h.chains.outside (c := a) (by simp [at_pc]) none
    refine ⟨_, h.chains.link (by simp [at_pc]), ?_, ?_, h.order, ?_, h.uncalled, h.before, ?_,
      h.clean⟩
    · intro n
      rw [Function.update_of_ne (by simp)]
      exact h.taken n
    · rw [Function.update_self]
      refine List.pairwise_cons.mpr ⟨fun c mem => ?_, h.sorted⟩
      have suspended := h.chains.waits none c mem
      have born : c < m.awaiters := h.born (by rw [suspended]; exact fun same => by cases same)
      have different : c ≠ a := fun same => outside (same ▸ mem)
      show c < a
      omega
    · intro b later
      exact (fresh (by simp [at_pc]) b later).trans (h.unborn b later)
    · intro e mem
      obtain ⟨born, done⟩ := h.resumed e mem
      exact ⟨born, other (by simp [Resumed, at_pc]) _ done⟩

theorem Ledger.exchange (h : Ledger m chain) {n : Nat} (at_call : m.cv.call n = .exchange) :
    ∃ chain', Ledger { m with
      cv := { m.cv with m_awaiter_head := none }.setCall n (.loop m.cv.m_awaiter_head)
      taken := Function.update m.taken n m.list } chain' := by
  have nothing : directly n m.events = [] := by
    have := h.taken n
    rw [h.before n at_call] at this
    exact (List.append_eq_nil_iff.mp this.symm).1
  refine ⟨_, h.chains.exchange, ?_, ?_, ?_, h.unborn, ?_, ?_, h.resumed, h.clean⟩
  · intro k
    rw [Function.update_of_ne (by simp)]
    by_cases same : k = n
    · subst same
      simp only [Function.update_self]
      rw [nothing, h.list]
      rfl
    · rw [Function.update_of_ne (by simpa using same)]
      simp only [Function.update_of_ne same]
      exact h.taken k
  · rw [Function.update_self]
    exact .nil
  · intro k
    by_cases same : k = n
    · subst same
      simp only [Function.update_self]
      rw [h.list]
      exact h.sorted
    · simp only [Function.update_of_ne same]
      exact h.order k
  · intro k later
    have different := h.apart (n := n) (by simp [at_call]) later
    simpa [State.setCall, different] using h.uncalled k later
  · intro k still
    obtain ⟨other, before⟩ := still_before (by simp) still
    simp only [Function.update_of_ne other]
    exact h.before k before

theorem Ledger.wake (h : Ledger m chain) {n a : Nat} (at_call : m.cv.call n = .loop (some a))
    (stack : List Frame) : ∃ chain', Ledger { m with
      cv := (m.cv.setCall n (.loop (m.cv.next a))).goto a .awaitResume
      stack := stack
      events := m.events ++ [.read n a, .resume n a] } chain' := by
  obtain ⟨rest, split, chains⟩ := h.chains.wake at_call
  have waits := h.chains.waits (some n) a (split ▸ List.mem_cons_self)
  have born : a < m.awaiters := h.born (by rw [waits]; nofun)
  have untouched : ∀ e ∈ m.events, e.awaiter ≠ a := by
    intro e mem same
    have done := (h.resumed e mem).2
    rw [same, Resumed, waits] at done
    exact done.elim nofun nofun
  refine ⟨_, chains, ?_, ?_, h.order, ?_, ?_, ?_, ?_, ?_⟩
  · intro k
    simp only [directly, List.filterMap_append]
    by_cases same : k = n
    · subst same
      rw [Function.update_self, h.taken k, split]
      simp [directly]
    · rw [Function.update_of_ne (by simpa using same), h.taken k]
      simp [directly, Ne.symm same]
  · rw [Function.update_of_ne (by simp)]
    exact h.sorted
  · intro b later
    have different : b ≠ a := by simp only at later; omega
    simpa [State.goto, State.setCall, different] using h.unborn b later
  · intro k later
    have different := h.apart (n := n) (by simp [at_call]) later
    simpa [State.goto, State.setCall, different] using h.uncalled k later
  · exact fun k still => h.before k (still_before (by simp) still).2
  · intro e mem
    rcases List.mem_append.mp mem with old | new
    · obtain ⟨earlier, done⟩ := h.resumed e old
      refine ⟨earlier, ?_⟩
      simpa [Resumed, State.goto, State.setCall, untouched e old] using done
    · have same : e.awaiter = a := by
        rcases List.mem_pair.mp new with rfl | rfl <;> rfl
      rw [same]
      exact ⟨born, .inl (Function.update_self ..)⟩
  · refine List.pairwise_append.mpr ⟨h.clean, ?_, ?_⟩
    · simp [Event.awaiter]
    · intro e old f new k b done
      have same : f.awaiter = a := by
        rcases List.mem_pair.mp new with rfl | rfl <;> rfl
      rw [same]
      intro back
      subst done
      exact untouched _ old back.symm

theorem Ledger.drop (h : Ledger m chain) {n : Nat} (at_call : m.cv.call n = .drop) :
    ∃ chain', Ledger { m with
      cv := { m.cv with m_awaiter_head := none }.setCall n .idle } chain' := by
  refine ⟨_, h.chains.drop at_call, ?_, ?_, h.order, h.unborn, ?_, ?_, h.resumed, h.clean⟩
  · intro k
    rw [Function.update_of_ne (by simp)]
    exact h.taken k
  · rw [Function.update_self]
    exact .nil
  · intro k later
    have different := h.apart (n := n) (by simp [at_call]) later
    simpa [State.setCall, different] using h.uncalled k later
  · exact fun k still => h.before k (still_before (by simp) still).2

theorem Ledger.finish (h : Ledger m chain) {n : Nat} (at_call : m.cv.call n = .loop none) :
    Ledger { m with cv := m.cv.setCall n .idle } chain := by
  refine h.same (h.chains.setCall (by rw [at_call]; rfl) rfl rfl rfl rfl) rfl rfl (Nat.le_refl _)
    (Nat.le_refl _) (fun _ _ => rfl) ?_ ?_ fun _ _ => id
  · intro k later
    have different := h.apart (n := n) (by simp [at_call]) later
    simp [State.setCall, different]
  · exact fun k still => .inl (still_before (by simp) still).2

theorem step_ledger {a : Act} (h : Ledger m chain) (shape : Stacked m) (taken : step m a = some t) :
    ∃ chain', Ledger t chain' := by
  cases step_cases taken with
  | start | quit | awake | away | leave => exact ⟨chain, h.stack _⟩
  | coAwait top made => exact ⟨chain, h.coAwait made _ _⟩
  | reset top made =>
    cases made
    exact ⟨chain, h.same (h.chains.congr (fun o => by cases o <;> rfl) rfl rfl) rfl rfl
      (Nat.le_refl _) (Nat.le_refl _) (fun _ _ => rfl) (fun _ _ => rfl) (fun _ => .inl)
      fun _ _ => id⟩
  | set top made =>
    cases made
    refine ⟨chain, h.enter (p := .exchange) rfl ?_ ?_ ?_ ?_ _⟩
    all_goals rfl
  | stop top made =>
    cases made
    refine ⟨chain, h.enter (p := .drop) rfl ?_ ?_ ?_ ?_ _⟩
    all_goals rfl
  | awaiting top made =>
    exact h.awaiting shape top (AsyncConditionVariable.step_cases made)
  | exchange top at_call => exact h.exchange at_call
  | wake top at_call => exact h.wake at_call _
  | finish top at_call => exact ⟨chain, h.finish at_call⟩
  | drop top at_call => exact h.drop at_call

theorem Stacked.below (h : Stacked m) {f : Frame} {below : List Frame} (top : m.stack = f :: below)
    {a : Nat} {rest : List Op} : Frame.awaiting a rest ∉ below := by
  intro mem
  have := h.top _ (by rw [top]; exact mem) a rest
  exact this rfl

/-- What is called and not on top of the stack is below. -/
theorem Stacked.calling_below (h : Stacked m) {f : Frame} {below : List Frame}
    (top : m.stack = f :: below) {n : Nat} (busy : m.cv.call n ≠ .idle) (other : f ≠ .call n) :
    .call n ∈ below := by
  have mem := h.calling n busy
  rw [top] at mem
  exact (List.mem_cons.mp mem).resolve_left other.symm

theorem Stacked.called_below (h : Stacked m) {f : Frame} {below : List Frame}
    (top : m.stack = f :: below) {n : Nat} (mem : .call n ∈ below) : n < m.calls :=
  h.called n (top ▸ List.mem_cons_of_mem f mem)

theorem Stacked.plain (calling : ∀ n, t.cv.call n ≠ .idle → .call n ∈ t.stack)
    (called : ∀ n, .call n ∈ t.stack → n < t.calls)
    (plain : ∀ a rest, Frame.awaiting a rest ∉ t.stack) : Stacked t where
  calling := calling
  called := called
  top _ mem a rest same := plain a rest (same ▸ List.mem_of_mem_tail mem)
  handle a rest mem := absurd mem (plain a rest)
  newest a rest _ mem := absurd mem (plain a rest)
  compare a rest _ mem := absurd mem (plain a rest)

theorem Stacked.pop (h : Stacked m) {f : Frame} {below : List Frame} (top : m.stack = f :: below)
    (idle : ∀ n, f = .call n → t.cv.call n = .idle)
    (busy : ∀ n, t.cv.call n ≠ .idle → m.cv.call n ≠ .idle) (calls : t.calls = m.calls)
    (stack : t.stack = below ∨ ∃ rest, t.stack = .body rest :: below) : Stacked t := by
  have old : ∀ g, g ∈ t.stack → g ∈ below ∨ ∃ rest, g = .body rest := by
    intro g mem
    rcases stack with same | ⟨rest, same⟩
    · exact .inl (same ▸ mem)
    · rw [same] at mem
      exact (List.mem_cons.mp mem).symm.imp_right fun here => ⟨rest, here⟩
  have kept : ∀ g, g ∈ below → g ∈ t.stack := by
    intro g mem
    rcases stack with same | ⟨rest, same⟩
    · exact same ▸ mem
    · exact same ▸ List.mem_cons_of_mem _ mem
  refine .plain (fun n still => ?_) (fun n mem => ?_) fun a rest mem => ?_
  · exact kept _ (h.calling_below top (busy n still) fun same => still (idle n same))
  · rcases old _ mem with later | ⟨_, same⟩
    · rw [calls]
      exact h.called_below top later
    · cases same
  · rcases old _ mem with later | ⟨_, same⟩
    · exact h.below top later
    · cases same

theorem Stacked.enter (h : Stacked m) {op : Op} {rest : List Op} {below : List Frame}
    (top : m.stack = .body (op :: rest) :: below)
    (call : ∀ n, n ≠ m.calls → t.cv.call n = m.cv.call n) (calls : t.calls = m.calls + 1)
    (stack : t.stack = .call m.calls :: .body rest :: below) : Stacked t := by
  refine .plain (fun n busy => ?_) (fun n mem => ?_) fun a rest' mem => ?_
  · rw [stack]
    by_cases same : n = m.calls
    · exact same ▸ List.mem_cons_self
    · rw [call n same] at busy
      have below := h.calling_below top busy nofun
      exact List.mem_cons_of_mem _ (List.mem_cons_of_mem _ below)
  · rw [calls]
    rw [stack] at mem
    rcases List.mem_cons.mp mem with here | later
    · cases here
      exact Nat.lt_succ_self _
    · rcases List.mem_cons.mp later with here | old
      · cases here
      · exact Nat.lt_succ_of_lt (h.called_below top old)
  · rw [stack] at mem
    rcases List.mem_cons.mp mem with here | later
    · cases here
    · rcases List.mem_cons.mp later with here | old
      · cases here
      · exact h.below top old

theorem awaiting_top {below : List Frame} (none : ∀ b rest, Frame.awaiting b rest ∉ below)
    {a b : Nat} {rest rest' : List Op} (mem : .awaiting b rest' ∈ .awaiting a rest :: below) :
    b = a ∧ rest' = rest := by
  rcases List.mem_cons.mp mem with here | old
  · cases here
    exact ⟨rfl, rfl⟩
  · exact absurd old (none b rest')

/-- The only coroutine in its awaiter is the one on top of the stack. -/
theorem Stacked.only (h : Stacked m) {a b : Nat} {rest rest' : List Op} {below : List Frame}
    (top : m.stack = .awaiting a rest :: below) (mem : .awaiting b rest' ∈ m.stack) :
    b = a ∧ rest' = rest :=
  awaiting_top (fun _ _ => h.below top) (top ▸ mem)

theorem Stacked.coAwait (h : Stacked m) {cv : AsyncConditionVariable.State Nat Nat}
    {op : Op} {rest : List Op} {below : List Frame} (top : m.stack = .body (op :: rest) :: below)
    (made : Steps m.cv (.coAwait m.awaiters) cv) : Stacked { m with
      cv := cv
      handle := Function.update m.handle m.awaiters rest
      stack := .awaiting m.awaiters rest :: below
      awaiters := m.awaiters + 1 } := by
  have only := @awaiting_top below (fun _ _ => h.below top) m.awaiters
  have call : cv.call = m.cv.call := by cases made <;> rfl
  refine ⟨fun n busy => ?_, fun n mem => ?_, fun f mem b rest' same => ?_, fun b rest' mem => ?_,
    fun b rest' _ mem _ => ?_, fun b rest' old_head mem at_pc => ?_⟩
  · simp only [call] at busy
    exact List.mem_cons_of_mem _ (h.calling_below top busy nofun)
  · rcases List.mem_cons.mp mem with here | old
    · cases here
    · exact h.called_below top old
  · exact h.below top (same ▸ mem)
  · obtain ⟨rfl, rfl⟩ := only mem
    exact Function.update_self ..
  · rw [(only mem).1]
  · obtain ⟨rfl, rfl⟩ := only mem
    cases made <;> simp [State.goto] at at_pc

theorem Stacked.awaiting (h : Stacked m) {cv : AsyncConditionVariable.State Nat Nat} {a : Nat}
    {rest : List Op} {below : List Frame} {spurious : Bool}
    (top : m.stack = .awaiting a rest :: below) (made : Steps m.cv (.go a spurious) cv) :
    Stacked { m with cv := cv } := by
  have call : cv.call = m.cv.call := by cases made <;> rfl
  refine ⟨fun n busy => h.calling n (by simpa only [call] using busy), h.called, h.top, h.handle,
    fun b rest' old_head mem at_pc => ?_, fun b rest' old_head mem at_pc => ?_⟩
  · obtain ⟨rfl, rfl⟩ := h.only top mem
    cases made with
    | load old => exact h.newest b rest' none mem (.inl old)
    | again old => exact h.newest b rest' _ mem (.inr old)
    | link | resume => simp [State.goto] at at_pc
  · obtain ⟨rfl, rfl⟩ := h.only top mem
    cases made with
    | load | again =>
      simp only [State.goto, Function.update_self, Pc.compareExchange.injEq] at at_pc
      exact at_pc.symm
    | link | resume => simp [State.goto] at at_pc

theorem Stacked.wake (h : Stacked m) {n a : Nat} {below : List Frame}
    (top : m.stack = .call n :: below) (at_call : m.cv.call n ≠ .idle)
    (events : List Event) (next : Call Nat) : Stacked { m with
      cv := (m.cv.setCall n next).goto a .awaitResume
      stack := .awaiting a (m.handle a) :: m.stack
      events := events } := by
  have none : ∀ b rest, Frame.awaiting b rest ∉ m.stack := by
    intro b rest mem
    rw [top] at mem
    rcases List.mem_cons.mp mem with here | old
    · cases here
    · exact h.below top old
  have only := @awaiting_top m.stack none a
  refine ⟨fun k busy => ?_, fun k mem => ?_, fun f mem b rest' same => ?_, fun b rest' mem => ?_,
    fun b rest' _ mem at_pc => ?_, fun b rest' old_head mem at_pc => ?_⟩
  · refine List.mem_cons_of_mem _ (h.calling k ?_)
    by_cases same : k = n
    · exact same ▸ at_call
    · simpa [State.goto, State.setCall, same] using busy
  · rcases List.mem_cons.mp mem with here | old
    · cases here
    · exact h.called k old
  · exact none b rest' (same ▸ mem)
  · obtain ⟨rfl, rfl⟩ := only mem
    rfl
  · obtain ⟨rfl, rfl⟩ := only mem
    simp [State.goto] at at_pc
  · obtain ⟨rfl, rfl⟩ := only mem
    simp [State.goto] at at_pc

theorem Stacked.call (h : Stacked m) {n : Nat} {below : List Frame}
    (top : m.stack = .call n :: below) (others : ∀ k, k ≠ n → t.cv.call k = m.cv.call k)
    (calls : t.calls = m.calls) (stack : t.stack = m.stack) : Stacked t := by
  refine .plain (fun k busy => ?_) (fun k mem => ?_) fun a rest mem => ?_
  · rw [stack]
    by_cases same : k = n
    · rw [same, top]
      exact List.mem_cons_self
    · exact h.calling k (others k same ▸ busy)
  · rw [calls]
    exact h.called k (stack ▸ mem)
  · rw [stack, top] at mem
    rcases List.mem_cons.mp mem with here | old
    · cases here
    · exact h.below top old

theorem step_stacked {a : Act} (h : Stacked m) (taken : step m a = some t) : Stacked t := by
  cases step_cases taken with
  | start idle =>
    refine .plain (fun n busy => ?_) (by simp) (by simp)
    have mem := h.calling n busy
    rw [idle] at mem
    exact absurd mem List.not_mem_nil
  | quit top => exact h.pop top nofun (fun _ => id) rfl (.inl rfl)
  | coAwait top made => exact h.coAwait top made
  | reset top made =>
    cases made
    exact h.pop top nofun (fun _ => id) rfl (.inr ⟨_, rfl⟩)
  | set top made =>
    cases made
    exact h.enter top (fun n other => Function.update_of_ne other ..) rfl rfl
  | stop top made =>
    cases made
    exact h.enter top (fun n other => Function.update_of_ne other ..) rfl rfl
  | awake top => exact h.pop top nofun (fun _ => id) rfl (.inr ⟨_, rfl⟩)
  | away top => exact h.pop top nofun (fun _ => id) rfl (.inl rfl)
  | awaiting top made => exact h.awaiting top (AsyncConditionVariable.step_cases made)
  | leave top at_call =>
    exact h.pop top (fun n same => by cases same; exact at_call) (fun _ => id) rfl (.inl rfl)
  | exchange top | finish top | drop top =>
    exact h.call top (fun k other => Function.update_of_ne other ..) rfl rfl
  | wake top at_call => exact h.wake top (by simp [at_call]) _ _

end Pot.AsyncConditionVariableThread
