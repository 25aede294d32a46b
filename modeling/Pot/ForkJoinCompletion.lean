import Mathlib.Data.Fintype.EquivFin
import Pot.ForkJoinCosts

/-! No state of the pool is a dead end. As long as a task has not ended some thread can lower what
is left to do: a task that does not wait goes on, and when all of them wait the worker of a queue
that is not empty, or the task that buries it, takes a task out of it. -/
namespace Pot.ForkJoin
open Transition EventCount
open Sandbox (Item pop publish Available)

variable {R Tid Kid : Type} {n : Nat} [DecidableEq Tid] [DecidableEq Kid] [NeZero n]

structure Machine.Bounded (m : Machine R Tid Kid n) (k : Nat) : Prop where
  reached : ReachedUnder (programs R Tid Kid n) (fun _ e => e.joins) m
  within : m.Within k

def Machine.Lower (m : Machine R Tid Kid n) (k : Nat) : Prop :=
  Leads (programs R Tid Kid n) m fun u => ∃ j, j < k ∧ u.Bounded j

section Moves
variable {m u : Machine R Tid Kid n} {k : Nat} {e : Event R Tid Kid n} {th : Thread Kid n}
  {task : Tid} {pc q : Pc Tid n} {below : List (Frame Tid n)}

theorem Machine.Bounded.pool (b : m.Bounded k) : Reached (system Tid Kid n) m.pool :=
  pool_reached b.reached.reached

theorem Machine.Bounded.inv (b : m.Bounded k) : m.Inv := reached_inv b.reached.reached

theorem Machine.Bounded.lower (b : m.Bounded k) (joins : e.joins) (taken : m.step e = some u)
    (less : ∃ j, j < k ∧ u.Within j) : m.Lower k := by
  obtain ⟨j, less, within⟩ := less
  exact .next (a := e) taken (.now ⟨j, less, b.reached.next joins taken, within⟩)

theorem Machine.Lower.next (taken : m.step e = some u) (later : u.Lower k) : m.Lower k :=
  Leads.next (a := e) taken later

theorem top_others {s : State Tid Kid n} (reached : Reached (system Tid Kid n) s)
    (top : s.stack th = ⟨task, pc⟩ :: below) : ∀ j, j ≠ th → ∀ f ∈ s.stack j, f.task ≠ task :=
  fun j other f inside same =>
    other (reached_single reached j th f _ inside (top ▸ List.mem_cons_self) same)

theorem Machine.Bounded.onward (b : m.Bounded k) (joins : e.joins) (taken : m.step e = some u)
    (top : m.pool.stack th = ⟨task, pc⟩ :: below)
    (stack : u.pool.stack = Function.update m.pool.stack th (⟨task, q⟩ :: below))
    (created : u.pool.created = m.pool.created) (sizes : ∀ t, t ≠ task → u.size t = m.size t)
    (less : q.left (u.size task) < pc.left (m.size task))
    (queued : ∀ c, ∀ t ∈ (u.pool.queue c).map Item.call, t ∈ (m.pool.queue c).map Item.call ∨
      pc.submits = some t)
    (submits : q.submits = none ∨ q.submits = pc.submits) : m.Lower k := by
  obtain ⟨known, cost, costs, bound⟩ := b.within
  have here : (⟨task, pc⟩ : Frame Tid n) ∈ m.pool.stack th := top ▸ List.mem_cons_self
  have next : (⟨task, q⟩ : Frame Tid n) ∈ u.pool.stack th := by
    rw [stack, Function.update_self]
    exact List.mem_cons_self
  have after : Reached (system Tid Kid n) u.pool :=
    pool_reached (b.reached.next joins taken).reached
  refine b.lower joins taken ⟨_, ?_, known, _, costs.step (x := q.left (u.size task)) created sizes
    stack (top_others b.pool top) (begun_away after next) (fun g inside => ?_) (fun c t inside => ?_)
    (fun g inside t its => ?_), Nat.le_refl _⟩
  · have mem : task ∈ known := (costs.known task).mpr (frame_created b.pool here)
    exact sum_lower mem (Nat.lt_of_lt_of_le less (costs.begun th _ here)) bound
  · rcases List.mem_cons.mp inside with rfl | buried
    · exact .inl ⟨rfl, Nat.le_refl _⟩
    · exact .inr ⟨below_other b.pool top buried, g, top ▸ List.mem_cons_of_mem _ buried, rfl,
        Nat.le_refl _⟩
  · exact (queued c t inside).imp_right fun submits => ⟨_, here, submits⟩
  · rcases List.mem_cons.mp inside with rfl | buried
    · rcases submits with none | same
      · cases none.symm.trans its
      · exact ⟨_, here, same.symm.trans its⟩
    · exact ⟨g, top ▸ List.mem_cons_of_mem _ buried, its⟩

theorem Machine.Bounded.starts (b : m.Bounded k) (joins : e.joins) (taken : m.step e = some u)
    {c : Fin n} {item : Item Tid} {rest : List (Item Tid)} {frames : List (Frame Tid n)}
    (popped : pop (m.pool.queue c) = some (item, rest))
    (stack : u.pool.stack = Function.update m.pool.stack th (⟨item.call, .running⟩ :: frames))
    (queue : u.pool.queue = Function.update m.pool.queue c rest)
    (created : u.pool.created = m.pool.created) (sizes : ∀ t, u.size t = m.size t)
    (waits : ∀ g ∈ frames, ∃ f ∈ m.pool.stack th, f.task = g.task ∧ g.pc.submits = none ∧
      g.pc.left (m.size g.task) ≤ f.pc.left (m.size g.task)) : m.Lower k := by
  obtain ⟨known, cost, costs, bound⟩ := b.within
  have before : item.call ∈ (m.pool.queue c).map Item.call := by
    rw [(Sandbox.pop_eq_some.mp popped).1]
    exact List.mem_cons_self
  have unstarted : m.pool.unstarted item.call := fun j f inside same =>
    (begun_away b.pool inside).1 c (same ▸ before)
  have next : (⟨item.call, .running⟩ : Frame Tid n) ∈ u.pool.stack th := by
    rw [stack, Function.update_self]
    exact List.mem_cons_self
  have after : Reached (system Tid Kid n) u.pool :=
    pool_reached (b.reached.next joins taken).reached
  refine b.lower joins taken ⟨_, ?_, known, _, costs.step (x := 8 * m.size item.call + 1) created
    (fun t _ => sizes t) stack (fun j _ => unstarted j) (begun_away after next) (fun g inside => ?_)
    (fun d t inside => .inl ?_) (fun g inside t its => ?_), Nat.le_refl _⟩
  · have mem : item.call ∈ known := (costs.known _).mpr (queued_created b.pool before)
    exact sum_lower mem (costs.queued c _ before) bound
  · rcases List.mem_cons.mp inside with rfl | buried
    · exact .inl ⟨rfl, by rw [sizes]; exact Nat.le_refl _⟩
    · obtain ⟨f, at_th, same, -, less⟩ := waits g buried
      exact .inr ⟨same ▸ unstarted th f at_th, f, at_th, same, less⟩
  · rw [queue] at inside
    by_cases same : d = c
    · subst same
      rw [Function.update_self] at inside
      rw [(Sandbox.pop_eq_some.mp popped).1]
      exact List.mem_cons_of_mem _ inside
    · rw [Function.update_of_ne same] at inside
      exact inside
  · rcases List.mem_cons.mp inside with rfl | buried
    · cases its
    · obtain ⟨f, at_th, -, nothing, -⟩ := waits g buried
      cases nothing.symm.trans its

theorem Machine.Bounded.waits (b : m.Bounded k) (joins : e.joins) (taken : m.step e = some u)
    (top : m.pool.stack th = ⟨task, pc⟩ :: below) (first : pc.awaits ≠ none)
    (second : q.awaits ≠ none)
    (same : u = { m with pool := m.pool.setStack th (⟨task, q⟩ :: below) }) : u.Bounded k := by
  obtain ⟨known, cost, costs, bound⟩ := b.within
  refine ⟨b.reached.next joins taken, known, cost, ?_, bound⟩
  subst same
  have old : ∀ j, ∀ g ∈ (m.pool.setStack th (⟨task, q⟩ :: below)).stack j,
      ∃ f ∈ m.pool.stack j, f.task = g.task ∧
        (f.pc = g.pc ∨ f.pc.awaits ≠ none ∧ g.pc.awaits ≠ none) := by
    intro j g inside
    simp only [State.setStack] at inside
    by_cases here : j = th
    · subst here
      rw [Function.update_self] at inside
      rcases List.mem_cons.mp inside with rfl | buried
      · exact ⟨⟨task, pc⟩, top ▸ List.mem_cons_self, rfl, .inr ⟨first, second⟩⟩
      · exact ⟨g, top ▸ List.mem_cons_of_mem _ buried, rfl, .inl rfl⟩
    · rw [Function.update_of_ne here] at inside
      exact ⟨g, inside, rfl, .inl rfl⟩
  refine ⟨costs.known, fun j g inside => ?_, costs.queued, fun j g inside t its => ?_⟩
  · obtain ⟨f, before, task_eq, same⟩ := old j g inside
    have due := costs.begun j f before
    rw [task_eq] at due
    rw [size_pool]
    rcases same with pc_eq | ⟨f_waits, g_waits⟩
    · exact pc_eq ▸ due
    · rw [left_awaits f_waits] at due
      rw [left_awaits g_waits]
      exact due
  · obtain ⟨f, before, -, same⟩ := old j g inside
    rcases same with pc_eq | ⟨-, g_waits⟩
    · exact costs.submitted j f before t (pc_eq ▸ its)
    · rw [Pc.submits_awaits g_waits] at its
      cases its

end Moves

theorem step_alone {m : Machine R Tid Kid n} {th : Thread Kid n} {pool : State Tid Kid n}
    (moved : ForkJoin.step m.pool (.step th) = some pool) (nothing : m.collects th = none) :
    m.step (.step th) = some { m with pool } := by
  simp only [Machine.step, moved, Option.map_some, nothing]

omit [DecidableEq Tid] [DecidableEq Kid] [NeZero n] in
theorem collects_none {m : Machine R Tid Kid n} {th : Thread Kid n} {task : Tid} {pc : Pc Tid n}
    {below : List (Frame Tid n)} (top : m.pool.stack th = ⟨task, pc⟩ :: below)
    (waits : ∀ child, pc = .load child → m.pool.m_ready child = false) : m.collects th = none := by
  cases pc with
  | load child => simp only [Machine.collects, top, waits child rfl, Bool.false_eq_true, if_false]
  | running | index | insert | publish | fetchAdd | notify | steal | final_suspend =>
    simp only [Machine.collects, top]

omit [DecidableEq Tid] [DecidableEq Kid] [NeZero n] in
theorem collects_idle {m : Machine R Tid Kid n} {th : Thread Kid n} (idle : m.pool.stack th = []) :
    m.collects th = none := by
  simp only [Machine.collects, idle]

theorem moved_frame {s : State Tid Kid n} {th : Thread Kid n} {task : Tid} {pc : Pc Tid n}
    {below : List (Frame Tid n)} (top : s.stack th = ⟨task, pc⟩ :: below) :
    ForkJoin.step s (.step th) = frameStep s th task below pc := by
  simp only [ForkJoin.step, top]

/-- In derived_execute the next access is always possible. -/
theorem submits_onward (s : State Tid Kid n) (th : Thread Kid n) (task : Tid)
    (below : List (Frame Tid n)) {pc : Pc Tid n} (awaits : pc.awaits = none) (busy : pc ≠ .running)
    (runs : pc ≠ .final_suspend) : ∃ t pc', frameStep s th task below pc = some t ∧
      t.stack = Function.update s.stack th (⟨task, pc'⟩ :: below) ∧ t.created = s.created ∧
      (∀ size, pc'.left size < pc.left size) ∧
      (∀ c, ∀ x ∈ (t.queue c).map Item.call, x ∈ (s.queue c).map Item.call ∨ pc.submits = some x) ∧
      (pc'.submits = none ∨ pc'.submits = pc.submits) := by
  cases pc with
  | running => exact absurd rfl busy
  | final_suspend => exact absurd rfl runs
  | load | steal => cases awaits
  | index child =>
    exact ⟨_, _, rfl, rfl, rfl, fun _ => Nat.lt_succ_self _, fun _ _ => .inl, .inr rfl⟩
  | insert child idx =>
    refine ⟨_, _, rfl, rfl, rfl, fun _ => Nat.lt_succ_self _, fun c x inside => ?_, .inl rfl⟩
    simp only [State.setStack, State.setQueue] at inside
    by_cases here : c = idx
    · subst here
      rw [Function.update_self, List.map_append] at inside
      rcases List.mem_append.mp inside with old | new
      · exact .inl old
      · cases List.mem_singleton.mp new
        exact .inr rfl
    · rw [Function.update_of_ne here] at inside
      exact .inl inside
  | publish child idx =>
    refine ⟨_, _, rfl, rfl, rfl, fun _ => Nat.lt_succ_self _, fun c x inside => .inl ?_, .inl rfl⟩
    simp only [State.setStack, State.setQueue] at inside
    by_cases here : c = idx
    · subst here
      rw [Function.update_self, Sandbox.publish_calls] at inside
      exact inside
    · rw [Function.update_of_ne here] at inside
      exact inside
  | fetchAdd idx | notify idx =>
    exact ⟨_, _, rfl, rfl, rfl, fun _ => Nat.lt_succ_self _, fun _ _ => .inl, .inl rfl⟩

def Machine.ran (m : Machine R Tid Kid n) (pool : State Tid Kid n) (task child : Tid)
    (body rest : Body R) : Machine R Tid Kid n :=
  { (m.create child body).setBody task rest with
    pool, locals := Function.update m.locals task (m.locals task ++ [child]) }

section Running
variable {m : Machine R Tid Kid n} {k : Nat} {th : Thread Kid n} {task : Tid}
  {below : List (Frame Tid n)}

theorem submitting_lowers (b : m.Bounded k) {pc : Pc Tid n}
    (top : m.pool.stack th = ⟨task, pc⟩ :: below) (awaits : pc.awaits = none) (busy : pc ≠ .running)
    (runs : pc ≠ .final_suspend) : m.Lower k := by
  obtain ⟨pool, pc', moved, stack, created, less, queued, submits⟩ :=
    submits_onward m.pool th task below awaits busy runs
  have nothing := collects_none top fun child same => by rw [same] at awaits; cases awaits
  exact b.onward (e := .step th) trivial (step_alone ((moved_frame top).trans moved) nothing) top stack
    created (fun _ _ => rfl) (less _) queued submits

theorem ended_lowers (b : m.Bounded k) (top : m.pool.stack th = ⟨task, .final_suspend⟩ :: below) :
    m.Lower k := by
  obtain ⟨known, cost, costs, bound⟩ := b.within
  have here : (⟨task, .final_suspend⟩ : Frame Tid n) ∈ m.pool.stack th := top ▸ List.mem_cons_self
  have taken : m.step (.step th) = some { m with pool := m.pool.setStack th below } :=
    step_alone (moved_frame top) (collects_none top fun _ no => by cases no)
  have away := begun_away b.pool here
  have kept : ∀ f ∈ below, f ∈ m.pool.stack th := fun f inside => top ▸ List.mem_cons_of_mem _ inside
  refine b.lower (e := .step th) trivial taken ⟨_, ?_, known, _, costs.step (x := 0) rfl (fun _ _ => rfl) rfl (top_others b.pool top) ⟨away.1, fun j f inside => ?_⟩
    (fun g inside => ?_) (fun _ _ => .inl) (fun g inside t its => ⟨g, kept g inside, its⟩),
    Nat.le_refl _⟩
  · exact sum_lower ((costs.known task).mpr (frame_created b.pool here)) (costs.begun th _ here) bound
  · simp only [State.setStack] at inside
    by_cases same : j = th
    · subst same
      rw [Function.update_self] at inside
      exact away.2 j f (kept f inside)
    · rw [Function.update_of_ne same] at inside
      exact away.2 j f inside
  · exact .inr ⟨below_other b.pool top inside, g, kept g inside, rfl, Nat.le_refl _⟩

omit [DecidableEq Kid] [NeZero n] in
theorem ran_size (sound : m.Sound m.pool.created) {child : Tid} {body rest : Body R}
    (fresh : m.pool.created child = false) (pool : State Tid Kid n)
    (at_task : m.body task = some (.run body rest)) :
    (m.ran pool task child body rest).size child = body.size [] ∧
      (m.ran pool task child body rest).size task =
        rest.size ((m.locals task).map m.result ++ [body.eval []]) ∧
      ∀ t, t ≠ task → t ≠ child → (m.ran pool task child body rest).size t = m.size t := by
  have different : task ≠ child := by
    rintro rfl
    rw [(sound.fresh task fresh).1] at at_task
    cases at_task
  have results : ∀ t, t ≠ child → (m.ran pool task child body rest).result t = m.result t :=
    fun t other => by
      simp only [Machine.ran, Machine.result, Machine.create, Machine.setBody,
        Function.update_of_ne other]
  have its : (m.ran pool task child body rest).result child = body.eval [] := by
    simp only [Machine.ran, Machine.result, Machine.create, Machine.setBody, Function.update_self,
      Option.bind_some]
  have old : ∀ t, (m.locals t).map (m.ran pool task child body rest).result =
      (m.locals t).map m.result := fun t => List.map_congr_left fun c mem => results c fun same => by
    rw [← same, sound.born t c mem] at fresh
    cases fresh
  refine ⟨?_, ?_, fun t left right => ?_⟩
  · have empty : m.locals child = [] := (sound.fresh child fresh).2
    simp only [Machine.size, Machine.ran, Machine.create, Machine.setBody,
      Function.update_of_ne different.symm, Function.update_self, empty, List.map_nil]
  · have at_rest : (m.ran pool task child body rest).body task = some rest := Function.update_self ..
    have grown : (m.ran pool task child body rest).locals task = m.locals task ++ [child] :=
      Function.update_self ..
    simp only [Machine.size, at_rest, grown, List.map_append, List.map_singleton, old, its]
  · have at_t : (m.ran pool task child body rest).body t = m.body t :=
      (Function.update_of_ne left ..).trans (Function.update_of_ne right ..)
    have locals : (m.ran pool task child body rest).locals t = m.locals t :=
      Function.update_of_ne left ..
    simp only [Machine.size, at_t, locals, old]

theorem running_lowers [Infinite Tid] (b : m.Bounded k)
    (top : m.pool.stack th = ⟨task, .running⟩ :: below) : m.Lower k := by
  have here : (⟨task, .running⟩ : Frame Tid n) ∈ m.pool.stack th := top ▸ List.mem_cons_self
  have born := frame_created b.pool here
  have mine : m.task th = some task := by rw [Machine.task, top]; rfl
  obtain ⟨body, pending, owns⟩ := (reached_joining b.reached).owns task born
  have at_task := owns.body
  cases body with
  | finish result =>
    have none_left : pending = [] := owns.joins
    have childless : m.pool.children task = [] := by rw [owns.children, none_left]; rfl
    have size : m.size task = 1 := by simp only [Machine.size, at_task, Body.size]
    refine b.onward (e := .finish th) (q := .final_suspend) trivial
      (u := { m with
        pool := { m.pool with m_ready := Function.update m.pool.m_ready task true }.setStack th
          (⟨task, .final_suspend⟩ :: below)
        m_data := Function.update m.m_data task (some result) })
      ?_ top rfl rfl (fun _ _ => rfl) ?_ (fun _ _ => .inl) (.inl rfl)
    · simp only [Machine.step, mine, at_task, ForkJoin.step, top, childless, Option.map_some]
    · simp only [Pc.left, size]
      omega
  | get i rest =>
    obtain ⟨mem, -⟩ := owns.joins
    obtain ⟨child, handle⟩ : ∃ child, (m.locals task)[i]? = some child :=
      ⟨_, List.getElem?_eq_getElem (owns.inside i mem)⟩
    have its : child ∈ m.pool.children task := by
      rw [owns.children]
      exact List.mem_filterMap.mpr ⟨i, mem, handle⟩
    refine b.onward (e := .get th) (q := .load child) trivial
      (u := { m with pool := m.pool.setStack th (⟨task, .load child⟩ :: below) })
      ?_ top rfl rfl (fun _ _ => rfl) (Nat.lt_succ_self _) (fun _ _ => .inl) (.inl rfl)
    simp only [Machine.step, mine, at_task, handle, ForkJoin.step, top, its, if_true, Option.map_some]
  | run body rest =>
    obtain ⟨known, cost, costs, bound⟩ := b.within
    obtain ⟨child, outside⟩ := Infinite.exists_notMem_finset known
    have fresh : m.pool.created child = false :=
      Bool.eq_false_iff.mpr fun yes => outside ((costs.known child).mpr yes)
    have unstarted := unstarted_fresh b.pool fresh
    have different : task ≠ child := unstarted th _ here
    have unborn : m.pool.away child := by
      refine ⟨fun c inside => ?_, fun j f inside its => ?_⟩
      · rw [queued_created b.pool inside] at fresh
        cases fresh
      · rw [submitted_created b.pool inside its] at fresh
        cases fresh
    let pool := { m.pool with
      created := Function.update m.pool.created child true
      children := Function.update m.pool.children task (child :: m.pool.children task) }.setStack th
        (⟨task, .index child⟩ :: below)
    have taken : m.step (.run th child) = some (m.ran pool task child body rest) := by
      simp only [Machine.step, mine, at_task, ForkJoin.step, top, fresh, Bool.false_eq_true, if_false,
        Option.map_some]
      rfl
    obtain ⟨its, its_parents, others⟩ := ran_size b.inv.sound fresh pool at_task
    have before : m.size task = body.size [] + (m.ran pool task child body rest).size task + 1 := by
      rw [its_parents]
      simp only [Machine.size, at_task, Body.size]
    exact b.lower (e := .run th child) trivial taken (costs.run top born (top_others b.pool top)
      (fun f inside => below_other b.pool top inside) (begun_away b.pool here) fresh unstarted unborn
      rfl rfl rfl others before rfl its bound)

theorem collected_lowers (b : m.Bounded k) {child : Tid}
    (top : m.pool.stack th = ⟨task, .load child⟩ :: below) (ready : m.pool.m_ready child = true) :
    m.Lower k := by
  obtain ⟨i, rest, r, at_task, handle, data, collects⟩ := collects_ready b.inv top ready
  let joined := Function.update m.pool.children task ((m.pool.children task).erase child)
  let pool := { m.pool with children := joined }.setStack th (⟨task, .running⟩ :: below)
  have moved : ForkJoin.step m.pool (.step th) = some pool := by
    rw [moved_frame top]
    simp only [frameStep, ready, if_true, pool, joined]
  have taken : m.step (.step th) = some { m.setBody task (rest r) with pool } := by
    simp only [Machine.step, moved, Option.map_some, collects]
  have got : ((m.locals task).map m.result)[i]? = some (some r) := by
    rw [List.getElem?_map, handle, Option.map_some, (b.inv.sound.stored child r data).2]
  have before : m.size task = (rest r).size ((m.locals task).map m.result) + 1 := by
    simp only [Machine.size, at_task, Body.size, got]
  have after : ({ m.setBody task (rest r) with pool } : Machine R Tid Kid n).size task =
      (rest r).size ((m.locals task).map m.result) := by
    simp only [Machine.size, Machine.setBody, Function.update_self]
    rfl
  refine b.onward (e := .step th) trivial taken top rfl rfl (fun t other => ?_) ?_ (fun _ _ => .inl)
    (.inl rfl)
  · simp only [Machine.size, Machine.setBody, Function.update_of_ne other]
    rfl
  · rw [after, before]
    simp only [Pc.left]
    omega

/-- Where the task is when its steal() has looked at a context in vain. -/
theorem passed_by {child : Tid} {c : Fin n} {more : List (Fin n)}
    (top : m.pool.stack th = ⟨task, .steal child (c :: more)⟩ :: below)
    (empty : pop (m.pool.queue c) = none) : m.step (.step th) =
      some { m with pool := m.pool.setStack th (⟨task, .steal child more⟩ :: below) } := by
  refine step_alone ?_ (collects_none top fun _ no => by cases no)
  rw [moved_frame top]
  simp only [frameStep, empty]

theorem stolen_lowers (b : m.Bounded k) {child : Tid} {c : Fin n} {more : List (Fin n)}
    {item : Item Tid} {rest : List (Item Tid)}
    (top : m.pool.stack th = ⟨task, .steal child (c :: more)⟩ :: below)
    (popped : pop (m.pool.queue c) = some (item, rest)) : m.Lower k := by
  let pool := (m.pool.setQueue c rest).setStack th
    (⟨item.call, .running⟩ :: ⟨task, .load child⟩ :: below)
  have taken : m.step (.step th) = some { m with pool } := by
    refine step_alone ?_ (collects_none top fun _ no => by cases no)
    rw [moved_frame top]
    simp only [frameStep, popped, pool]
  refine b.starts (e := .step th) trivial taken popped rfl rfl rfl (fun _ => rfl) fun g inside => ?_
  rcases List.mem_cons.mp inside with rfl | buried
  · exact ⟨⟨task, .steal child (c :: more)⟩, top ▸ List.mem_cons_self, rfl, rfl, Nat.le_refl _⟩
  · have old : g ∈ m.pool.stack th := top ▸ List.mem_cons_of_mem _ buried
    obtain ⟨place, clock, h⟩ := reached_ordered b.pool
    have piled := h.buried th
    simp only [State.view, top] at piled
    exact ⟨g, old, rfl, Pc.submits_awaits ((List.pairwise_cons.mp piled).1 g buried).1, Nat.le_refl _⟩

omit [DecidableEq Tid] [NeZero n] in
theorem setStack_top (s : State Tid Kid n) (th : Thread Kid n) (frames : List (Frame Tid n)) :
    (s.setStack th frames).stack th = frames := Function.update_self ..

omit [DecidableEq Tid] [NeZero n] in
theorem setStack_setStack (s : State Tid Kid n) (th : Thread Kid n) (old new : List (Frame Tid n)) :
    (s.setStack th old).setStack th new = s.setStack th new := by
  simp only [State.setStack, Function.update_idem]

/-- steal() finds a task where there is one. -/
theorem scan_lowers (b : m.Bounded k) {child : Tid} (contexts : List (Fin n))
    (top : m.pool.stack th = ⟨task, .steal child contexts⟩ :: below) {c : Fin n}
    (mem : c ∈ contexts) (available : Available (m.pool.queue c)) : m.Lower k := by
  induction contexts generalizing m with
  | nil => cases mem
  | cons d more ih =>
    cases looked : pop (m.pool.queue d) with
    | some got => exact stolen_lowers b top looked
    | none =>
      have later : c ∈ more := by
        refine (List.mem_cons.mp mem).resolve_left ?_
        rintro rfl
        exact Sandbox.not_available_of_pop looked available
      have taken := passed_by top looked
      have after := b.waits (e := .step th) (q := .steal child more) trivial taken top
        (fun no => by cases no) (fun no => by cases no) rfl
      exact .next taken (ih after (setStack_top ..) later available)

theorem scan_back (b : m.Bounded k) {child : Tid} (contexts : List (Fin n))
    (top : m.pool.stack th = ⟨task, .steal child contexts⟩ :: below)
    (back : ∀ u : Machine R Tid Kid n, u.Bounded k →
      u = { m with pool := m.pool.setStack th (⟨task, .load child⟩ :: below) } → u.Lower k) :
    m.Lower k := by
  induction contexts generalizing m with
  | nil =>
    have taken : m.step (.step th) =
        some { m with pool := m.pool.setStack th (⟨task, .load child⟩ :: below) } :=
      step_alone (moved_frame top) (collects_none top fun _ no => by cases no)
    have after := b.waits (e := .step th) (q := .load child) trivial taken top
      (fun no => by cases no) (fun no => by cases no) rfl
    exact .next taken (back _ after rfl)
  | cons d more ih =>
    cases looked : pop (m.pool.queue d) with
    | some got => exact stolen_lowers b top looked
    | none =>
      have taken := passed_by top looked
      have after := b.waits (e := .step th) (q := .steal child more) trivial taken top
        (fun no => by cases no) (fun no => by cases no) rfl
      refine .next taken (ih after (setStack_top ..) fun u bound same => ?_)
      refine back u bound (same.trans ?_)
      rw [setStack_setStack]

theorem joined_lowers (b : m.Bounded k) {pc : Pc Tid n} {child : Tid}
    (top : m.pool.stack th = ⟨task, pc⟩ :: below) (awaits : pc.awaits = some child)
    (ready : m.pool.m_ready child = true) : m.Lower k := by
  cases pc with
  | load c =>
    cases awaits
    exact collected_lowers b top ready
  | steal c contexts =>
    cases awaits
    refine scan_back b contexts top fun u bound same => ?_
    subst same
    exact collected_lowers bound (setStack_top ..) ready
  | running | index | insert | publish | fetchAdd | notify | final_suspend => cases awaits

theorem waiting_lowers (b : m.Bounded k) {pc : Pc Tid n} {child : Tid}
    (top : m.pool.stack th = ⟨task, pc⟩ :: below) (awaits : pc.awaits = some child)
    (unready : m.pool.m_ready child = false) {c : Fin n} (available : Available (m.pool.queue c)) :
    m.Lower k := by
  have looks : ∀ u : Machine R Tid Kid n, u.Bounded k →
      u = { m with pool := m.pool.setStack th (⟨task, .load child⟩ :: below) } → u.Lower k := by
    rintro _ bound rfl
    have at_load : (m.pool.setStack th (⟨task, .load child⟩ :: below)).stack th =
        ⟨task, .load child⟩ :: below := setStack_top ..
    have taken : Machine.step { m with pool := m.pool.setStack th (⟨task, .load child⟩ :: below) }
        (.step th) = some { m with
          pool := (m.pool.setStack th (⟨task, .load child⟩ :: below)).setStack th
            (⟨task, .steal child (List.finRange n)⟩ :: below) } := by
      refine step_alone ?_ (collects_none at_load fun d same => by cases same; exact unready)
      rw [moved_frame at_load]
      have still : (m.pool.setStack th (⟨task, .load child⟩ :: below)).m_ready child = false := unready
      simp only [frameStep, still, Bool.false_eq_true, if_false]
    have after := bound.waits (e := .step th) (q := .steal child (List.finRange n)) trivial taken
      at_load (fun no => by cases no) (fun no => by cases no) rfl
    exact .next taken
      (scan_lowers after _ (setStack_top ..) (List.mem_finRange c) available)
  cases pc with
  | load d =>
    cases awaits
    refine looks m b ?_
    have same : m.pool.setStack th (⟨task, .load child⟩ :: below) = m.pool := by
      simp only [State.setStack, ← top, Function.update_eq_self]
    rw [same]
  | steal d contexts =>
    cases awaits
    exact scan_back b contexts top looks
  | running | index | insert | publish | fetchAdd | notify | final_suspend => cases awaits

end Running

section Idle
variable {m : Machine R Tid Kid n} {k : Nat} {i : Fin n}

theorem moved_loop {s : State Tid Kid n} (idle : s.stack (.worker i) = []) :
    ForkJoin.step s (.step (.worker i)) = loopStep s i (s.loop i) := by
  simp only [ForkJoin.step, idle]

theorem Machine.Bounded.loop (b : m.Bounded k) {e : Event R Tid Kid n} (joins : e.joins)
    {p : Loop n} (taken : m.step e = some { m with pool := m.pool.setLoop i p }) :
    Machine.Bounded { m with pool := m.pool.setLoop i p } k := by
  obtain ⟨known, cost, costs, bound⟩ := b.within
  exact ⟨b.reached.next joins taken, known, cost,
    ⟨costs.known, costs.begun, costs.queued, costs.submitted⟩, bound⟩

theorem popped_lowers (b : m.Bounded k) (idle : m.pool.stack (.worker i) = []) {c : Fin n}
    {item : Item Tid} {rest : List (Item Tid)} (popped : pop (m.pool.queue c) = some (item, rest))
    (moved : loopStep m.pool i (m.pool.loop i) = some
      (((m.pool.setQueue c rest).setLoop i .load).setStack (.worker i) [⟨item.call, .running⟩])) :
    m.Lower k := by
  have taken := step_alone ((moved_loop idle).trans moved) (collects_idle idle)
  exact b.starts (e := .step (.worker i)) trivial taken popped rfl rfl rfl (fun _ => rfl)
    fun g no => by cases no

/-- A worker that has not found anything since its notifier advanced does not sleep. -/
theorem idle_lowers (b : m.Bounded k) (idle : m.pool.stack (.worker i) = [])
    (available : Available (m.pool.queue i)) (quiet : ¬ m.pool.at (.fetchAdd i)) : m.Lower k := by
  have alone : ∀ {u : Machine R Tid Kid n} {p : Loop n}, u.Bounded k →
      u.pool.stack (.worker i) = [] → loopStep u.pool i (u.pool.loop i) = some (u.pool.setLoop i p) →
      (Machine.Bounded { u with pool := u.pool.setLoop i p } k →
        Machine.Lower { u with pool := u.pool.setLoop i p } k) → u.Lower k := by
    intro u p bound nothing moved later
    have taken := step_alone ((moved_loop nothing).trans moved) (collects_idle nothing)
    exact .next taken (later (bound.loop (e := .step (.worker i)) trivial taken))
  have set_loop : ∀ (u : Machine R Tid Kid n) (p : Loop n), (u.pool.setLoop i p).loop i = p :=
    fun u p => Function.update_self ..
  -- its own queue
  have own : ∀ {u : Machine R Tid Kid n} {v : Nat}, u.Bounded k → u.pool.stack (.worker i) = [] →
      Available (u.pool.queue i) → u.pool.loop i = .popOwn v → u.Lower k := by
    intro u v bound nothing some_task at_pc
    obtain ⟨item, rest, popped⟩ := some_task
    refine popped_lowers bound nothing popped ?_
    rw [at_pc]
    simp only [loopStep, popped]
  have load : ∀ {u : Machine R Tid Kid n}, u.Bounded k → u.pool.stack (.worker i) = [] →
      Available (u.pool.queue i) → u.pool.loop i = .load → u.Lower k := by
    intro u bound nothing some_task at_pc
    refine alone bound nothing (p := .popOwn (u.pool.notifier i)) (by rw [at_pc]; rfl) fun after => ?_
    exact own after nothing some_task (set_loop ..)
  have wait : ∀ {u : Machine R Tid Kid n} {v : Nat}, u.Bounded k → u.pool.stack (.worker i) = [] →
      Available (u.pool.queue i) → u.pool.notifier i ≠ v → u.pool.loop i = .wait v → u.Lower k := by
    intro u v bound nothing some_task stale at_pc
    refine alone bound nothing (p := .load) (by rw [at_pc]; simp only [loopStep, if_neg stale])
      fun after => load after nothing some_task (set_loop ..)
  have scan : ∀ (targets : List (Fin n)) {u : Machine R Tid Kid n} {v : Nat}, u.Bounded k →
      u.pool.stack (.worker i) = [] → Available (u.pool.queue i) → u.pool.notifier i ≠ v →
      u.pool.loop i = .scanning v targets → u.Lower k := by
    intro targets
    induction targets with
    | nil => exact fun bound nothing some_task stale at_pc => wait bound nothing some_task stale at_pc
    | cons target more ih =>
      intro u v bound nothing some_task stale at_pc
      cases looked : pop (u.pool.queue target) with
      | some got =>
        refine popped_lowers bound nothing looked ?_
        rw [at_pc]
        simp only [Loop.scanning, loopStep, looked]
      | none =>
        refine alone bound nothing (p := .scanning v more) ?_ fun after =>
          ih after nothing some_task stale (set_loop ..)
        rw [at_pc]
        simp only [Loop.scanning, loopStep, looked]
  have stale : ∀ v, (m.pool.loop i).seeks.relies = some v → m.pool.notifier i ≠ v := by
    intro v relies same
    rcases ((reached_watched b.pool).counters i).found () v relies available with less | owed
    · exact absurd same (Nat.ne_of_gt less)
    · exact quiet owed
  cases at_pc : m.pool.loop i with
  | load => exact load b idle available at_pc
  | popOwn v => exact own b idle available at_pc
  | scan v target more =>
    exact scan (target :: more) b idle available (stale v (by rw [at_pc]; rfl)) at_pc
  | wait v => exact wait b idle available (stale v (by rw [at_pc]; rfl)) at_pc
  | blocked v =>
    have taken : m.step (.wake i) = some { m with pool := m.pool.setLoop i (.wait v) } := by
      simp only [Machine.step, ForkJoin.step, at_pc, Option.map_some]
    refine .next taken (wait (b.loop (e := .wake i) trivial taken) idle available ?_
      (set_loop ..))
    exact stale v (by rw [at_pc]; rfl)

end Idle

variable [Infinite Tid] {m : Machine R Tid Kid n}

/-- While some task has not ended, some thread can lower what is left to do. -/
theorem unfinished_lowers {k : Nat} (b : m.Bounded k) {t : Tid} (unfinished : m.pool.unfinished t) :
    m.Lower k := by
  by_cases goes_on : ∃ th f below, m.pool.stack th = f :: below ∧ ¬ m.pool.waiting f
  · obtain ⟨th, ⟨task, pc⟩, below, top, going⟩ := goes_on
    cases awaits : pc.awaits with
    | some child =>
      have ready : m.pool.m_ready child = true := by
        by_contra unready
        exact going ⟨child, awaits, Bool.eq_false_iff.mpr unready⟩
      exact joined_lowers b top awaits ready
    | none =>
      by_cases running : pc = .running
      · subst running
        exact running_lowers b top
      · by_cases ended : pc = .final_suspend
        · subst ended
          exact ended_lowers b top
        · exact submitting_lowers b top awaits running ended
  · have all_wait : ∀ th f below, m.pool.stack th = f :: below → m.pool.waiting f :=
      fun th f below top => by_contra fun going => goes_on ⟨th, f, below, top, going⟩
    have nobody : ∀ {pc : Pc Tid n}, pc.awaits = none → ¬ m.pool.at pc := by
      intro pc awaits at_pc
      obtain ⟨th, f, below, top, rfl⟩ := at_top_of b.pool awaits at_pc
      exact State.waiting_awaits (all_wait th f below top) awaits
    obtain ⟨c, nonempty⟩ : ∃ c, m.pool.queue c ≠ [] := by
      by_contra none_queued
      refine goes_on (some_thread_goes_on b.pool (fun c => ?_) unfinished)
      by_contra some_queued
      exact none_queued ⟨c, some_queued⟩
    -- whoever had to publish it would not wait
    have available : Available (m.pool.queue c) := by
      cases queue : m.pool.queue c with
      | nil => exact absurd queue nonempty
      | cons x rest =>
        refine Sandbox.available_cons.mpr ?_
        by_contra unpublished
        exact nobody rfl ((reached_watched b.pool).publishing c x (queue ▸ List.mem_cons_self)
          (Bool.eq_false_iff.mpr unpublished))
    cases stack : m.pool.stack (.worker c) with
    | nil => exact idle_lowers b stack available (nobody rfl)
    | cons f below =>
      obtain ⟨child, awaits, unready⟩ := all_wait _ f below stack
      exact waiting_lowers b stack awaits unready available

omit [Infinite Tid] in
theorem reached_known (reached : Reached (programs R Tid Kid n) m) :
    ∃ known : Finset Tid, ∀ t, t ∈ known ↔ m.pool.created t = true := by
  induction reached with
  | start first =>
    cases first
    exact ⟨∅, fun t => ⟨fun no => (by cases no), fun no => (by cases no)⟩⟩
  | @next m e u before _ taken ih =>
    obtain ⟨known, h⟩ := ih
    have grown : ∀ task, u.pool.created = Function.update m.pool.created task true →
        ∃ known : Finset Tid, ∀ t, t ∈ known ↔ u.pool.created t = true := by
      intro task created
      refine ⟨insert task known, fun t => ?_⟩
      rw [Finset.mem_insert, created, Function.update_apply, h]
      split
      · rename_i same
        exact ⟨fun _ => rfl, fun _ => .inl same⟩
      · rename_i other
        exact ⟨fun mem => mem.resolve_left other, .inr⟩
    have kept : u.pool.created = m.pool.created →
        ∃ known : Finset Tid, ∀ t, t ∈ known ↔ u.pool.created t = true :=
      fun created => ⟨known, fun t => created ▸ h t⟩
    obtain ⟨a, moved⟩ := step_pool taken
    cases a with
    | enter k task => exact grown task (enter_cases moved).2.1
    | run th child => exact grown child (run_cases moved).2.2.1
    | get th child => exact kept (get_cases moved).1
    | finish th =>
      obtain ⟨_, _, -, created, -⟩ := finish_cases moved
      exact kept created
    | step th => exact kept (step_flags (reached_ordered (pool_reached before)) moved).1
    | wake i => exact kept (wake_cases moved).1

omit [Infinite Tid] in
theorem reached_bounded
    (reached : ReachedUnder (programs R Tid Kid n) (fun _ e => e.joins) m) : ∃ k, m.Bounded k := by
  obtain ⟨known, h⟩ := reached_known reached.reached
  refine ⟨_, reached, known, fun t => 8 * m.size t + 6, ⟨h, fun th f _ => left_le _ f.pc, ?_, ?_⟩,
    Nat.le_refl _⟩
  · exact fun c t _ => Nat.add_le_add_left (by decide) _
  · exact fun th f _ t _ => Nat.add_le_add_left (by decide) _

/-- From every state that tasks which join their children can bring the pool to, a run leads on to
where all of them have ended, each with the result of its direct evaluation. -/
theorem always_completes (reached : ReachedUnder (programs R Tid Kid n) (fun _ e => e.joins) m) :
    ∃ es u, replay (programs R Tid Kid n) m es = some u ∧
      (∀ t, u.pool.created t = true → u.pool.m_ready t = true) ∧
      ∀ t, m.pool.created t = true → ∃ r, m.result t = some r ∧ u.m_data t = some r := by
  obtain ⟨k, bounded⟩ := reached_bounded reached
  have ends : Leads (programs R Tid Kid n) m fun u => Reached (programs R Tid Kid n) u ∧
      ∀ t, u.pool.created t = true → u.pool.m_ready t = true := by
    refine Leads.lowers (I := Machine.Bounded) (fun u j bound => ?_) bounded
    by_cases done : ∀ t, u.pool.created t = true → u.pool.m_ready t = true
    · exact .inl ⟨bound.reached.reached, done⟩
    · obtain ⟨t, left⟩ := not_forall.mp done
      obtain ⟨created, unready⟩ := Classical.not_imp.mp left
      exact .inr (unfinished_lowers bound ⟨created, Bool.eq_false_iff.mpr unready⟩)
  obtain ⟨es, u, run, last, done⟩ := ends
  refine ⟨es, u, run, done, fun t born => ?_⟩
  have kept : Reached (programs R Tid Kid n) u ∧ u.pool.created t = true ∧ u.whole t = m.whole t :=
    replay_invariant (I := fun x => Reached (programs R Tid Kid n) x ∧ x.pool.created t = true ∧
        x.whole t = m.whole t)
      (fun x e y h taken => by
        obtain ⟨created, whole⟩ := step_whole h.1 taken h.2.1
        exact ⟨h.1.next taken, created, whole.trans h.2.2⟩) ⟨reached.reached, born, rfl⟩ es run
  obtain ⟨r, data, result⟩ := ready_result last (done t kept.2.1)
  rw [Machine.result, kept.2.2] at result
  exact ⟨r, result, data⟩

def forking : List (Event Nat Nat Unit 7) :=
  .enter () 0 successor :: .run (.external ()) 1 :: List.replicate 5 (.step (.external ()))

def forked : Machine Nat Nat Unit 7 :=
  (replay (programs Nat Nat Unit 7) (.initial Nat Nat Unit 7) forking).get (by decide)

theorem always_completes_forked : ∃ es u, replay (programs Nat Nat Unit 7) forked es = some u ∧
    u.m_data 0 = some 8 := by
  have joins : ∀ e ∈ forking, e.joins := by
    intro e mem
    rcases List.mem_cons.mp mem with rfl | mem
    · exact ⟨rfl, List.mem_cons_self, fun _ => rfl⟩
    · rcases List.mem_cons.mp mem with rfl | mem
      · trivial
      · rw [List.eq_of_mem_replicate mem]
        trivial
  have start : ReachedUnder (programs Nat Nat Unit 7) (fun _ e => e.joins) (.initial Nat Nat Unit 7) :=
    .start rfl
  have reached : ReachedUnder (programs Nat Nat Unit 7) (fun _ e => e.joins) forked :=
    replay_among (fun _ _ _ before ok taken => before.next ok taken) start forking joins
      (Option.some_get _).symm
  obtain ⟨es, u, run, -, results⟩ := always_completes reached
  obtain ⟨r, result, data⟩ := results 0 (by decide)
  have eight : forked.result 0 = some 8 := by decide
  exact ⟨es, u, run, data.trans (result.symm.trans eight)⟩

end Pot.ForkJoin
