import Pot.ForkJoinValues

/-! Bodies that join what they fork: each child that is run is got once. Then the children of a task
are those its body has still to get. -/
namespace Pot.ForkJoin
open Transition

variable {R Tid Kid : Type} {n : Nat}

/-- `count` children have been run, of which `pending` have still to be got. -/
def Body.Joins : Body R → Nat → List Nat → Prop
  | .finish _, _, pending => pending = []
  | .run child rest, count, pending =>
    child.Joins 0 [] ∧ rest.Joins (count + 1) (count :: pending)
  | .get i rest, count, pending => i ∈ pending ∧ ∀ r, (rest r).Joins count (pending.erase i)

def Event.joins : Event R Tid Kid n → Prop
  | .enter _ _ body => body.Joins 0 []
  | _ => True

/-- What is left of a task joins what is left of its children. -/
structure Machine.Owns (m : Machine R Tid Kid n) (t : Tid) (b : Body R) (pending : List Nat) :
    Prop where
  body : m.body t = some b
  joins : b.Joins (m.locals t).length pending
  inside : ∀ i ∈ pending, i < (m.locals t).length
  children : m.pool.children t = pending.filterMap fun i => (m.locals t)[i]?

structure Machine.Joining (m : Machine R Tid Kid n) : Prop where
  owns : ∀ t, m.pool.created t = true → ∃ b pending, m.Owns t b pending
  distinct : ∀ t, (m.locals t).Nodup

theorem filterMap_erase [DecidableEq Tid] {f : Nat → Option Tid} {i : Nat} {c : Tid}
    (here : f i = some c) (pending : List Nat) (only : ∀ j ∈ pending, f j = some c → j = i) :
    (pending.filterMap f).erase c = (pending.erase i).filterMap f := by
  induction pending with
  | nil => rfl
  | cons j rest ih =>
    have later := ih fun k inside => only k (List.mem_cons_of_mem j inside)
    by_cases same : j = i
    · subst same
      rw [List.filterMap_cons_some here, List.erase_cons_head, List.erase_cons_head]
    · rw [List.erase_cons_tail (by simpa using same)]
      cases at_j : f j with
      | none =>
        rw [List.filterMap_cons_none at_j, List.filterMap_cons_none at_j]
        exact later
      | some d =>
        have other : d ≠ c := fun eq => same (only j List.mem_cons_self (eq ▸ at_j))
        rw [List.filterMap_cons_some at_j, List.filterMap_cons_some at_j,
          List.erase_cons_tail (by simpa using other), later]

theorem filterMap_grown {locals : List Tid} {c : Tid} {pending : List Nat}
    (inside : ∀ i ∈ pending, i < locals.length) :
    (pending.filterMap fun i => (locals ++ [c])[i]?) = pending.filterMap fun i => locals[i]? := by
  refine List.filterMap_congr fun i mem => ?_
  exact List.getElem?_append_left (inside i mem)

theorem Machine.Owns.congr {m u : Machine R Tid Kid n} {t : Tid} {b : Body R} {pending : List Nat}
    (h : m.Owns t b pending) (body : u.body t = m.body t) (locals : u.locals t = m.locals t)
    (children : u.pool.children t = m.pool.children t) : u.Owns t b pending where
  body := body.trans h.body
  joins := locals ▸ h.joins
  inside := locals ▸ h.inside
  children := by rw [children, locals, h.children]

variable [DecidableEq Tid] [DecidableEq Kid] [NeZero n]

theorem fresh_children {s : State Tid Kid n} (reached : Reached (system Tid Kid n) s) {t : Tid}
    (fresh : s.created t = false) : s.children t = [] := by
  obtain ⟨place, clock, h⟩ := reached_ordered reached
  refine List.eq_nil_iff_forall_not_mem.mpr fun c inside => ?_
  have before := (h.children t c inside).2.1
  rw [h.fresh fresh] at before
  exact Nat.lt_irrefl 0 before

/-- What a step of a thread does to the children: a task that finds its child ready is done with
it. -/
theorem step_children {s t : State Tid Kid n} {th : Thread Kid n}
    (moved : ForkJoin.step s (.step th) = some t) :
    (∃ task child below, s.stack th = ⟨task, .load child⟩ :: below ∧ s.m_ready child = true ∧
      t.children = Function.update s.children task ((s.children task).erase child)) ∨
    t.children = s.children ∧ ∀ task child below, s.stack th = ⟨task, .load child⟩ :: below →
      s.m_ready child = false := by
  cases top : s.stack th with
  | cons f below =>
    obtain ⟨task, pc⟩ := f
    simp only [ForkJoin.step, top] at moved
    -- only a task in wait() looks at a child
    have other : (∀ child, pc ≠ .load child) → ∀ task' child below',
        (⟨task, pc⟩ :: below : List (Frame Tid n)) = ⟨task', .load child⟩ :: below' →
          s.m_ready child = false := by
      intro differs task' child below' same
      cases same
      exact absurd rfl (differs child)
    cases pc with
    | running => cases moved
    | load child =>
      simp only [frameStep] at moved
      split at moved <;> cases moved
      · exact .inl ⟨task, child, below, rfl, ‹_›, rfl⟩
      · refine .inr ⟨rfl, fun task' child' below' same => ?_⟩
        cases same
        exact Bool.eq_false_iff.mpr ‹_›
    | steal child contexts =>
      refine .inr ⟨?_, other fun _ no => by cases no⟩
      cases contexts with
      | nil => cases moved; rfl
      | cons c more =>
        simp only [frameStep] at moved
        split at moved <;> cases moved <;> rfl
    | index | insert | publish | fetchAdd | notify | final_suspend =>
      cases moved
      exact .inr ⟨rfl, other fun _ no => by cases no⟩
  | nil =>
    refine .inr ⟨?_, fun task child below same => by cases same⟩
    cases th with
    | external k => simp only [ForkJoin.step, top] at moved; cases moved
    | worker i =>
      simp only [ForkJoin.step, top] at moved
      cases at_pc : s.loop i with
      | load | wait wait_val => rw [at_pc] at moved; cases moved; rfl
      | blocked wait_val => rw [at_pc] at moved; cases moved
      | popOwn wait_val | scan wait_val target more =>
        rw [at_pc] at moved
        simp only [loopStep] at moved
        split at moved <;> cases moved <;> rfl

omit [DecidableEq Tid] [DecidableEq Kid] [NeZero n] in
theorem collects_ready {m : Machine R Tid Kid n} (h : m.Inv) {th : Thread Kid n} {task child : Tid}
    {below : List (Frame Tid n)} (top : m.pool.stack th = ⟨task, .load child⟩ :: below)
    (ready : m.pool.m_ready child = true) : ∃ i rest r, m.body task = some (.get i rest) ∧
      (m.locals task)[i]? = some child ∧ m.m_data child = some r ∧
      m.collects th = some (task, rest r) := by
  obtain ⟨i, rest, at_task, handle⟩ := h.waits th _ (top ▸ List.mem_cons_self) child rfl
  obtain ⟨r, data⟩ := Option.ne_none_iff_exists'.mp (h.ready child ready)
  refine ⟨i, rest, r, at_task, handle, data, ?_⟩
  simp only [Machine.collects, top, ready, if_true, at_task, data]

omit [DecidableEq Tid] [DecidableEq Kid] [NeZero n] in
theorem Machine.Joining.others {m u : Machine R Tid Kid n} (h : m.Joining) {t : Tid}
    (born : m.pool.created t = true) (body : u.body t = m.body t) (locals : u.locals t = m.locals t)
    (children : u.pool.children t = m.pool.children t) : ∃ b pending, u.Owns t b pending := by
  obtain ⟨b, pending, owns⟩ := h.owns t born
  exact ⟨b, pending, owns.congr body locals children⟩

theorem enter_children {s t : State Tid Kid n} {k : Kid} {task : Tid}
    (moved : ForkJoin.step s (.enter k task) = some t) : t.children = s.children := by
  simp only [ForkJoin.step] at moved
  split at moved
  · split at moved <;> cases moved
    rfl
  · cases moved

theorem run_children {s t : State Tid Kid n} {th : Thread Kid n} {child task : Tid}
    {below : List (Frame Tid n)} {pc : Pc Tid n} (top : s.stack th = ⟨task, pc⟩ :: below)
    (moved : ForkJoin.step s (.run th child) = some t) :
    t.children = Function.update s.children task (child :: s.children task) := by
  cases pc <;> simp only [ForkJoin.step, top] at moved
  case running =>
    split at moved <;> cases moved
    rfl
  all_goals cases moved

theorem quiet_children {s t : State Tid Kid n} {a : Act Tid Kid n}
    (quiet : (∃ th child, a = .get th child) ∨ (∃ th, a = .finish th) ∨ ∃ i, a = .wake i)
    (moved : ForkJoin.step s a = some t) : t.children = s.children := by
  rcases quiet with ⟨th, child, rfl⟩ | ⟨th, rfl⟩ | ⟨i, rfl⟩
  · simp only [ForkJoin.step] at moved
    split at moved
    · split at moved <;> cases moved
      rfl
    · cases moved
  · simp only [ForkJoin.step] at moved
    split at moved
    · split at moved <;> cases moved
      rfl
    · cases moved
  · simp only [ForkJoin.step] at moved
    split at moved <;> cases moved
    rfl

theorem joining_step {m u : Machine R Tid Kid n} {e : Event R Tid Kid n}
    (reached : Reached (programs R Tid Kid n) m) (h : m.Joining) (joins : e.joins)
    (taken : m.step e = some u) : u.Joining := by
  have pool := pool_reached reached
  have inv := reached_inv reached
  cases e with
  | enter k task body =>
    simp only [Machine.step, Option.map_eq_some_iff] at taken
    obtain ⟨pool', moved, rfl⟩ := taken
    obtain ⟨new, created, -⟩ := enter_cases moved
    have children := enter_children moved
    refine ⟨fun t born => ?_, h.distinct⟩
    by_cases same : t = task
    · subst same
      have empty := (inv.sound.fresh t new).2
      refine ⟨body, [], Function.update_self .., ?_, fun i no => (by cases no), ?_⟩
      · change body.Joins (m.locals t).length []
        rw [empty]
        exact joins
      · exact (congrFun children t).trans (fresh_children pool new)
    · change pool'.created t = true at born
      rw [created, Function.update_of_ne same] at born
      exact h.others born (Function.update_of_ne same ..) rfl (congrFun children t)
  | run th child =>
    simp only [Machine.step] at taken
    split at taken
    · rename_i task here
      split at taken
      · rename_i body rest at_task
        simp only [Option.map_eq_some_iff] at taken
        obtain ⟨pool', moved, rfl⟩ := taken
        obtain ⟨⟨⟨task', pc⟩, below, top, running⟩, new, created, -⟩ := run_cases moved
        have parent : task' = task := task_top here top
        subst parent
        change pc = .running at running
        subst running
        have children := run_children top moved
        have different : task' ≠ child := by
          rintro rfl
          rw [(inv.sound.fresh task' new).1] at at_task
          cases at_task
        have born : m.pool.created task' = true := by
          by_contra unborn
          rw [(inv.sound.fresh task' (Bool.eq_false_iff.mpr unborn)).1] at at_task
          cases at_task
        obtain ⟨b, pending, owns⟩ := h.owns task' born
        cases owns.body.symm.trans at_task
        obtain ⟨joins_child, joins_rest⟩ := owns.joins
        have absent : child ∉ m.locals task' := fun mem => by
          rw [inv.sound.born task' child mem] at new
          cases new
        refine ⟨fun t born' => ?_, fun t => ?_⟩
        · by_cases parent : t = task'
          · subst parent
            have grown : Function.update m.locals t (m.locals t ++ [child]) t = m.locals t ++ [child] :=
              Function.update_self ..
            refine ⟨rest, (m.locals t).length :: pending, Function.update_self .., ?_, fun i mem => ?_, ?_⟩
            · change rest.Joins (Function.update m.locals t _ t).length _
              rw [grown, List.length_append]
              exact joins_rest
            · change i < (Function.update m.locals t _ t).length
              rw [grown, List.length_append]
              rcases List.mem_cons.mp mem with rfl | old
              · exact Nat.lt_succ_self _
              · exact Nat.lt_succ_of_lt (owns.inside i old)
            · change pool'.children t = List.filterMap (fun i =>
                (Function.update m.locals t (m.locals t ++ [child]) t)[i]?) _
              rw [grown, children, Function.update_self, owns.children,
                List.filterMap_cons_some (List.getElem?_concat_length ..), filterMap_grown owns.inside]
          · by_cases same : t = child
            · subst same
              have empty := (inv.sound.fresh t new).2
              have still : Function.update m.locals task' (m.locals task' ++ [t]) t = [] :=
                (Function.update_of_ne parent ..).trans empty
              refine ⟨body, [], ?_, ?_, fun i no => (by cases no), ?_⟩
              · exact (Function.update_of_ne parent ..).trans (Function.update_self ..)
              · change body.Joins (Function.update m.locals task' _ t).length []
                rw [still]
                exact joins_child
              · change pool'.children t = []
                rw [children, Function.update_of_ne parent]
                exact fresh_children pool new
            · change pool'.created t = true at born'
              rw [created, Function.update_of_ne same] at born'
              refine h.others born' ?_ (Function.update_of_ne parent ..) ?_
              · exact (Function.update_of_ne parent ..).trans (Function.update_of_ne same ..)
              · exact (congrFun children t).trans (Function.update_of_ne parent ..)
        · change (Function.update m.locals task' (m.locals task' ++ [child]) t).Nodup
          by_cases parent : t = task'
          · subst parent
            rw [Function.update_self]
            exact List.nodup_append.mpr ⟨h.distinct t, List.nodup_singleton child,
              fun a left b right same => absent (List.mem_singleton.mp right ▸ same ▸ left)⟩
          · rw [Function.update_of_ne parent]
            exact h.distinct t
      · cases taken
    · cases taken
  | get th =>
    simp only [Machine.step] at taken
    repeat' split at taken
    · simp only [Option.map_eq_some_iff] at taken
      obtain ⟨pool', moved, rfl⟩ := taken
      have children := quiet_children (.inl ⟨_, _, rfl⟩) moved
      refine ⟨fun t born => h.others ?_ rfl rfl (congrFun children t), h.distinct⟩
      rw [← (get_cases moved).1]
      exact born
    · cases taken
    · cases taken
    · cases taken
  | finish th =>
    simp only [Machine.step] at taken
    repeat' split at taken
    · simp only [Option.map_eq_some_iff] at taken
      obtain ⟨pool', moved, rfl⟩ := taken
      obtain ⟨_, _, -, created, -⟩ := finish_cases moved
      have children := quiet_children (.inr (.inl ⟨_, rfl⟩)) moved
      refine ⟨fun t born => h.others ?_ rfl rfl (congrFun children t), h.distinct⟩
      rw [← created]
      exact born
    · cases taken
    · cases taken
  | step th =>
    simp only [Machine.step, Option.map_eq_some_iff] at taken
    obtain ⟨pool', moved, rfl⟩ := taken
    obtain ⟨created, -⟩ := step_flags (reached_ordered pool) moved
    rcases step_children moved with ⟨task, child, below, top, ready, children⟩ | ⟨children, waits⟩
    · obtain ⟨i, rest, r, at_task, handle, -, collects⟩ := collects_ready inv top ready
      rw [collects]
      refine ⟨fun t born => ?_, h.distinct⟩
      change pool'.created t = true at born
      rw [created] at born
      by_cases same : t = task
      · subst same
        obtain ⟨b, pending, owns⟩ := h.owns t born
        cases owns.body.symm.trans at_task
        obtain ⟨mem, joins⟩ := owns.joins
        refine ⟨rest r, pending.erase i, Function.update_self .., joins r,
          fun j inside => owns.inside j (List.mem_of_mem_erase inside), ?_⟩
        change pool'.children t = _
        rw [children, Function.update_self, owns.children]
        refine filterMap_erase handle pending fun j inside at_j => ?_
        exact (List.getElem?_inj (owns.inside j inside) (h.distinct t)).mp (at_j.trans handle.symm)
      · exact h.others born (Function.update_of_ne same ..) rfl
          ((congrFun children t).trans (Function.update_of_ne same ..))
    · have nothing : m.collects th = none := by
        cases collects : m.collects th with
        | none => rfl
        | some got =>
          obtain ⟨task, body⟩ := got
          obtain ⟨child, below, top, ready, -⟩ := collects_some inv collects
          rw [waits task child below top] at ready
          cases ready
      rw [nothing]
      refine ⟨fun t born => h.others ?_ rfl rfl (congrFun children t), h.distinct⟩
      rw [← created]
      exact born
  | wake i =>
    simp only [Machine.step, Option.map_eq_some_iff] at taken
    obtain ⟨pool', moved, rfl⟩ := taken
    have children := quiet_children (.inr (.inr ⟨_, rfl⟩)) moved
    refine ⟨fun t born => h.others ?_ rfl rfl (congrFun children t), h.distinct⟩
    rw [← (wake_cases moved).1]
    exact born

theorem reached_joining {m : Machine R Tid Kid n}
    (reached : ReachedUnder (programs R Tid Kid n) (fun _ e => e.joins) m) : m.Joining := by
  induction reached with
  | start first =>
    cases first
    exact ⟨fun t no => (by cases no), fun t => List.nodup_nil⟩
  | next before joins taken ih => exact joining_step before.reached ih joins taken

end Pot.ForkJoin
