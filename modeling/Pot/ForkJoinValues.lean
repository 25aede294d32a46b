import Pot.ForkJoinStacks

/-! What the tasks of the pool compute. A body runs children and gets their results, and get()
gives what the child has stored; the direct evaluation calls each child where it is run. Whoever
steals what, and in whatever order, every task that is ready has the result of its body. -/
namespace Pot.ForkJoin
open Transition

variable {R Tid Kid : Type} {n : Nat}

/-- A task, by what it does next. Its result is a value or an exception; the children it has run
are its locals, numbered as it runs them. -/
inductive Body (R : Type) where
  | finish (result : R)
  | run (child : Body R) (rest : Body R)
  | get (i : Nat) (rest : R → Body R)

/-- A child stands for its result; there is none where a body gets what it has not run. -/
def Body.eval : Body R → List (Option R) → Option R
  | .finish result, _ => some result
  | .run child rest, env => rest.eval (env ++ [child.eval []])
  | .get i rest, env =>
    match env[i]? with
    | some (some r) => (rest r).eval env
    | _ => none

/-- The pool, with what its tasks are about. -/
structure Machine (R Tid Kid : Type) (n : Nat) where
  pool : State Tid Kid n
  /-- The whole body of a task: for the statements only. -/
  whole : Tid → Option (Body R)
  body : Tid → Option (Body R)
  locals : Tid → List Tid
  m_data : Tid → Option R

inductive Event (R Tid Kid : Type) (n : Nat) where
  | enter (k : Kid) (task : Tid) (body : Body R)
  | run (th : Thread Kid n) (child : Tid)
  | get (th : Thread Kid n)
  | finish (th : Thread Kid n)
  | step (th : Thread Kid n)
  | wake (i : Fin n)

def Machine.task (m : Machine R Tid Kid n) (th : Thread Kid n) : Option Tid :=
  (m.pool.stack th).head?.map Frame.task

/-- What get() returns to the topmost task, if its next access of m_ready finds it set. -/
def Machine.collects (m : Machine R Tid Kid n) (th : Thread Kid n) : Option (Tid × Body R) :=
  match m.pool.stack th with
  | ⟨task, .load child⟩ :: _ =>
    if m.pool.m_ready child then
      match m.body task, m.m_data child with
      | some (.get _ rest), some r => some (task, rest r)
      | _, _ => none
    else none
  | _ => none

/-- The result of calling the task directly. -/
def Machine.result (m : Machine R Tid Kid n) (t : Tid) : Option R :=
  (m.whole t).bind fun body => body.eval []

variable [DecidableEq Tid]

def Machine.setBody (m : Machine R Tid Kid n) (task : Tid) (body : Body R) : Machine R Tid Kid n :=
  { m with body := Function.update m.body task (some body) }

def Machine.create (m : Machine R Tid Kid n) (task : Tid) (body : Body R) : Machine R Tid Kid n :=
  { m.setBody task body with whole := Function.update m.whole task (some body) }

/-- What is left of the bodies, with the results of the tasks that have been created. -/
structure Machine.Sound (m : Machine R Tid Kid n) (created : Tid → Bool) : Prop where
  fresh : ∀ t, created t = false → m.body t = none ∧ m.locals t = []
  born : ∀ t, ∀ c ∈ m.locals t, created c = true
  left : ∀ t b, m.body t = some b → b.eval ((m.locals t).map m.result) = m.result t
  stored : ∀ t r, m.m_data t = some r → created t = true ∧ m.result t = some r

section Sound

variable {m : Machine R Tid Kid n} {created : Tid → Bool}

omit [DecidableEq Tid] in
theorem Machine.Sound.pool (h : m.Sound created) (pool : State Tid Kid n) :
    ({ m with pool }).Sound created := ⟨h.fresh, h.born, h.left, h.stored⟩

theorem Machine.Sound.create (h : m.Sound created) {task : Tid} (new : created task = false)
    (body : Body R) : (m.create task body).Sound (Function.update created task true) := by
  have other : ∀ t, t ≠ task → (m.create task body).result t = m.result t := by
    intro t different
    simp only [Machine.result, Machine.create, Function.update_of_ne different]
  have old : ∀ t, (m.locals t).map (m.create task body).result = (m.locals t).map m.result := by
    intro t
    refine List.map_congr_left fun c mem => other c fun same => ?_
    rw [← same, h.born t c mem] at new
    cases new
  refine ⟨fun t unborn => ?_, fun t c mem => ?_, fun t b at_t => ?_, fun t r data => ?_⟩
  · by_cases same : t = task
    · subst same
      rw [Function.update_self] at unborn
      cases unborn
    · rw [Function.update_of_ne same] at unborn
      obtain ⟨nothing, none_run⟩ := h.fresh t unborn
      exact ⟨(Function.update_of_ne same ..).trans nothing, none_run⟩
  · simp only [Function.update_apply]
    split
    · rfl
    · exact h.born t c mem
  · change b.eval ((m.locals t).map (m.create task body).result) = _
    rw [old]
    by_cases same : t = task
    · subst same
      simp only [Machine.create, Machine.setBody, Function.update_self, Option.some.injEq] at at_t
      subst at_t
      rw [(h.fresh t new).2]
      simp only [Machine.result, Machine.create, Function.update_self, Option.bind_some,
        List.map_nil]
    · rw [other t same]
      refine h.left t b ?_
      rw [← at_t]
      exact (Function.update_of_ne same ..).symm
  · obtain ⟨born, result⟩ := h.stored t r data
    have different : t ≠ task := by
      rintro rfl
      rw [new] at born
      cases born
    exact ⟨(Function.update_of_ne different ..).trans born, (other t different).trans result⟩

theorem Machine.Sound.setBody (h : m.Sound created) {task : Tid} {body body' : Body R}
    {locals : List Tid} (at_task : m.body task = some body) (born : ∀ c ∈ locals, created c = true)
    (same : body'.eval (locals.map m.result) = body.eval ((m.locals task).map m.result)) :
    ({ m.setBody task body' with
      locals := Function.update m.locals task locals }).Sound created := by
  refine ⟨fun t unborn => ?_, fun t c mem => ?_, fun t b at_t => ?_, h.stored⟩
  · have different : t ≠ task := by
      rintro rfl
      rw [(h.fresh t unborn).1] at at_task
      cases at_task
    obtain ⟨nothing, none_run⟩ := h.fresh t unborn
    exact ⟨(Function.update_of_ne different ..).trans nothing,
      (Function.update_of_ne different ..).trans none_run⟩
  · simp only [Function.update_apply] at mem
    split at mem
    · exact born c mem
    · exact h.born t c mem
  · by_cases here : t = task
    · subst here
      simp only [Machine.setBody, Function.update_self, Option.some.injEq] at at_t
      subst at_t
      simp only [Function.update_self]
      exact same.trans (h.left t body at_task)
    · simp only [Machine.setBody, Function.update_of_ne here] at at_t ⊢
      exact h.left t b at_t

theorem Machine.Sound.run (h : m.Sound created) {task child : Tid} {body rest : Body R}
    (at_task : m.body task = some (.run body rest)) (born : created child = true)
    (whole : m.result child = body.eval []) :
    ({ m.setBody task rest with
      locals := Function.update m.locals task (m.locals task ++ [child]) }).Sound created := by
  refine h.setBody at_task (fun c mem => ?_) ?_
  · rcases List.mem_append.mp mem with old | new
    · exact h.born task c old
    · cases List.mem_singleton.mp new
      exact born
  · rw [List.map_append, List.map_singleton, whole]
    rfl

theorem Machine.Sound.collect (h : m.Sound created) {task child : Tid} {i : Nat}
    {rest : R → Body R} {r : R} (at_task : m.body task = some (.get i rest))
    (handle : (m.locals task)[i]? = some child) (data : m.m_data child = some r) :
    (m.setBody task (rest r)).Sound created := by
  have got : (rest r).eval ((m.locals task).map m.result) =
      (Body.get i rest).eval ((m.locals task).map m.result) := by
    simp only [Body.eval, List.getElem?_map, handle, Option.map_some, (h.stored child r data).2]
  have after := h.setBody at_task (h.born task) got
  rw [Function.update_eq_self] at after
  exact after

theorem Machine.Sound.store (h : m.Sound created) {task : Tid} {r : R}
    (at_task : m.body task = some (.finish r)) :
    ({ m with m_data := Function.update m.m_data task (some r) }).Sound created := by
  refine ⟨h.fresh, h.born, h.left, fun t r' data => ?_⟩
  by_cases here : t = task
  · subst here
    simp only [Function.update_self, Option.some.injEq] at data
    subst data
    refine ⟨?_, (h.left t _ at_task).symm⟩
    by_contra unborn
    rw [(h.fresh t (Bool.eq_false_iff.mpr unborn)).1] at at_task
    cases at_task
  · simp only [Function.update_of_ne here] at data
    exact h.stored t r' data

end Sound

/-- A task that waits is in the get() of the child that it waits for. -/
def Machine.Waits (m : Machine R Tid Kid n) : Prop :=
  ∀ th, ∀ f ∈ m.pool.stack th, ∀ c, f.pc.awaits = some c →
    ∃ i rest, m.body f.task = some (.get i rest) ∧ (m.locals f.task)[i]? = some c

structure Machine.Inv (m : Machine R Tid Kid n) : Prop where
  sound : m.Sound m.pool.created
  waits : m.Waits
  ready : ∀ t, m.pool.m_ready t = true → m.m_data t ≠ none

theorem collects_some {m : Machine R Tid Kid n} (h : m.Inv) {th : Thread Kid n} {task : Tid}
    {body : Body R} (collects : m.collects th = some (task, body)) :
    ∃ child below, m.pool.stack th = ⟨task, .load child⟩ :: below ∧
      m.pool.m_ready child = true ∧ (m.setBody task body).Sound m.pool.created := by
  simp only [Machine.collects] at collects
  split at collects
  · rename_i task' child below top
    split at collects
    · rename_i ready
      split at collects
      · rename_i i rest r at_task data
        cases collects
        obtain ⟨i', rest', at_task', handle⟩ :=
          h.waits th _ (top ▸ List.mem_cons_self) child rfl
        cases at_task.symm.trans at_task'
        exact ⟨child, below, top, ready, h.sound.collect at_task handle data⟩
      · cases collects
    · cases collects
  · cases collects

variable [DecidableEq Kid] [NeZero n]

def Machine.step (m : Machine R Tid Kid n) : Event R Tid Kid n → Option (Machine R Tid Kid n)
  | .enter k task body =>
    (ForkJoin.step m.pool (.enter k task)).map fun pool => { m.create task body with pool }
  | .run th child =>
    match m.task th with
    | some task =>
      match m.body task with
      | some (.run body rest) =>
        (ForkJoin.step m.pool (.run th child)).map fun pool =>
          { (m.create child body).setBody task rest with
            pool, locals := Function.update m.locals task (m.locals task ++ [child]) }
      | _ => none
    | none => none
  | .get th =>
    match m.task th with
    | some task =>
      match m.body task with
      | some (.get i _) =>
        match (m.locals task)[i]? with
        | some child => (ForkJoin.step m.pool (.get th child)).map fun pool => { m with pool }
        | none => none
      | _ => none
    | none => none
  | .finish th =>
    match m.task th with
    | some task =>
      match m.body task with
      | some (.finish result) =>
        (ForkJoin.step m.pool (.finish th)).map fun pool =>
          { m with pool, m_data := Function.update m.m_data task (some result) }
      | _ => none
    | none => none
  | .step th =>
    (ForkJoin.step m.pool (.step th)).map fun pool =>
      match m.collects th with
      | some (task, body) => { m.setBody task body with pool }
      | none => { m with pool }
  | .wake i => (ForkJoin.step m.pool (.wake i)).map fun pool => { m with pool }

def Machine.initial (R Tid Kid : Type) (n : Nat) [NeZero n] [DecidableEq Tid] [DecidableEq Kid] :
    Machine R Tid Kid n where
  pool := ForkJoin.initial Tid Kid n
  whole _ := none
  body _ := none
  locals _ := []
  m_data _ := none

def programs (R Tid Kid : Type) (n : Nat) [NeZero n] [DecidableEq Tid] [DecidableEq Kid] :
    System (Machine R Tid Kid n) (Event R Tid Kid n) where
  start m := m = .initial R Tid Kid n
  step := Machine.step

theorem step_pool {m u : Machine R Tid Kid n} {e : Event R Tid Kid n} (taken : m.step e = some u) :
    ∃ a, ForkJoin.step m.pool a = some u.pool := by
  cases e with
  | enter k task body =>
    simp only [Machine.step, Option.map_eq_some_iff] at taken
    obtain ⟨pool, moved, rfl⟩ := taken
    exact ⟨_, moved⟩
  | run th child | get th | finish th =>
    simp only [Machine.step] at taken
    repeat' split at taken
    all_goals
      first
      | cases taken
      | (simp only [Option.map_eq_some_iff] at taken
         obtain ⟨pool, moved, rfl⟩ := taken
         exact ⟨_, moved⟩)
  | step th =>
    simp only [Machine.step, Option.map_eq_some_iff] at taken
    obtain ⟨pool, moved, rfl⟩ := taken
    refine ⟨_, moved.trans ?_⟩
    split <;> rfl
  | wake i =>
    simp only [Machine.step, Option.map_eq_some_iff] at taken
    obtain ⟨pool, moved, rfl⟩ := taken
    exact ⟨_, moved⟩

theorem pool_reached {m : Machine R Tid Kid n} (reached : Reached (programs R Tid Kid n) m) :
    Reached (system Tid Kid n) m.pool := by
  induction reached with
  | start first =>
    cases first
    exact .start rfl
  | next before _ taken ih =>
    obtain ⟨a, moved⟩ := step_pool taken
    exact ih.next moved

theorem Machine.Waits.step {m u : Machine R Tid Kid n} (reached : Reached (system Tid Kid n) m.pool)
    (h : m.Waits) {a : Act Tid Kid n} (moved : ForkJoin.step m.pool a = some u.pool)
    (kept : ∀ j, ∀ f ∈ m.pool.stack j, f.pc.awaits ≠ none →
      u.body f.task = m.body f.task ∧ u.locals f.task = m.locals f.task)
    (gets : ∀ th child g, a.gets = some (th, child) → (m.pool.stack th).head? = some g →
      ∃ i rest, u.body g.task = some (.get i rest) ∧ (u.locals g.task)[i]? = some child) :
    u.Waits := by
  obtain ⟨th, frames, stack, carries⟩ := step_carries (reached_ordered reached) moved
  have old : ∀ j, ∀ f ∈ m.pool.stack j, ∀ c, f.pc.awaits = some c →
      ∃ i rest, u.body f.task = some (.get i rest) ∧ (u.locals f.task)[i]? = some c := by
    intro j f inside c awaits
    obtain ⟨body, locals⟩ := kept j f inside (by rw [awaits]; exact Option.some_ne_none c)
    rw [body, locals]
    exact h j f inside c awaits
  intro j f inside c awaits
  rw [stack] at inside
  by_cases here : j = th
  · rw [here, Function.update_self] at inside
    cases carries f inside with
    | kept before same still =>
      rcases still with nothing | still
      · rw [nothing] at awaits
        cases awaits
      · rw [← same]
        exact old th _ before c (still.symm.trans awaits)
    | get act top same now =>
      rw [now] at awaits
      cases awaits
      rw [← same]
      exact gets th c _ act top
    | begun _ nothing =>
      rw [nothing] at awaits
      cases awaits
  · rw [Function.update_of_ne here] at inside
    exact old j f inside c awaits

theorem step_flags {s t : State Tid Kid n} (h : s.Ordered) {th : Thread Kid n}
    (moved : ForkJoin.step s (.step th) = some t) :
    t.created = s.created ∧ t.m_ready = s.m_ready := by
  simp only [ForkJoin.step] at moved
  split at moved
  · obtain ⟨created, ready, -⟩ := frame_carries h ‹_› moved
    exact ⟨created, ready⟩
  · obtain ⟨created, ready, -⟩ := loop_carries h ‹_› moved
    exact ⟨created, ready⟩
  · cases moved

omit [DecidableEq Tid] [DecidableEq Kid] [NeZero n] in
theorem task_top {m : Machine R Tid Kid n} {th : Thread Kid n} {f : Frame Tid n}
    {below : List (Frame Tid n)} {task : Tid} (here : m.task th = some task)
    (top : m.pool.stack th = f :: below) : f.task = task := by
  rw [Machine.task, top] at here
  exact Option.some.inj here

theorem enter_cases {s t : State Tid Kid n} {k : Kid} {task : Tid}
    (moved : ForkJoin.step s (.enter k task) = some t) : s.created task = false ∧
      t.created = Function.update s.created task true ∧ t.m_ready = s.m_ready := by
  simp only [ForkJoin.step] at moved
  split at moved
  · split at moved <;> cases moved
    exact ⟨Bool.eq_false_iff.mpr ‹_›, rfl, rfl⟩
  · cases moved

theorem run_cases {s t : State Tid Kid n} {th : Thread Kid n} {child : Tid}
    (moved : ForkJoin.step s (.run th child) = some t) :
    (∃ f below, s.stack th = f :: below ∧ f.pc = .running) ∧ s.created child = false ∧
      t.created = Function.update s.created child true ∧ t.m_ready = s.m_ready := by
  simp only [ForkJoin.step] at moved
  split at moved
  · split at moved <;> cases moved
    exact ⟨⟨_, _, ‹_›, rfl⟩, Bool.eq_false_iff.mpr ‹_›, rfl, rfl⟩
  · cases moved

theorem get_cases {s t : State Tid Kid n} {th : Thread Kid n} {child : Tid}
    (moved : ForkJoin.step s (.get th child) = some t) :
    t.created = s.created ∧ t.m_ready = s.m_ready := by
  simp only [ForkJoin.step] at moved
  split at moved
  · split at moved <;> cases moved
    exact ⟨rfl, rfl⟩
  · cases moved

theorem finish_cases {s t : State Tid Kid n} {th : Thread Kid n}
    (moved : ForkJoin.step s (.finish th) = some t) :
    ∃ f below, s.stack th = f :: below ∧ t.created = s.created ∧
      t.m_ready = Function.update s.m_ready f.task true := by
  simp only [ForkJoin.step] at moved
  split at moved
  · split at moved <;> cases moved
    exact ⟨_, _, ‹_›, rfl, rfl⟩
  · cases moved

theorem wake_cases {s t : State Tid Kid n} {i : Fin n}
    (moved : ForkJoin.step s (.wake i) = some t) :
    t.created = s.created ∧ t.m_ready = s.m_ready := by
  simp only [ForkJoin.step] at moved
  split at moved <;> cases moved
  exact ⟨rfl, rfl⟩

theorem inv_step {m u : Machine R Tid Kid n} {e : Event R Tid Kid n}
    (reached : Reached (system Tid Kid n) m.pool) (h : m.Inv) (taken : m.step e = some u) :
    u.Inv := by
  cases e with
  | enter k task body =>
    simp only [Machine.step, Option.map_eq_some_iff] at taken
    obtain ⟨pool, moved, rfl⟩ := taken
    obtain ⟨new, created, ready⟩ := enter_cases moved
    refine ⟨?_, h.waits.step reached moved (fun j f inside _ => ⟨?_, rfl⟩)
      (fun _ _ _ no => by cases no), fun t ended => h.ready t (ready ▸ ended)⟩
    · rw [created]
      exact (h.sound.create new body).pool pool
    · exact Function.update_of_ne (unstarted_fresh reached new j f inside) ..
  | run th child =>
    simp only [Machine.step] at taken
    split at taken
    · rename_i task here
      split at taken
      · rename_i body rest at_task
        simp only [Option.map_eq_some_iff] at taken
        obtain ⟨pool, moved, rfl⟩ := taken
        obtain ⟨⟨f, below, top, running⟩, new, created, ready⟩ := run_cases moved
        have parent : f.task = task := task_top here top
        have different : task ≠ child := by
          rintro rfl
          rw [(h.sound.fresh task new).1] at at_task
          cases at_task
        have grown := h.sound.create new body
        have at_task' : (m.create child body).body task = some (.run body rest) :=
          (Function.update_of_ne different ..).trans at_task
        have whole : (m.create child body).result child = body.eval [] := by
          simp only [Machine.result, Machine.create, Function.update_self, Option.bind_some]
        refine ⟨?_, h.waits.step reached moved (fun j g inside awaits => ?_)
          (fun _ _ _ no => by cases no), fun t ended => h.ready t (ready ▸ ended)⟩
        · rw [created]
          exact (grown.run at_task' (Function.update_self ..) whole).pool pool
        · have aside : g.task ≠ task := by
            intro same
            rw [frame_unique reached top inside (same.trans parent.symm), running] at awaits
            exact awaits rfl
          have old : g.task ≠ child := unstarted_fresh reached new j g inside
          simp only [Machine.setBody, Machine.create, Function.update_of_ne aside,
            Function.update_of_ne old, and_self]
      · cases taken
    · cases taken
  | get th =>
    simp only [Machine.step] at taken
    split at taken
    · rename_i task here
      split at taken
      · rename_i i rest at_task
        split at taken
        · rename_i child handle
          simp only [Option.map_eq_some_iff] at taken
          obtain ⟨pool, moved, rfl⟩ := taken
          obtain ⟨created, ready⟩ := get_cases moved
          refine ⟨?_, h.waits.step reached moved (fun _ _ _ _ => ⟨rfl, rfl⟩) ?_,
            fun t ended => h.ready t (ready ▸ ended)⟩
          · rw [created]
            exact h.sound.pool pool
          · intro j c g same top
            cases same
            cases stack : m.pool.stack th with
            | nil =>
              rw [stack] at top
              cases top
            | cons f below =>
              rw [stack] at top
              cases top
              rw [task_top here stack]
              exact ⟨i, rest, at_task, handle⟩
        · cases taken
      · cases taken
    · cases taken
  | finish th =>
    simp only [Machine.step] at taken
    split at taken
    · rename_i task here
      split at taken
      · rename_i result at_task
        simp only [Option.map_eq_some_iff] at taken
        obtain ⟨pool, moved, rfl⟩ := taken
        obtain ⟨f, below, top, created, ready⟩ := finish_cases moved
        rw [task_top here top] at ready
        refine ⟨?_, h.waits.step reached moved (fun _ _ _ _ => ⟨rfl, rfl⟩)
          (fun _ _ _ no => by cases no), fun t ended => ?_⟩
        · rw [created]
          exact (h.sound.store at_task).pool pool
        · simp only [Function.update_apply]
          split
          · exact Option.some_ne_none result
          · rename_i other
            simp only [ready, Function.update_of_ne other] at ended
            exact h.ready t ended
      · cases taken
    · cases taken
  | step th =>
    simp only [Machine.step, Option.map_eq_some_iff] at taken
    obtain ⟨pool, moved, rfl⟩ := taken
    obtain ⟨created, ready⟩ := step_flags (reached_ordered reached) moved
    cases collects : m.collects th with
    | none =>
      refine ⟨?_, h.waits.step reached moved (fun _ _ _ _ => ⟨rfl, rfl⟩)
        (fun _ _ _ no => by cases no), fun t ended => h.ready t (ready ▸ ended)⟩
      change ({ m with pool } : Machine R Tid Kid n).Sound pool.created
      rw [created]
      exact h.sound.pool pool
    | some got =>
      obtain ⟨task, body⟩ := got
      obtain ⟨child, below, top, ended, sound⟩ := collects_some h collects
      have stack : pool.stack = Function.update m.pool.stack th (⟨task, .running⟩ :: below) := by
        simp only [ForkJoin.step, top, frameStep, ended, if_true] at moved
        cases moved
        rfl
      refine ⟨?_, fun j f inside c awaits => ?_, fun t set => h.ready t (ready ▸ set)⟩
      · change ({ m.setBody task body with pool } : Machine R Tid Kid n).Sound pool.created
        rw [created]
        exact sound.pool pool
      · change f ∈ pool.stack j at inside
        rw [stack] at inside
        have old : f ∈ m.pool.stack j ∧ f.task ≠ task := by
          by_cases here : j = th
          · subst here
            rw [Function.update_self] at inside
            rcases List.mem_cons.mp inside with rfl | buried
            · cases awaits
            · exact ⟨top ▸ List.mem_cons_of_mem _ buried, below_other reached top buried⟩
          · rw [Function.update_of_ne here] at inside
            exact ⟨inside, fun same => here (reached_single reached j th f _ inside
              (top ▸ List.mem_cons_self) same)⟩
        obtain ⟨i, rest, at_task, handle⟩ := h.waits j f old.1 c awaits
        exact ⟨i, rest, (Function.update_of_ne old.2 ..).trans at_task, handle⟩
  | wake i =>
    simp only [Machine.step, Option.map_eq_some_iff] at taken
    obtain ⟨pool, moved, rfl⟩ := taken
    obtain ⟨created, ready⟩ := wake_cases moved
    refine ⟨?_, h.waits.step reached moved (fun _ _ _ _ => ⟨rfl, rfl⟩)
      (fun _ _ _ no => by cases no), fun t ended => h.ready t (ready ▸ ended)⟩
    rw [created]
    exact h.sound.pool pool

theorem initial_inv : (Machine.initial R Tid Kid n).Inv where
  sound := {
    fresh := fun _ _ => ⟨rfl, rfl⟩
    born := fun _ _ no => by cases no
    left := fun _ _ no => by cases no
    stored := fun _ _ no => by cases no }
  waits := fun _ _ no => by cases no
  ready := fun _ no => by cases no

theorem reached_inv {m : Machine R Tid Kid n} (reached : Reached (programs R Tid Kid n) m) :
    m.Inv := by
  induction reached with
  | start first =>
    cases first
    exact initial_inv
  | next before _ taken ih => exact inv_step (pool_reached before) ih taken

theorem step_whole {m u : Machine R Tid Kid n} {e : Event R Tid Kid n}
    (reached : Reached (programs R Tid Kid n) m) (taken : m.step e = some u) {t : Tid}
    (born : m.pool.created t = true) : u.pool.created t = true ∧ u.whole t = m.whole t := by
  have older : ∀ x, m.pool.created x = false → t ≠ x := by
    rintro x new rfl
    rw [new] at born
    cases born
  cases e with
  | enter k task body =>
    simp only [Machine.step, Option.map_eq_some_iff] at taken
    obtain ⟨pool, moved, rfl⟩ := taken
    obtain ⟨new, created, -⟩ := enter_cases moved
    refine ⟨?_, Function.update_of_ne (older task new) ..⟩
    rw [created, Function.update_of_ne (older task new), born]
  | run th child =>
    simp only [Machine.step] at taken
    repeat' split at taken
    · simp only [Option.map_eq_some_iff] at taken
      obtain ⟨pool, moved, rfl⟩ := taken
      obtain ⟨-, new, created, -⟩ := run_cases moved
      refine ⟨?_, Function.update_of_ne (older child new) ..⟩
      rw [created, Function.update_of_ne (older child new), born]
    · cases taken
    · cases taken
  | get th =>
    simp only [Machine.step] at taken
    repeat' split at taken
    · simp only [Option.map_eq_some_iff] at taken
      obtain ⟨pool, moved, rfl⟩ := taken
      exact ⟨(congrFun (get_cases moved).1 t).trans born, rfl⟩
    · cases taken
    · cases taken
    · cases taken
  | finish th =>
    simp only [Machine.step] at taken
    repeat' split at taken
    · simp only [Option.map_eq_some_iff] at taken
      obtain ⟨pool, moved, rfl⟩ := taken
      obtain ⟨_, _, -, created, -⟩ := finish_cases moved
      exact ⟨(congrFun created t).trans born, rfl⟩
    · cases taken
    · cases taken
  | step th =>
    simp only [Machine.step, Option.map_eq_some_iff] at taken
    obtain ⟨pool, moved, rfl⟩ := taken
    have created := (step_flags (reached_ordered (pool_reached reached)) moved).1
    split <;> exact ⟨(congrFun created t).trans born, rfl⟩
  | wake i =>
    simp only [Machine.step, Option.map_eq_some_iff] at taken
    obtain ⟨pool, moved, rfl⟩ := taken
    exact ⟨(congrFun (wake_cases moved).1 t).trans born, rfl⟩

theorem ready_result {m : Machine R Tid Kid n} (reached : Reached (programs R Tid Kid n) m)
    {t : Tid} (ready : m.pool.m_ready t = true) :
    ∃ r, m.m_data t = some r ∧ m.result t = some r := by
  have h := reached_inv reached
  obtain ⟨r, data⟩ := Option.ne_none_iff_exists'.mp (h.ready t ready)
  exact ⟨r, data, (h.sound.stored t r data).2⟩

/-- The step makes a task with this body: an external thread enters it, or the topmost task of a
thread runs it as its child. -/
def Machine.Starts (m : Machine R Tid Kid n) (task : Tid) (body : Body R) :
    Event R Tid Kid n → Prop
  | .enter _ t b => t = task ∧ b = body
  | .run th child => child = task ∧
    ∃ parent rest, m.task th = some parent ∧ m.body parent = some (.run body rest)
  | _ => False

/-- A step of the past has made the task with this body. -/
def Machine.Started (m : Machine R Tid Kid n) (task : Tid) (body : Body R) : Prop :=
  ∃ before e after es, Reached (programs R Tid Kid n) before ∧ before.Starts task body e ∧
    before.step e = some after ∧ replay (programs R Tid Kid n) after es = some m

theorem Machine.Started.next {m u : Machine R Tid Kid n} {task : Tid} {body : Body R}
    (h : m.Started task body) {e : Event R Tid Kid n} (taken : m.step e = some u) :
    u.Started task body := by
  obtain ⟨before, first, after, es, reached, starts, made, run⟩ := h
  have onward : (programs R Tid Kid n).step m e = some u := taken
  have last : replay (programs R Tid Kid n) m [e] = some u := replay_cons onward []
  exact ⟨before, first, after, es ++ [e], reached, starts, made,
    (replay_append es [e] run).trans last⟩

/-- A body that a task has after a step and had not before is the one the step makes it with. -/
theorem step_starts {m u : Machine R Tid Kid n} {e : Event R Tid Kid n} (taken : m.step e = some u)
    {t : Tid} {body : Body R} (whole : u.whole t = some body) (new : m.whole t ≠ some body) :
    m.Starts t body e := by
  have made : ∀ task b, Function.update m.whole task (some b) t = some body →
      task = t ∧ b = body := by
    intro task b updated
    by_cases same : t = task
    · subst same
      rw [Function.update_self] at updated
      exact ⟨rfl, Option.some.inj updated⟩
    · rw [Function.update_of_ne same] at updated
      exact absurd updated new
  cases e with
  | enter k task b =>
    simp only [Machine.step, Option.map_eq_some_iff] at taken
    obtain ⟨pool, -, rfl⟩ := taken
    exact made task b whole
  | run th child =>
    simp only [Machine.step] at taken
    split at taken
    · rename_i parent top
      split at taken
      · rename_i b rest left
        simp only [Option.map_eq_some_iff] at taken
        obtain ⟨pool, -, rfl⟩ := taken
        obtain ⟨same, rfl⟩ := made child b whole
        exact ⟨same, parent, rest, top, left⟩
      · cases taken
    · cases taken
  | get th =>
    simp only [Machine.step] at taken
    repeat' split at taken
    · simp only [Option.map_eq_some_iff] at taken
      obtain ⟨pool, -, rfl⟩ := taken
      exact absurd whole new
    · cases taken
    · cases taken
    · cases taken
  | finish th =>
    simp only [Machine.step] at taken
    repeat' split at taken
    · simp only [Option.map_eq_some_iff] at taken
      obtain ⟨pool, -, rfl⟩ := taken
      exact absurd whole new
    · cases taken
    · cases taken
  | step th =>
    simp only [Machine.step, Option.map_eq_some_iff] at taken
    obtain ⟨pool, -, rfl⟩ := taken
    split at whole
    · exact absurd whole new
    · exact absurd whole new
  | wake i =>
    simp only [Machine.step, Option.map_eq_some_iff] at taken
    obtain ⟨pool, -, rfl⟩ := taken
    exact absurd whole new

theorem reached_started {m : Machine R Tid Kid n} (reached : Reached (programs R Tid Kid n) m)
    {t : Tid} {body : Body R} (whole : m.whole t = some body) : m.Started t body := by
  induction reached with
  | start first =>
    cases first
    cases whole
  | @next m e u before _ taken ih =>
    by_cases old : m.whole t = some body
    · exact (ih old).next taken
    · exact ⟨m, e, u, [], before, step_starts taken whole old, taken, rfl⟩

theorem starts_whole {m u : Machine R Tid Kid n} {e : Event R Tid Kid n} {task : Tid}
    {body : Body R} (starts : m.Starts task body e) (taken : m.step e = some u) :
    u.pool.created task = true ∧ u.whole task = some body := by
  cases e with
  | enter k t b =>
    obtain ⟨rfl, rfl⟩ := starts
    simp only [Machine.step, Option.map_eq_some_iff] at taken
    obtain ⟨pool, moved, rfl⟩ := taken
    refine ⟨?_, Function.update_self ..⟩
    rw [(enter_cases moved).2.1, Function.update_self]
  | run th child =>
    obtain ⟨rfl, parent, rest, top, left⟩ := starts
    simp only [Machine.step, top, left, Option.map_eq_some_iff] at taken
    obtain ⟨pool, moved, rfl⟩ := taken
    obtain ⟨-, -, created, -⟩ := run_cases moved
    refine ⟨?_, Function.update_self ..⟩
    rw [created, Function.update_self]
  | get | finish | step | wake => exact starts.elim

theorem started_whole {m : Machine R Tid Kid n} {task : Tid} {body : Body R}
    (started : m.Started task body) : m.whole task = some body := by
  obtain ⟨before, e, after, es, reached, starts, made, run⟩ := started
  have entered : Reached (programs R Tid Kid n) after := reached.next made
  have last : Reached (programs R Tid Kid n) m ∧ m.pool.created task = true ∧
      m.whole task = some body :=
    replay_invariant (I := fun m => Reached (programs R Tid Kid n) m ∧
        m.pool.created task = true ∧ m.whole task = some body)
      (fun x e y h taken => by
        obtain ⟨created, whole⟩ := step_whole h.1 taken h.2.1
        exact ⟨h.1.next taken, created, whole.trans h.2.2⟩)
      ⟨entered, starts_whole starts made⟩ es run
  exact last.2.2

/-- Whatever the threads do, a task that is ready, entered from outside or run by another, was made
with one body, and get() gives the result of the direct evaluation of it. -/
theorem get_determinate {m : Machine R Tid Kid n} (reached : Reached (programs R Tid Kid n) m)
    {task : Tid} (ready : m.pool.m_ready task = true) :
    ∃ body r, (∀ b, m.Started task b ↔ b = body) ∧ body.eval [] = some r ∧
      m.m_data task = some r := by
  obtain ⟨r, data, result⟩ := ready_result reached ready
  obtain ⟨body, whole, eval⟩ := Option.bind_eq_some_iff.mp result
  refine ⟨body, r, fun b => ⟨fun started => ?_, ?_⟩, eval, data⟩
  · exact Option.some.inj ((started_whole started).symm.trans whole)
  · rintro rfl
    exact reached_started reached whole

def successor : Body Nat := .run (.finish 7) (.get 0 fun r => .finish (r + 1))

def entered : Machine Nat Bool Unit 5 :=
  ((Machine.initial Nat Bool Unit 5).step (.enter () false successor)).get (by decide)

/-- While it waits it steals its own child. -/
def stolen : List (Event Nat Bool Unit 5) :=
  (.run (.external ()) true :: List.replicate 5 (.step (.external ()))) ++
    (.get (.external ()) :: List.replicate 2 (.step (.external ()))) ++
    (.finish (.external ()) :: List.replicate 2 (.step (.external ()))) ++ [.finish (.external ())]

def joined : Machine Nat Bool Unit 5 :=
  (replay (programs Nat Bool Unit 5) entered stolen).get (by decide)

/-- The child first, which get() has handed over to its parent. -/
theorem get_determinate_joined :
    (∃ body r, joined.Started true body ∧ body.eval [] = some r ∧ joined.m_data true = some r) ∧
      ∃ body r, joined.Started false body ∧ body.eval [] = some r ∧
        joined.m_data false = some r := by
  have first : (programs Nat Bool Unit 5).step (.initial Nat Bool Unit 5)
      (.enter () false successor) = some entered := (Option.some_get _).symm
  have rest : replay (programs Nat Bool Unit 5) entered stolen = some joined :=
    (Option.some_get _).symm
  have start : Reached (programs Nat Bool Unit 5) (.initial Nat Bool Unit 5) := .start rfl
  have reached := (start.next first).replay stolen rest
  have child : joined.pool.m_ready true = true := by decide
  have parent : joined.pool.m_ready false = true := by decide
  obtain ⟨b, r, only, eval, data⟩ := get_determinate reached child
  obtain ⟨b', r', only', eval', data'⟩ := get_determinate reached parent
  exact ⟨⟨b, r, (only b).mpr rfl, eval, data⟩, b', r', (only' b').mpr rfl, eval', data'⟩

end Pot.ForkJoin
