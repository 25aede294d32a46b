import Pot.ForkJoinProgress

/-! The stacks seen from the tasks: a step keeps the frames of its thread, what they wait for
included, and may begin one task that no thread has begun. So a task is on one stack at most. -/
namespace Pot.ForkJoin
open Transition

variable {Tid Kid : Type} {n : Nat}

/-- No thread has begun it. -/
def State.unstarted (s : State Tid Kid n) (t : Tid) : Prop := ∀ j, ∀ f ∈ s.stack j, f.task ≠ t

theorem Ordered.unstarted {s : State Tid Kid n} {place : Tid → Place Kid n} {clock : Nat}
    (h : ForkJoin.Ordered s.view place clock) {t : Tid} (never : (place t).time = 0) :
    s.unstarted t := by
  intro j f inside same
  have begun := (h.frames j f inside).started
  rw [same, never] at begun
  cases begun

/-- A frame after a step, from the stack of the thread before it. The step may be one in which the
topmost task begins to get a child. -/
inductive Carries (s : State Tid Kid n) (th : Thread Kid n)
    (gets : Option (Thread Kid n × Tid)) (f : Frame Tid n) : Prop where
  | kept {g : Frame Tid n} (inside : g ∈ s.stack th) (same : g.task = f.task)
      (awaits : f.pc.awaits = none ∨ f.pc.awaits = g.pc.awaits)
  | get {g : Frame Tid n} {child : Tid} (act : gets = some (th, child))
      (top : (s.stack th).head? = some g) (same : g.task = f.task) (awaits : f.pc.awaits = some child)
  | begun (unstarted : s.unstarted f.task) (awaits : f.pc.awaits = none)

theorem Carries.below {s : State Tid Kid n} {th : Thread Kid n}
    {gets : Option (Thread Kid n × Tid)} {top : Frame Tid n} {below : List (Frame Tid n)} (at_th : s.stack th = top :: below)
    (frames : List (Frame Tid n)) (new : ∀ f ∈ frames, Carries s th gets f) :
    ∀ f ∈ frames ++ below, Carries s th gets f := by
  intro f mem
  rcases List.mem_append.mp mem with first | rest
  · exact new f first
  · exact .kept (at_th ▸ List.mem_cons_of_mem top rest) rfl (.inr rfl)

theorem Carries.onward {s : State Tid Kid n} {th : Thread Kid n}
    {gets : Option (Thread Kid n × Tid)} {task : Tid} {pc pc' : Pc Tid n}
    {below : List (Frame Tid n)} (at_th : s.stack th = ⟨task, pc⟩ :: below)
    (awaits : pc'.awaits = none ∨ pc'.awaits = pc.awaits) :
    ∀ f ∈ (⟨task, pc'⟩ :: below : List (Frame Tid n)), Carries s th gets f := by
  refine Carries.below at_th [⟨task, pc'⟩] fun f mem => ?_
  cases List.mem_singleton.mp mem
  exact .kept (g := ⟨task, pc⟩) (at_th ▸ List.mem_cons_self) rfl awaits

/-- Every task is on one stack at most. -/
def State.Single (s : State Tid Kid n) : Prop :=
  ∀ i j f g, f ∈ s.stack i → g ∈ s.stack j → f.task = g.task → i = j

theorem State.Single.update {s : State Tid Kid n} (h : s.Single) {th : Thread Kid n}
    {gets : Option (Thread Kid n × Tid)} {frames : List (Frame Tid n)}
    (carries : ∀ f ∈ frames, Carries s th gets f)
    {i j : Thread Kid n} {f g : Frame Tid n} (here : f ∈ frames) (at_i : i = th)
    (there : g ∈ s.stack j) (same : f.task = g.task) : i = j := by
  cases carries f here with
  | kept inside kept => exact at_i ▸ h _ _ _ _ inside there (kept.trans same)
  | get _ top kept => exact at_i ▸ h _ _ _ _ (List.mem_of_mem_head? top) there (kept.trans same)
  | begun unstarted => exact absurd same.symm (unstarted j g there)

variable [DecidableEq Kid] [NeZero n]

theorem loop_carries {s t : State Tid Kid n} (h : s.Ordered) {i : Fin n}
    (idle : s.stack (.worker i) = []) (taken : loopStep s i (s.loop i) = some t) :
    t.created = s.created ∧ t.m_ready = s.m_ready ∧
      ∃ frames, t.stack = Function.update s.stack (.worker i) frames ∧
        ∀ f ∈ frames, Carries s (.worker i) none f := by
  have still : s.stack = Function.update s.stack (.worker i) [] := by
    rw [← idle]
    exact (Function.update_eq_self ..).symm
  cases at_pc : s.loop i with
  | load | wait wait_val =>
    rw [at_pc] at taken
    cases taken
    exact ⟨rfl, rfl, [], still, fun f no => by cases no⟩
  | blocked wait_val =>
    rw [at_pc] at taken
    cases taken
  | popOwn wait_val | scan wait_val target more =>
    rw [at_pc] at taken
    simp only [loopStep] at taken
    split at taken <;> cases taken
    · rename_i item rest popped
      obtain ⟨place, clock, h⟩ := h
      have unstarted : s.unstarted item.call := by
        refine h.unstarted ?_
        rw [(h.queued _ _).mp (List.mem_map.mpr ⟨item, (Sandbox.pop_eq_some.mp popped).1 ▸
          List.mem_cons_self, rfl⟩)]
        rfl
      refine ⟨rfl, rfl, _, rfl, fun f mem => ?_⟩
      cases List.mem_singleton.mp mem
      exact .begun unstarted rfl
    · exact ⟨rfl, rfl, [], still, fun f no => by cases no⟩

variable [DecidableEq Tid]

theorem frame_carries {s t : State Tid Kid n} (h : s.Ordered) {th : Thread Kid n} {task : Tid}
    {pc : Pc Tid n} {below : List (Frame Tid n)} (top : s.stack th = ⟨task, pc⟩ :: below)
    (taken : frameStep s th task below pc = some t) :
    t.created = s.created ∧ t.m_ready = s.m_ready ∧
      ∃ frames, t.stack = Function.update s.stack th frames ∧
        ∀ f ∈ frames, Carries s th none f := by
  cases pc with
  | running => cases taken
  | index | insert | publish | fetchAdd | notify =>
    cases taken
    exact ⟨rfl, rfl, _, rfl, Carries.onward top (.inl rfl)⟩
  | load child =>
    simp only [frameStep] at taken
    split at taken <;> cases taken
    · exact ⟨rfl, rfl, _, rfl, Carries.onward top (.inl rfl)⟩
    · exact ⟨rfl, rfl, _, rfl, Carries.onward top (.inr rfl)⟩
  | steal child contexts =>
    cases contexts with
    | nil =>
      cases taken
      exact ⟨rfl, rfl, _, rfl, Carries.onward top (.inr rfl)⟩
    | cons c more =>
      simp only [frameStep] at taken
      split at taken <;> cases taken
      · rename_i item rest popped
        obtain ⟨place, clock, h⟩ := h
        have queued : place item.call = .queued c := by
          rw [← h.queued]
          simp only [State.view, (Sandbox.pop_eq_some.mp popped).1, List.map_cons,
            List.mem_cons_self]
        have waits : ∀ f ∈ (⟨task, .load child⟩ :: below : List (Frame Tid n)), Carries s th none f :=
          Carries.onward top (.inr rfl)
        refine ⟨rfl, rfl, _, rfl, fun f mem => ?_⟩
        rcases List.mem_cons.mp mem with rfl | buried
        · exact .begun (h.unstarted (by rw [queued]; rfl)) rfl
        · exact waits f buried
      · exact ⟨rfl, rfl, _, rfl, Carries.onward top (.inr rfl)⟩
  | final_suspend =>
    cases taken
    exact ⟨rfl, rfl, _, rfl, Carries.below top [] fun f mem => by cases mem⟩

def Act.gets : Act Tid Kid n → Option (Thread Kid n × Tid)
  | .get th child => some (th, child)
  | _ => none

theorem step_carries {s t : State Tid Kid n} {a : Act Tid Kid n} (h : s.Ordered)
    (taken : step s a = some t) : ∃ th frames, t.stack = Function.update s.stack th frames ∧
      ∀ f ∈ frames, Carries s th a.gets f := by
  cases a with
  | enter k task =>
    simp only [step] at taken
    split at taken
    · split at taken <;> cases taken
      obtain ⟨place, clock, h⟩ := h
      have unborn := h.fresh (Bool.eq_false_iff.mpr ‹_›)
      refine ⟨.external k, _, rfl, fun f mem => ?_⟩
      cases List.mem_singleton.mp mem
      exact .begun (h.unstarted (by rw [unborn]; rfl)) rfl
    · cases taken
  | run th child | finish th =>
    simp only [step] at taken
    split at taken
    · split at taken <;> cases taken
      exact ⟨th, _, rfl, Carries.onward ‹_› (.inl rfl)⟩
    · cases taken
  | get th child =>
    simp only [step] at taken
    split at taken
    · rename_i task below top
      split at taken <;> cases taken
      refine ⟨th, _, rfl, Carries.below top [_] fun f mem => ?_⟩
      cases List.mem_singleton.mp mem
      exact .get (g := ⟨task, .running⟩) rfl (by rw [top]; rfl) rfl rfl
    · cases taken
  | step th =>
    simp only [step] at taken
    split at taken
    · exact ⟨_, (frame_carries h ‹_› taken).2.2⟩
    · exact ⟨_, (loop_carries h ‹_› taken).2.2⟩
    · cases taken
  | wake i =>
    simp only [step] at taken
    split at taken <;> cases taken
    exact ⟨.worker i, _, (Function.update_eq_self ..).symm, fun f mem =>
      .kept mem rfl (.inr rfl)⟩

theorem step_single {s t : State Tid Kid n} {a : Act Tid Kid n} (ordered : s.Ordered)
    (h : s.Single) (taken : step s a = some t) : t.Single := by
  obtain ⟨th, frames, stack, carries⟩ := step_carries ordered taken
  intro i j f g at_i at_j same
  rw [stack] at at_i at_j
  by_cases left : i = th <;> by_cases right : j = th
  · exact left.trans right.symm
  · rw [left, Function.update_self] at at_i
    rw [Function.update_of_ne right] at at_j
    exact h.update carries at_i left at_j same
  · rw [Function.update_of_ne left] at at_i
    rw [right, Function.update_self] at at_j
    exact (h.update carries at_j right at_i same.symm).symm
  · rw [Function.update_of_ne left] at at_i
    rw [Function.update_of_ne right] at at_j
    exact h i j f g at_i at_j same

theorem reached_single {s : State Tid Kid n} (reached : Reached (system Tid Kid n) s) :
    s.Single := by
  induction reached with
  | start first =>
    cases first
    exact fun i j f g no => by cases no
  | next before _ taken ih => exact step_single (reached_ordered before) ih taken

theorem below_other {s : State Tid Kid n} (reached : Reached (system Tid Kid n) s)
    {th : Thread Kid n} {f g : Frame Tid n} {below : List (Frame Tid n)}
    (top : s.stack th = g :: below) (inside : f ∈ below) : f.task ≠ g.task := by
  obtain ⟨place, clock, h⟩ := reached_ordered reached
  have piled := h.buried th
  simp only [State.view, top] at piled
  have older := ((List.pairwise_cons.mp piled).1 f inside).2
  intro same
  rw [same] at older
  exact absurd older (Nat.lt_irrefl _)

theorem frame_unique {s : State Tid Kid n} (reached : Reached (system Tid Kid n) s)
    {th j : Thread Kid n} {f g : Frame Tid n} {below : List (Frame Tid n)}
    (top : s.stack th = g :: below) (inside : f ∈ s.stack j) (same : f.task = g.task) : f = g := by
  have at_th : j = th :=
    reached_single reached j th f g inside (top ▸ List.mem_cons_self) same
  subst at_th
  rw [top] at inside
  rcases List.mem_cons.mp inside with here | buried
  · exact here
  · exact absurd same (below_other reached top buried)

theorem unstarted_fresh {s : State Tid Kid n} (reached : Reached (system Tid Kid n) s) {t : Tid}
    (fresh : s.created t = false) : s.unstarted t := by
  obtain ⟨place, clock, h⟩ := reached_ordered reached
  exact h.unstarted (by rw [h.fresh fresh]; rfl)

end Pot.ForkJoin
