import Mathlib.Order.Lattice.Nat
import Mathlib.Algebra.GroupWithZero.Nat
import Mathlib.Data.Fin.Basic
import Pot.ForkJoinOrder
import Pot.SandboxSteps

/-! Every step keeps the order, and of the tasks that have started the latest can go on. -/
namespace Pot.ForkJoin
open Transition
open Sandbox (Item pop publish)

variable {Tid Kid : Type} {n : Nat}

def State.Ordered (s : State Tid Kid n) : Prop :=
  ∃ place clock, ForkJoin.Ordered s.view place clock

theorem calls_setQueue (s : State Tid Kid n) (c : Fin n) (tasks : List (Item Tid)) :
    (s.setQueue c tasks).view.calls =
      Function.update s.view.calls c (tasks.map Item.call) := by
  funext d
  by_cases same : d = c
  · subst same
    simp only [State.view, State.setQueue, Function.update_self]
  · simp only [State.view, State.setQueue, Function.update_of_ne same]

theorem Ordered.congr {v w : View Tid Kid n} {place : Tid → Place Kid n} {clock : Nat}
    (h : ForkJoin.Ordered v place clock) (stack : w.stack = v.stack) (calls : w.calls = v.calls)
    (ready : w.m_ready = v.m_ready) (created : w.created = v.created)
    (children : w.children = v.children) : ForkJoin.Ordered w place clock := by
  cases v
  cases w
  cases stack
  cases calls
  cases ready
  cases created
  cases children
  exact h

section
variable [DecidableEq Tid]

theorem calls_publish (s : State Tid Kid n) (c : Fin n) (t : Tid) :
    (s.setQueue c (publish (s.queue c) t)).view.calls = s.view.calls := by
  rw [calls_setQueue, Sandbox.publish_calls]
  exact Function.update_eq_self c s.view.calls

variable [DecidableEq Kid]

theorem Ordered.take {s : State Tid Kid n} {place : Tid → Place Kid n} {clock : Nat}
    (h : ForkJoin.Ordered s.view place clock) (th : Thread Kid n) {c : Fin n} {item : Item Tid}
    {rest : List (Item Tid)} (popped : pop (s.queue c) = some (item, rest))
    (waits : ∀ f ∈ s.stack th, f.pc.awaits ≠ none) {w : View Tid Kid n}
    (stack : w.stack = Function.update s.stack th (⟨item.call, .running⟩ :: s.stack th))
    (calls : w.calls = (s.setQueue c rest).view.calls) (ready : w.m_ready = s.m_ready)
    (created : w.created = s.created) (children : w.children = s.children) :
    ∃ place clock, ForkJoin.Ordered w place clock := by
  have before : s.view.calls c = item.call :: rest.map Item.call := by
    simp only [State.view, (Sandbox.pop_eq_some.mp popped).1, List.map_cons]
  have at_place : place item.call = .queued c := by
    rw [← h.queued, before]
    exact List.mem_cons_self
  have distinct := h.nodup c
  rw [before, List.nodup_cons] at distinct
  refine ⟨_, _, h.start th stack ready children ?_ waits (by rw [at_place]; rfl)
    (fun i no => by rw [at_place] at no; cases no) ?_ ?_⟩
  · intro t
    rw [created]
    refine ⟨.inr, fun born => born.elim ?_ id⟩
    rintro rfl
    refine (h.created item.call).mpr ?_
    rw [at_place]
    exact fun no => by cases no
  · intro d t
    rw [calls, calls_setQueue]
    by_cases same : d = c
    · subst same
      rw [Function.update_self, before]
      refine ⟨fun inside => ⟨?_, List.mem_cons_of_mem _ inside⟩, fun inside =>
        (List.mem_cons.mp inside.2).resolve_left inside.1⟩
      rintro rfl
      exact distinct.1 inside
    · rw [Function.update_of_ne same]
      refine ⟨fun inside => ⟨?_, inside⟩, fun inside => inside.2⟩
      rintro rfl
      cases at_place.symm.trans ((h.queued d item.call).mp inside)
      exact same rfl
  · intro d
    rw [calls, calls_setQueue]
    by_cases same : d = c
    · subst same
      rw [Function.update_self]
      exact distinct.2
    · rw [Function.update_of_ne same]
      exact h.nodup d

variable [NeZero n]

theorem ordered_loop {s t : State Tid Kid n} (h : s.Ordered) {i : Fin n}
    (idle : s.stack (.worker i) = []) (taken : loopStep s i (s.loop i) = some t) : t.Ordered := by
  obtain ⟨place, clock, h⟩ := h
  have waits : ∀ f ∈ s.stack (.worker i), f.pc.awaits ≠ none := by
    rw [idle]
    exact fun f no => by cases no
  cases at_pc : s.loop i with
  | load | wait wait_val =>
    rw [at_pc] at taken
    cases taken
    exact ⟨place, clock, h⟩
  | blocked wait_val =>
    rw [at_pc] at taken
    cases taken
  | popOwn wait_val | scan wait_val target more =>
    rw [at_pc] at taken
    simp only [loopStep] at taken
    split at taken <;> cases taken
    · exact Ordered.take h _ ‹_› waits (by rw [idle]; rfl) rfl rfl rfl rfl
    · exact ⟨place, clock, h⟩

theorem ordered_frame {s t : State Tid Kid n} (h : s.Ordered) {th : Thread Kid n} {task : Tid}
    {pc : Pc Tid n} {below : List (Frame Tid n)} (top : s.stack th = ⟨task, pc⟩ :: below)
    (taken : frameStep s th task below pc = some t) : t.Ordered := by
  obtain ⟨place, clock, h⟩ := h
  cases pc with
  | running => cases taken
  | index child =>
    cases taken
    exact ⟨place, clock, h.onward top _ rfl (fun c no => by cases no) (fun no => by cases no)⟩
  | insert child idx =>
    cases taken
    refine ⟨_, _, (h.insert top).congr rfl ?_ rfl rfl rfl⟩
    exact (calls_setQueue ..).trans (by rw [List.map_append]; rfl)
  | publish child idx =>
    cases taken
    have after := h.onward top (.fetchAdd idx) rfl (fun c no => by cases no)
      (fun no => by cases no)
    exact ⟨place, clock, after.congr rfl (calls_publish s idx child) rfl rfl rfl⟩
  | fetchAdd idx | notify idx =>
    cases taken
    exact ⟨place, clock, h.onward top _ rfl (fun c no => by cases no) (fun no => by cases no)⟩
  | load child =>
    simp only [frameStep] at taken
    split at taken <;> cases taken
    · refine ⟨place, clock, h.goto top _ rfl (fun c no => by cases no) (fun no => by cases no)
        (fun t ended => ended) fun t c inside => ?_⟩
      simp only [State.setStack] at inside
      by_cases same : t = task
      · subst same
        rw [Function.update_self] at inside
        exact List.mem_of_mem_erase inside
      · rw [Function.update_of_ne same] at inside
        exact inside
    · exact ⟨place, clock, h.onward top _ rfl (fun c => .inl) (fun no => by cases no)⟩
  | steal child contexts =>
    cases contexts with
    | nil =>
      cases taken
      exact ⟨place, clock, h.onward top _ rfl (fun c => .inl) (fun no => by cases no)⟩
    | cons c more =>
      simp only [frameStep] at taken
      split at taken <;> cases taken
      · -- the task is back in wait() before it is buried
        have after : ForkJoin.Ordered (s.setStack th (⟨task, .load child⟩ :: below)).view place
            clock := h.onward top _ rfl (fun c => .inl) (fun no => by cases no)
        have own : (s.setStack th (⟨task, .load child⟩ :: below)).stack th =
          ⟨task, .load child⟩ :: below := Function.update_self ..
        refine after.take th ‹_› (fun f inside => ?_) ?_ rfl rfl rfl rfl
        · rw [own] at inside
          have piled := after.buried th
          simp only [State.view, own] at piled
          rcases List.mem_cons.mp inside with rfl | inside
          · exact fun no => by cases no
          · exact ((List.pairwise_cons.mp piled).1 f inside).1
        · rw [own]
          exact (Function.update_idem ..).symm
      · exact ⟨place, clock, h.onward top _ rfl (fun c => .inl) (fun no => by cases no)⟩
  | final_suspend =>
    cases taken
    exact ⟨place, clock, h.leave top⟩

theorem ordered_step {s t : State Tid Kid n} {a : Act Tid Kid n} (h : s.Ordered)
    (taken : step s a = some t) : t.Ordered := by
  cases a with
  | enter k task =>
    simp only [step] at taken
    split at taken
    · split at taken <;> cases taken
      obtain ⟨place, clock, h⟩ := h
      have unborn := h.fresh (Bool.eq_false_iff.mpr ‹_›)
      refine ⟨_, _, h.start (.external k) ?_ rfl rfl ?_ ?_ (by rw [unborn]; rfl)
        (fun i no => by rw [unborn] at no; cases no) ?_ h.nodup⟩
      · simp only [State.view, State.setStack]
        rw [‹s.stack (.external k) = []›]
      · intro t
        simp only [State.view, State.setStack]
        by_cases same : t = task
        · subst same
          exact ⟨fun _ => .inl rfl, fun _ => Function.update_self ..⟩
        · simp only [Function.update_of_ne same, same, false_or]
      · intro f inside
        simp only [State.view, ‹s.stack (.external k) = []›] at inside
        cases inside
      · intro c t
        refine ⟨fun inside => ⟨?_, inside⟩, fun inside => inside.2⟩
        rintro rfl
        cases unborn.symm.trans ((h.queued c t).mp inside)
    · cases taken
  | run th child =>
    simp only [step] at taken
    split at taken
    · split at taken <;> cases taken
      obtain ⟨place, clock, h⟩ := h
      exact ⟨_, _, h.run ‹_› (Bool.eq_false_iff.mpr ‹_›)⟩
    · cases taken
  | get th child =>
    simp only [step] at taken
    split at taken
    · rename_i task below top
      split at taken <;> cases taken
      obtain ⟨place, clock, h⟩ := h
      refine ⟨place, clock, h.onward top _ rfl (fun c same => ?_) (fun no => by cases no)⟩
      cases same
      exact .inr ‹_›
    · cases taken
  | finish th =>
    simp only [step] at taken
    split at taken
    · rename_i task below top
      split at taken <;> cases taken
      obtain ⟨place, clock, h⟩ := h
      refine ⟨place, clock, h.goto top _ rfl (fun c no => by cases no)
        (fun _ => Function.update_self ..) (fun t ended => ?_) (fun t c inside => inside)⟩
      by_cases same : t = task
      · subst same
        exact Function.update_self ..
      · exact (Function.update_of_ne same ..).trans ended
    · cases taken
  | step th =>
    simp only [step] at taken
    split at taken
    · exact ordered_frame h ‹_› taken
    · exact ordered_loop h ‹_› taken
    · cases taken
  | wake i =>
    simp only [step] at taken
    split at taken <;> cases taken
    exact h

theorem reached_ordered {s : State Tid Kid n} (reached : Reached (system Tid Kid n) s) :
    s.Ordered :=
  Reached.invariant (I := State.Ordered) (fun _ start => start ▸ ⟨_, _, ordered_initial⟩)
    (fun _ _ _ h taken => ordered_step h taken) reached

end

/-- Of the tasks on the stacks the one that started last is a topmost one. -/
theorem Ordered.latest {v : View Tid Kid n} {place : Tid → Place Kid n} {clock : Nat}
    (h : ForkJoin.Ordered v place clock) {i : Thread Kid n} {g : Frame Tid n}
    (inside : g ∈ v.stack i) : ∃ th f below, v.stack th = f :: below ∧
      ∀ j, ∀ e ∈ v.stack j, (place e.task).time ≤ (place f.task).time := by
  have some : {k | ∃ j, ∃ e ∈ v.stack j, (place e.task).time = k}.Nonempty :=
    ⟨_, i, g, inside, rfl⟩
  have bound : BddAbove {k | ∃ j, ∃ e ∈ v.stack j, (place e.task).time = k} :=
    ⟨clock, fun k ⟨_, e, _, at_time⟩ => at_time ▸ h.clock e.task⟩
  obtain ⟨th, f, mem, at_time⟩ := Nat.sSup_mem some bound
  have latest : ∀ j, ∀ e ∈ v.stack j, (place e.task).time ≤ (place f.task).time := by
    intro j e mem
    rw [at_time]
    exact le_csSup bound ⟨j, e, mem, rfl⟩
  cases top : v.stack th with
  | nil =>
    rw [top] at mem
    cases mem
  | cons upper below =>
    have piled := h.buried th
    rw [top] at mem piled
    rcases List.mem_cons.mp mem with rfl | buried
    · exact ⟨th, f, below, top, latest⟩
    · have later := ((List.pairwise_cons.mp piled).1 f buried).2
      exact absurd (latest th upper (top ▸ List.mem_cons_self)) (Nat.not_le_of_lt later)

/-- With nothing queued, a task is on its way into a queue, has started or has ended. -/
theorem Ordered.located {v : View Tid Kid n} {place : Tid → Place Kid n} {clock : Nat}
    (h : ForkJoin.Ordered v place clock) (empty : ∀ c, v.calls c = []) {t : Tid}
    (known : place t ≠ .fresh) (unready : v.m_ready t = false) :
    (∃ th, place t = .submitted th) ∨ ∃ th, ∃ f ∈ v.stack th, f.task = t := by
  cases at_place : place t with
  | fresh => exact absurd at_place known
  | submitted th => exact .inl ⟨th, rfl⟩
  | queued c =>
    have inside := (h.queued c t).mpr at_place
    rw [empty] at inside
    cases inside
  | started k => exact .inr (h.unfinished t (by rw [at_place]; exact Nat.succ_pos k) unready)

theorem Ordered.submitting {v : View Tid Kid n} {place : Tid → Place Kid n} {clock : Nat}
    (h : ForkJoin.Ordered v place clock) {t : Tid} {th : Thread Kid n}
    (at_place : place t = .submitted th) :
    ∃ f below, v.stack th = f :: below ∧ f.pc.awaits = none := by
  cases top : v.stack th with
  | nil =>
    obtain ⟨g, inside, -⟩ := h.submitted t th at_place
    rw [top] at inside
    cases inside
  | cons f below =>
    refine ⟨f, below, rfl, ?_⟩
    by_contra waits
    have busy := h.submitter top at_place
    rw [Pc.submits_awaits waits] at busy
    cases busy

theorem State.waiting_awaits {s : State Tid Kid n} {f : Frame Tid n} (waits : s.waiting f) :
    f.pc.awaits ≠ none := by
  obtain ⟨child, waits, -⟩ := waits
  rw [waits]
  exact fun no => by cases no

variable [NeZero n] [DecidableEq Tid] [DecidableEq Kid]

/-- With the queues empty and a task that has not ended, some thread's topmost task does not wait
for a child that has not ended. -/
theorem some_thread_goes_on {s : State Tid Kid n} (reached : Reached (system Tid Kid n) s)
    (empty : ∀ c, s.queue c = []) {t : Tid} (unfinished : s.unfinished t) :
    ∃ th f below, s.stack th = f :: below ∧ ¬ s.waiting f := by
  obtain ⟨place, clock, h⟩ := reached_ordered reached
  have empty : ∀ c, s.view.calls c = [] := fun c => by simp only [State.view, empty, List.map_nil]
  have busy : ∀ c th, place c = .submitted th →
      ∃ th f below, s.stack th = f :: below ∧ ¬ s.waiting f := by
    intro c th at_place
    obtain ⟨f, below, top, idle⟩ := h.submitting at_place
    exact ⟨th, f, below, top, fun waits => State.waiting_awaits waits idle⟩
  rcases h.located empty ((h.created t).mp unfinished.1) unfinished.2 with
    ⟨th, at_place⟩ | ⟨i, g, inside, -⟩
  · exact busy t th at_place
  · obtain ⟨th, f, below, top, latest⟩ := h.latest inside
    by_cases waits : s.waiting f
    · -- the child is not queued, and it cannot have started after the latest
      obtain ⟨child, waits, unready⟩ := waits
      have before := (h.frames th f (top ▸ List.mem_cons_self)).awaited child waits
      rcases h.located empty before.1 unready with ⟨j, at_place⟩ | ⟨j, e, inside, rfl⟩
      · exact busy child j at_place
      · have later := before.2.2 (h.frames j e inside).started
        exact absurd (latest j e inside) (Nat.not_le_of_lt later)
    · exact ⟨th, f, below, top, waits⟩

/-- An external thread joins a child that nobody has taken yet, and so runs it on top. -/
def buried : List (Act (Fin 2) Unit 2) :=
  [.enter () 0] ++ (.run (.external ()) 1 :: List.replicate 5 (.step (.external ()))) ++
  (.get (.external ()) 1 :: List.replicate 2 (.step (.external ())))

def buriedState : State (Fin 2) Unit 2 :=
  (replay (system (Fin 2) Unit 2) (initial (Fin 2) Unit 2) buried).get (by decide)

theorem some_thread_goes_on_buried :
    (buriedState.stack (.external ())).length = 2 ∧
      ∃ th f below, buriedState.stack th = f :: below ∧ ¬ buriedState.waiting f :=
  ⟨by decide, some_thread_goes_on
    (Reached.replay (.start rfl) buried (Option.some_get _).symm) (by decide)
    (t := 0) ⟨by decide, by decide⟩⟩

end Pot.ForkJoin
