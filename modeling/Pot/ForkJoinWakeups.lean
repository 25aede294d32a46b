import Pot.ForkJoinStacks
import Pot.SandboxViews

/-! Who sees to a queue of the pool. A worker's notifier is an event count for its own queue, and a
ticket that is not published has a task about to publish it. -/
namespace Pot.ForkJoin
open Transition EventCount
open Sandbox (Item pop publish Available)

variable {Tid Kid : Type} {n : Nat}

/-- A worker without a task, as one that looks for tasks in its own queue. -/
def Loop.seeks : Loop n → Waiter
  | .load => .away
  | .popOwn v => .loaded v
  | .scan v _ _ | .wait v => .looked v
  | .blocked v => .asleep v

/-- Some task is there. -/
def State.at (s : State Tid Kid n) (pc : Pc Tid n) : Prop := ∃ th, ∃ f ∈ s.stack th, f.pc = pc

def State.counter (s : State Tid Kid n) (c : Fin n) : EventCount.View Unit where
  epoch := s.notifier c
  waiter _ := (s.loop c).seeks
  work _ := Available (s.queue c)
  owing := s.at (.fetchAdd c)
  ringing := s.at (.notify c)

structure State.Watched (s : State Tid Kid n) : Prop where
  counters : ∀ c, Good (s.counter c)
  publishing : ∀ c, ∀ x ∈ s.queue c, x.published = false → s.at (.publish x.call c)

theorem scanning_seeks (v : Nat) (targets : List (Fin n)) :
    (Loop.scanning v targets).seeks = .looked v := by
  cases targets <;> rfl

theorem unblock_seeks (p : Loop n) : p.unblock.seeks = p.seeks ∨
    ∃ v, p.seeks = .asleep v ∧ p.unblock.seeks = .looked v := by
  cases p with
  | blocked v => exact .inr ⟨v, rfl, rfl⟩
  | load | popOwn | scan | wait => exact .inl rfl

variable [DecidableEq Kid]

theorem at_kept {s t : State Tid Kid n} {th : Thread Kid n} {frames : List (Frame Tid n)}
    (stack : t.stack = Function.update s.stack th frames) {pc : Pc Tid n}
    (keeps : ∀ f ∈ s.stack th, f.pc = pc → f ∈ frames) (h : s.at pc) : t.at pc := by
  obtain ⟨j, f, inside, here⟩ := h
  refine ⟨j, f, ?_, here⟩
  rw [stack]
  by_cases same : j = th
  · subst same
    rw [Function.update_self]
    exact keeps f inside here
  · rw [Function.update_of_ne same]
    exact inside

theorem at_below {s t : State Tid Kid n} {th : Thread Kid n} {task : Tid} {pc pc' : Pc Tid n}
    {below l : List (Frame Tid n)} (top : s.stack th = ⟨task, pc'⟩ :: below)
    (stack : t.stack = Function.update s.stack th (l ++ below)) (differs : pc' ≠ pc)
    (h : s.at pc) : t.at pc := by
  refine at_kept stack (fun f inside here => ?_) h
  rw [top] at inside
  rcases List.mem_cons.mp inside with rfl | buried
  · exact absurd here differs
  · exact List.mem_append_right _ buried

theorem at_next {s t : State Tid Kid n} {th : Thread Kid n} {task : Tid} {pc pc' : Pc Tid n}
    {below : List (Frame Tid n)} {f : Frame Tid n} (top : s.stack th = ⟨task, pc'⟩ :: below)
    (stack : t.stack = Function.update s.stack th (f :: below)) (differs : pc' ≠ pc)
    (h : s.at pc) : t.at pc :=
  at_below (l := [f]) top stack differs h

theorem at_top {t : State Tid Kid n} {stack : Thread Kid n → List (Frame Tid n)} {th : Thread Kid n}
    {task : Tid} {pc : Pc Tid n} {below : List (Frame Tid n)}
    (moved : t.stack = Function.update stack th (⟨task, pc⟩ :: below)) : t.at pc := by
  refine ⟨th, ⟨task, pc⟩, ?_, rfl⟩
  rw [moved, Function.update_self]
  exact List.mem_cons_self

omit [DecidableEq Kid] in
/-- A step that does not touch the queues and the notifiers, and moves no task that has still
to see to them. -/
theorem State.Watched.aside {s t : State Tid Kid n} (h : s.Watched)
    (same : t.queue = s.queue ∧ t.notifier = s.notifier ∧ t.loop = s.loop)
    (kept : ∀ pc, (∃ c, pc = .fetchAdd c ∨ pc = .notify c ∨ ∃ x, pc = .publish x c) →
      s.at pc → t.at pc) : t.Watched := by
  obtain ⟨queue, notifier, loop⟩ := same
  refine ⟨fun c => ?_, fun c x inside unpublished => ?_⟩
  · refine Step.good (h.counters c) (.post ?_ ?_ (fun _ work => .inl ?_) ?_ ?_)
    · exact congrFun notifier c
    · funext w
      exact congrArg Loop.seeks (congrFun loop c)
    · change Available (t.queue c) at work
      rw [queue] at work
      exact work
    · exact kept _ ⟨c, .inl rfl⟩
    · exact kept _ ⟨c, .inr (.inl rfl)⟩
  · rw [queue] at inside
    exact kept _ ⟨c, .inr (.inr ⟨_, rfl⟩)⟩ (h.publishing c x inside unpublished)

omit [DecidableEq Kid] in
theorem State.Watched.loop {s t : State Tid Kid n} (h : s.Watched) {i : Fin n} {p : Loop n}
    (loop : t.loop = Function.update s.loop i p) (notifier : t.notifier = s.notifier)
    (queue : ∀ c, t.queue c = s.queue c ∨ ∃ x, pop (s.queue c) = some (x, t.queue c))
    (kept : ∀ pc, s.at pc → t.at pc)
    (turn : Turn (s.counter i) (t.counter i) () (s.loop i).seeks p.seeks) : t.Watched := by
  have work : ∀ c, Available (t.queue c) → Available (s.queue c) := by
    intro c work
    rcases queue c with same | ⟨x, popped⟩
    · exact same ▸ work
    · exact ⟨x, _, popped⟩
  refine ⟨fun c => ?_, fun c x inside unpublished => kept _ (h.publishing c x ?_ unpublished)⟩
  · by_cases here : c = i
    · subst here
      refine Step.good (h.counters c) (.turn () (congrFun notifier c) (fun u other => absurd rfl other)
        ?_ (fun _ has => .inl (work c has)) (kept _) (kept _))
      have after : (t.counter c).waiter () = p.seeks := by
        simp only [State.counter, loop, Function.update_self]
      rw [after]
      exact turn
    · refine Step.good (h.counters c) (.post (congrFun notifier c) (funext fun _ => ?_)
        (fun _ has => .inl (work c has)) (kept _) (kept _))
      simp only [State.counter, loop, Function.update_of_ne here]
  · rcases queue c with same | ⟨y, popped⟩
    · exact same ▸ inside
    · rw [(Sandbox.pop_eq_some.mp popped).1]
      exact List.mem_cons_of_mem y inside

omit [DecidableEq Kid] in
theorem setQueue_queue {s : State Tid Kid n} {d : Fin n} {x : Item Tid} {rest : List (Item Tid)}
    (popped : pop (s.queue d) = some (x, rest)) (c : Fin n) :
    (s.setQueue d rest).queue c = s.queue c ∨
      ∃ x, pop (s.queue c) = some (x, (s.setQueue d rest).queue c) := by
  by_cases here : c = d
  · subst here
    refine .inr ⟨x, ?_⟩
    simp only [State.setQueue, Function.update_self]
    exact popped
  · exact .inl (Function.update_of_ne here ..)

variable [NeZero n]

theorem loop_watched {s t : State Tid Kid n} (h : s.Watched) {i : Fin n}
    (idle : s.stack (.worker i) = []) (taken : loopStep s i (s.loop i) = some t) : t.Watched := by
  have begun : ∀ {u : State Tid Kid n} {frames : List (Frame Tid n)},
      u.stack = Function.update s.stack (.worker i) frames → ∀ pc, s.at pc → u.at pc := by
    intro u frames stack pc
    refine at_kept stack fun f inside _ => ?_
    rw [idle] at inside
    cases inside
  cases at_pc : s.loop i with
  | load =>
    rw [at_pc] at taken
    cases taken
    exact h.loop rfl rfl (fun _ => .inl rfl) (fun _ => id) .load
  | popOwn v =>
    rw [at_pc] at taken
    simp only [loopStep] at taken
    split at taken <;> cases taken
    · rename_i item rest popped
      exact h.loop rfl rfl (setQueue_queue popped) (begun rfl) .leave
    · rename_i nothing
      refine h.loop rfl rfl (fun _ => .inl rfl) (fun _ => id) ?_
      rw [at_pc, scanning_seeks]
      exact .look (Sandbox.not_available_of_pop nothing)
  | scan v target more =>
    rw [at_pc] at taken
    simp only [loopStep] at taken
    split at taken <;> cases taken
    · rename_i item rest popped
      exact h.loop rfl rfl (setQueue_queue popped) (begun rfl) .leave
    · refine h.loop rfl rfl (fun _ => .inl rfl) (fun _ => id) ?_
      rw [at_pc, scanning_seeks]
      exact .stay
  | wait v =>
    rw [at_pc] at taken
    cases taken
    refine h.loop rfl rfl (fun _ => .inl rfl) (fun _ => id) ?_
    rw [at_pc]
    split
    · rename_i same
      subst same
      exact .sleep
    · exact .leave
  | blocked v =>
    rw [at_pc] at taken
    cases taken

variable [DecidableEq Tid]

theorem frame_watched {s t : State Tid Kid n} (h : s.Watched) {th : Thread Kid n} {task : Tid}
    {pc : Pc Tid n} {below : List (Frame Tid n)} (top : s.stack th = ⟨task, pc⟩ :: below)
    (taken : frameStep s th task below pc = some t) : t.Watched := by
  cases pc with
  | running => cases taken
  | index child =>
    cases taken
    refine h.aside ⟨rfl, rfl, rfl⟩ fun pc seen => at_next top rfl ?_
    rintro rfl
    obtain ⟨c, no | no | ⟨x, no⟩⟩ := seen <;> cases no
  | insert child idx =>
    cases taken
    have kept : ∀ {u : State Tid Kid n} {f : Frame Tid n} {pc : Pc Tid n},
        u.stack = Function.update s.stack th (f :: below) → pc ≠ .insert child idx → s.at pc → u.at pc :=
      fun stack differs => at_next top stack differs.symm
    have queue : ∀ c, (s.setQueue idx (s.queue idx ++ [⟨child, true, 0, 0, false⟩])).queue c = s.queue c ∨
        c = idx ∧ (s.setQueue idx (s.queue idx ++ [⟨child, true, 0, 0, false⟩])).queue c =
          s.queue c ++ [⟨child, true, 0, 0, false⟩] := by
      intro c
      by_cases here : c = idx
      · subst here
        exact .inr ⟨rfl, Function.update_self ..⟩
      · exact .inl (Function.update_of_ne here ..)
    refine ⟨fun c => Step.good (h.counters c) (.post rfl rfl (fun _ work => .inl ?_)
      (kept rfl fun no => by cases no) (kept rfl fun no => by cases no)), fun c x inside unpublished => ?_⟩
    · change Available ((s.setQueue idx _).queue c) at work
      rcases queue c with same | ⟨_, more⟩
      · rw [same] at work
        exact work
      · rw [more] at work
        exact Sandbox.available_append rfl work
    · change x ∈ (s.setQueue idx _).queue c at inside
      rcases queue c with same | ⟨rfl, more⟩
      · exact kept rfl (fun no => by cases no) (h.publishing c x (same ▸ inside) unpublished)
      · rw [more] at inside
        rcases List.mem_append.mp inside with old | new
        · exact kept rfl (fun no => by cases no) (h.publishing c x old unpublished)
        · cases List.mem_singleton.mp new
          exact at_top rfl
  | publish child idx =>
    cases taken
    have kept : ∀ {u : State Tid Kid n} {f : Frame Tid n} {pc : Pc Tid n},
        u.stack = Function.update s.stack th (f :: below) → pc ≠ .publish child idx → s.at pc → u.at pc :=
      fun stack differs => at_next top stack differs.symm
    refine ⟨fun c => Step.good (h.counters c) (.post rfl rfl (fun _ work => ?_)
      (kept rfl fun no => by cases no) (kept rfl fun no => by cases no)), fun c x inside unpublished => ?_⟩
    · by_cases here : c = idx
      · subst here
        exact .inr (at_top rfl)
      · change Available ((s.setQueue idx (publish (s.queue idx) child)).queue c) at work
        rw [show (s.setQueue idx (publish (s.queue idx) child)).queue c = s.queue c from
          Function.update_of_ne here ..] at work
        exact .inl work
    · change x ∈ Function.update s.queue idx (publish (s.queue idx) child) c at inside
      by_cases here : c = idx
      · subst here
        rw [Function.update_self, publish, List.mem_map] at inside
        obtain ⟨y, old, rfl⟩ := inside
        split at unpublished
        · cases unpublished
        · rename_i other
          rw [if_neg other]
          exact kept rfl (fun same => other (Pc.publish.inj same).1) (h.publishing c y old unpublished)
      · rw [Function.update_of_ne here] at inside
        exact kept rfl (fun same => here (Pc.publish.inj same).2) (h.publishing c x inside unpublished)
  | fetchAdd idx =>
    cases taken
    have kept : ∀ {u : State Tid Kid n} {f : Frame Tid n} {pc : Pc Tid n},
        u.stack = Function.update s.stack th (f :: below) → pc ≠ .fetchAdd idx → s.at pc → u.at pc :=
      fun stack differs => at_next top stack differs.symm
    refine ⟨fun c => ?_, fun c x inside unpublished =>
      kept rfl (fun no => by cases no) (h.publishing c x inside unpublished)⟩
    by_cases here : c = idx
    · subst here
      refine Step.good (h.counters c) (.advance ?_ rfl (at_top rfl))
      simp only [State.counter, State.setStack, Function.update_self]
      exact Nat.lt_succ_self _
    · refine Step.good (h.counters c) (.post ?_ rfl (fun _ => .inl)
        (kept rfl fun same => here (Pc.fetchAdd.inj same)) (kept rfl fun no => by cases no))
      simp only [State.counter, State.setStack, Function.update_of_ne here]
  | notify idx =>
    cases taken
    have kept : ∀ {u : State Tid Kid n} {f : Frame Tid n} {pc : Pc Tid n},
        u.stack = Function.update s.stack th (f :: below) → pc ≠ .notify idx → s.at pc → u.at pc :=
      fun stack differs => at_next top stack differs.symm
    refine ⟨fun c => ?_, fun c x inside unpublished =>
      kept rfl (fun no => by cases no) (h.publishing c x inside unpublished)⟩
    by_cases here : c = idx
    · subst here
      have woken : ∀ w, (((s.setLoop c (s.loop c).unblock).setStack th
          (⟨task, .running⟩ :: below)).counter c).waiter w = (s.loop c).unblock.seeks := by
        intro w
        simp only [State.counter, State.setStack, State.setLoop, Function.update_self]
      refine Step.good (h.counters c) (.notify rfl (fun w => ?_) (fun w v asleep _ => ?_)
        (fun _ => id) (kept rfl fun no => by cases no))
      · rw [woken]
        exact unblock_seeks (s.loop c)
      · rcases unblock_seeks (s.loop c) with same | ⟨u, before, after⟩
        · change (s.loop c).seeks = .asleep v at asleep
          cases at_pc : s.loop c with
          | blocked u =>
            rw [at_pc] at same
            cases same
          | load | popOwn | scan | wait =>
            rw [at_pc] at asleep
            cases asleep
        · exact ⟨(), u, before, (woken ()).trans after⟩
    · refine Step.good (h.counters c) (.post rfl (funext fun _ => ?_) (fun _ => .inl)
        (kept rfl fun no => by cases no) (kept rfl fun same => here (Pc.notify.inj same)))
      simp only [State.counter, State.setStack, State.setLoop, Function.update_of_ne here]
  | load child =>
    simp only [frameStep] at taken
    split at taken <;> cases taken
    all_goals
      refine h.aside ⟨rfl, rfl, rfl⟩ fun pc seen => at_next top rfl ?_
      rintro rfl
      obtain ⟨c, no | no | ⟨x, no⟩⟩ := seen <;> cases no
  | steal child contexts =>
    have kept : ∀ {u : State Tid Kid n} {l : List (Frame Tid n)} (pc : Pc Tid n),
        u.stack = Function.update s.stack th (l ++ below) →
        (∃ c, pc = .fetchAdd c ∨ pc = .notify c ∨ ∃ x, pc = .publish x c) → s.at pc → u.at pc := by
      intro u l pc stack seen
      refine at_below top stack ?_
      rintro rfl
      obtain ⟨c, no | no | ⟨x, no⟩⟩ := seen <;> cases no
    cases contexts with
    | nil =>
      cases taken
      exact h.aside ⟨rfl, rfl, rfl⟩ fun pc seen => kept (l := [_]) pc rfl seen
    | cons d more =>
      simp only [frameStep] at taken
      split at taken <;> cases taken
      · rename_i item rest popped
        have queue := setQueue_queue popped
        refine ⟨fun c => Step.good (h.counters c) (.post rfl rfl (fun _ work => .inl ?_)
          (kept (l := [_, _]) _ rfl ⟨c, .inl rfl⟩) (kept (l := [_, _]) _ rfl ⟨c, .inr (.inl rfl)⟩)),
          fun c x inside unpublished => kept (l := [_, _]) _ rfl ⟨c, .inr (.inr ⟨_, rfl⟩)⟩
            (h.publishing c x ?_ unpublished)⟩
        · change Available ((s.setQueue d rest).queue c) at work
          rcases queue c with same | ⟨x, first⟩
          · rw [same] at work
            exact work
          · exact ⟨x, _, first⟩
        · rcases queue c with same | ⟨y, first⟩
          · exact same ▸ inside
          · rw [(Sandbox.pop_eq_some.mp first).1]
            exact List.mem_cons_of_mem y inside
      · exact h.aside ⟨rfl, rfl, rfl⟩ fun pc seen => kept (l := [_]) pc rfl seen
  | final_suspend =>
    cases taken
    refine h.aside ⟨rfl, rfl, rfl⟩ fun pc seen => at_below (l := []) top rfl ?_
    rintro rfl
    obtain ⟨c, no | no | ⟨x, no⟩⟩ := seen <;> cases no

theorem step_watched {s t : State Tid Kid n} {a : Act Tid Kid n} (h : s.Watched)
    (taken : step s a = some t) : t.Watched := by
  have ran : ∀ {u : State Tid Kid n} {th : Thread Kid n} {task : Tid} {below : List (Frame Tid n)}
      {f : Frame Tid n}, s.stack th = ⟨task, .running⟩ :: below →
      u.stack = Function.update s.stack th (f :: below) → ∀ pc,
      (∃ c, pc = .fetchAdd c ∨ pc = .notify c ∨ ∃ x, pc = .publish x c) → s.at pc → u.at pc := by
    intro u th task below f top stack pc seen
    refine at_next top stack ?_
    rintro rfl
    obtain ⟨c, no | no | ⟨x, no⟩⟩ := seen <;> cases no
  cases a with
  | enter k task =>
    simp only [step] at taken
    split at taken
    · rename_i empty
      split at taken <;> cases taken
      refine h.aside ⟨rfl, rfl, rfl⟩ fun pc _ => at_kept rfl fun f inside _ => ?_
      rw [empty] at inside
      cases inside
    · cases taken
  | run th child | get th child | finish th =>
    simp only [step] at taken
    split at taken
    · split at taken <;> cases taken
      exact h.aside ⟨rfl, rfl, rfl⟩ (ran ‹_› rfl)
    · cases taken
  | step th =>
    simp only [step] at taken
    split at taken
    · exact frame_watched h ‹_› taken
    · exact loop_watched h ‹_› taken
    · cases taken
  | wake i =>
    simp only [step] at taken
    split at taken <;> cases taken
    rename_i v at_pc
    refine h.loop rfl rfl (fun _ => .inl rfl) (fun _ => id) ?_
    rw [at_pc]
    exact .wake

theorem reached_watched {s : State Tid Kid n} (reached : Reached (system Tid Kid n) s) :
    s.Watched := by
  refine Reached.invariant (I := State.Watched) ?_ (fun _ _ _ h taken => step_watched h taken) reached
  rintro _ rfl
  refine ⟨fun c => ⟨fun _ _ no => (by cases no), fun _ _ no => (by cases no), fun all => ?_⟩,
    fun _ _ inside => by cases inside⟩
  obtain ⟨v, no⟩ := all ()
  cases no

end Pot.ForkJoin
