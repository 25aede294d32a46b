import Pot.ForkJoin

/-! When tasks start. A task on top of another one started later, and so did a child of a task
than the task, so what a task waits for and what buries it are both younger than it is. -/
namespace Pot.ForkJoin
open Transition
open Sandbox (Item pop publish)

/-- Where a task is; one that has started knows how many had before it. -/
inductive Place (Kid : Type) (n : Nat) where
  | fresh
  | submitted (th : Thread Kid n)
  | queued (c : Fin n)
  | started (earlier : Nat)

/-- What the order is about: the stacks, and what the queues hold. -/
structure View (Tid Kid : Type) (n : Nat) where
  stack : Thread Kid n → List (Frame Tid n)
  calls : Fin n → List Tid
  m_ready : Tid → Bool
  created : Tid → Bool
  children : Tid → List Tid

variable {Tid Kid : Type} {n : Nat}

def State.view (s : State Tid Kid n) : View Tid Kid n where
  stack := s.stack
  calls c := (s.queue c).map Item.call
  m_ready := s.m_ready
  created := s.created
  children := s.children

def Place.time : Place Kid n → Nat
  | .started earlier => earlier + 1
  | _ => 0

/-- The child derived_execute has still to queue. -/
def Pc.submits : Pc Tid n → Option Tid
  | .index child | .insert child _ => some child
  | _ => none

/-- The task started before the child, if the child has started. -/
def Before (place : Tid → Place Kid n) (t child : Tid) : Prop :=
  place child ≠ .fresh ∧ 0 < (place t).time ∧
    (0 < (place child).time → (place t).time < (place child).time)

/-- What holds of a task that is on the stack of a thread. -/
structure Frame.Ok (place : Tid → Place Kid n) (m_ready : Tid → Bool) (th : Thread Kid n)
    (f : Frame Tid n) : Prop where
  started : 0 < (place f.task).time
  submits : ∀ c, f.pc.submits = some c → place c = .submitted th
  awaited : ∀ c, f.pc.awaits = some c → Before place f.task c
  ended : f.pc = .final_suspend → m_ready f.task = true

/-- A buried task waits, and is older than what buries it. -/
def Over (place : Tid → Place Kid n) (upper lower : Frame Tid n) : Prop :=
  lower.pc.awaits ≠ none ∧ (place lower.task).time < (place upper.task).time

structure Ordered (v : View Tid Kid n) (place : Tid → Place Kid n) (clock : Nat) : Prop where
  created : ∀ t, v.created t = true ↔ place t ≠ .fresh
  frames : ∀ th, ∀ f ∈ v.stack th, f.Ok place v.m_ready th
  buried : ∀ th, (v.stack th).Pairwise (Over place)
  submitted : ∀ c th, place c = .submitted th → ∃ f ∈ v.stack th, f.pc.submits = some c
  queued : ∀ c t, t ∈ v.calls c ↔ place t = .queued c
  nodup : ∀ c, (v.calls c).Nodup
  children : ∀ t, ∀ c ∈ v.children t, Before place t c
  unfinished : ∀ t, 0 < (place t).time → v.m_ready t = false → ∃ th, ∃ f ∈ v.stack th, f.task = t
  clock : ∀ t, (place t).time ≤ clock

theorem Pc.submits_awaits {pc : Pc Tid n} (waits : pc.awaits ≠ none) : pc.submits = none := by
  cases pc <;> first | rfl | exact absurd rfl waits

theorem ordered_initial : Ordered (initial Tid Kid n).view (fun _ => .fresh) 0 where
  created t := by simp only [State.view, initial, Bool.false_eq_true, ne_eq, not_true_eq_false]
  frames _ _ inside := by cases inside
  buried _ := .nil
  submitted _ _ at_place := by cases at_place
  queued _ t := by simp only [State.view, initial, List.map_nil, List.not_mem_nil, reduceCtorEq]
  nodup _ := .nil
  children _ _ inside := by cases inside
  unfinished _ positive := absurd positive (Nat.lt_irrefl 0)
  clock _ := Nat.le_refl 0

/-- Only the topmost task of a stack is in derived_execute. -/
theorem Ordered.submitter {v : View Tid Kid n} {place : Tid → Place Kid n} {clock : Nat}
    (h : Ordered v place clock) {th : Thread Kid n} {f : Frame Tid n} {below : List (Frame Tid n)}
    (top : v.stack th = f :: below) {c : Tid} (at_place : place c = .submitted th) :
    f.pc.submits = some c := by
  obtain ⟨g, inside, submitting⟩ := h.submitted c th at_place
  have piled := h.buried th
  rw [top] at inside piled
  rcases List.mem_cons.mp inside with rfl | inside
  · exact submitting
  · have waits := ((List.pairwise_cons.mp piled).1 g inside).1
    rw [Pc.submits_awaits waits] at submitting
    cases submitting

theorem Ordered.fresh {v : View Tid Kid n} {place : Tid → Place Kid n} {clock : Nat}
    (h : Ordered v place clock) {t : Tid} (unborn : v.created t = false) : place t = .fresh := by
  by_contra known
  rw [(h.created t).mpr known] at unborn
  cases unborn

theorem over_goto {place : Tid → Place Kid n} {task : Tid} {pc : Pc Tid n}
    {below : List (Frame Tid n)} (piled : (⟨task, pc⟩ :: below : List _).Pairwise (Over place))
    (pc' : Pc Tid n) : (⟨task, pc'⟩ :: below : List _).Pairwise (Over place) :=
  have apart := List.pairwise_cons.mp piled
  List.pairwise_cons.mpr ⟨apart.1, apart.2⟩

section
variable [DecidableEq Tid] {place : Tid → Place Kid n} {clock : Nat} {x : Tid} {p : Place Kid n}

theorem time_update (unstarted : (place x).time = 0) {t : Tid} (started : 0 < (place t).time) :
    Function.update place x p t = place t := by
  refine Function.update_of_ne ?_ ..
  rintro rfl
  rw [unstarted] at started
  exact Nat.lt_irrefl 0 started

theorem Before.update {t c : Tid} (before : Before place t c) (unstarted : (place x).time = 0)
    (known : p ≠ .fresh) (later : 0 < p.time → clock < p.time) (bound : (place t).time ≤ clock) :
    Before (Function.update place x p) t c := by
  rw [Before, time_update unstarted before.2.1]
  by_cases same : c = x
  · subst same
    rw [Function.update_self]
    exact ⟨known, before.2.1, fun started => Nat.lt_of_le_of_lt bound (later started)⟩
  · rw [Function.update_of_ne same]
    exact before

theorem Frame.Ok.update {m_ready : Tid → Bool} {th : Thread Kid n} {f : Frame Tid n}
    (ok : f.Ok place m_ready th) (unstarted : (place x).time = 0) (other : f.pc.submits ≠ some x)
    (known : p ≠ .fresh) (later : 0 < p.time → clock < p.time)
    (bound : ∀ t, (place t).time ≤ clock) : f.Ok (Function.update place x p) m_ready th where
  started := by
    rw [time_update unstarted ok.started]
    exact ok.started
  submits c submitting := by
    have different : c ≠ x := by
      rintro rfl
      exact other submitting
    rw [Function.update_of_ne different]
    exact ok.submits c submitting
  awaited c waits := (ok.awaited c waits).update unstarted known later (bound _)
  ended := ok.ended

theorem over_update {m_ready : Tid → Bool} {th : Thread Kid n} {frames : List (Frame Tid n)}
    (piled : frames.Pairwise (Over place)) (unstarted : (place x).time = 0)
    (own : ∀ f ∈ frames, f.Ok place m_ready th) :
    frames.Pairwise (Over (Function.update place x p)) := by
  refine piled.imp_of_mem fun {upper lower} above under before => ?_
  rw [Over, time_update unstarted (own upper above).started,
    time_update unstarted (own lower under).started]
  exact before

end

section
variable [DecidableEq Kid]

/-- What is being submitted is so by a frame below the top, or by what comes of the top. -/
theorem Ordered.submitted_below {v : View Tid Kid n} {place : Tid → Place Kid n} {clock : Nat}
    (h : Ordered v place clock) {th : Thread Kid n} {frame : Frame Tid n}
    {below frames : List (Frame Tid n)} (top : v.stack th = frame :: below)
    (here : ∀ c, frame.pc.submits = some c → ∃ f ∈ frames, f.pc.submits = some c)
    (kept : ∀ f ∈ below, f ∈ frames) (c : Tid) (i : Thread Kid n)
    (at_place : place c = .submitted i) : (i ≠ th ∧ place c = .submitted i) ∨
      (i = th ∧ ∃ f ∈ frames, f.pc.submits = some c) := by
  by_cases same : i = th
  · subst same
    refine .inr ⟨rfl, ?_⟩
    obtain ⟨f, inside, submitting⟩ := h.submitted c i at_place
    rw [top] at inside
    rcases List.mem_cons.mp inside with rfl | inside
    · exact here c submitting
    · exact ⟨f, kept f inside, submitting⟩
  · exact .inl ⟨same, at_place⟩

theorem Ordered.restack {v w : View Tid Kid n} {place place' : Tid → Place Kid n}
    {clock clock' : Nat} (h : Ordered v place clock) (th : Thread Kid n)
    {frames : List (Frame Tid n)} (stack : w.stack = Function.update v.stack th frames)
    (times : ∀ t, 0 < (place t).time → place' t = place t)
    (others : ∀ i, i ≠ th → ∀ f : Frame Tid n, f.Ok place v.m_ready i → f.Ok place' w.m_ready i)
    (own : ∀ f ∈ frames, f.Ok place' w.m_ready th) (piled : frames.Pairwise (Over place'))
    (created : ∀ t, w.created t = true ↔ place' t ≠ .fresh)
    (submitted : ∀ c i, place' c = .submitted i → (i ≠ th ∧ place c = .submitted i) ∨
      (i = th ∧ ∃ f ∈ frames, f.pc.submits = some c))
    (queued : ∀ c t, t ∈ w.calls c ↔ place' t = .queued c) (nodup : ∀ c, (w.calls c).Nodup)
    (children : ∀ t, ∀ c ∈ w.children t, Before place' t c)
    (unfinished : ∀ t, 0 < (place' t).time → w.m_ready t = false →
      (∃ f ∈ frames, f.task = t) ∨
        (0 < (place t).time ∧ v.m_ready t = false ∧ ∀ f ∈ v.stack th, f.task ≠ t))
    (clock : ∀ t, (place' t).time ≤ clock') : Ordered w place' clock' where
  created := created
  frames i f inside := by
    by_cases same : i = th
    · subst same
      rw [stack, Function.update_self] at inside
      exact own f inside
    · rw [stack, Function.update_of_ne same] at inside
      exact others i same f (h.frames i f inside)
  buried i := by
    by_cases same : i = th
    · subst same
      rw [stack, Function.update_self]
      exact piled
    · rw [stack, Function.update_of_ne same]
      refine (h.buried i).imp_of_mem fun {upper lower} inside inside' before => ⟨before.1, ?_⟩
      rw [times _ (h.frames i _ inside).started, times _ (h.frames i _ inside').started]
      exact before.2
  submitted c i at_place := by
    rcases submitted c i at_place with ⟨other, before⟩ | ⟨rfl, inside⟩
    · rw [stack, Function.update_of_ne other]
      exact h.submitted c i before
    · rw [stack, Function.update_self]
      exact inside
  queued := queued
  nodup := nodup
  children := children
  unfinished t positive unready := by
    rcases unfinished t positive unready with inside | ⟨before, unready, absent⟩
    · refine ⟨th, ?_⟩
      rw [stack, Function.update_self]
      exact inside
    · obtain ⟨i, f, inside, same⟩ := h.unfinished t before unready
      have other : i ≠ th := by
        rintro rfl
        exact absent f inside same
      refine ⟨i, f, ?_, same⟩
      rw [stack, Function.update_of_ne other]
      exact inside
  clock := clock

theorem Ordered.goto {v : View Tid Kid n} {place : Tid → Place Kid n} {clock : Nat}
    (h : Ordered v place clock) {th : Thread Kid n} {task : Tid} {pc : Pc Tid n}
    {below : List (Frame Tid n)} (top : v.stack th = ⟨task, pc⟩ :: below) (pc' : Pc Tid n)
    {m_ready : Tid → Bool} {children : Tid → List Tid}
    (submits : pc'.submits = pc.submits)
    (awaits : ∀ c, pc'.awaits = some c → pc.awaits = some c ∨ c ∈ v.children task)
    (ended : pc' = .final_suspend → m_ready task = true)
    (ready : ∀ t, v.m_ready t = true → m_ready t = true)
    (joined : ∀ t, ∀ c ∈ children t, c ∈ v.children t) :
    Ordered { v with stack := Function.update v.stack th (⟨task, pc'⟩ :: below),
                     m_ready := m_ready, children := children } place clock := by
  have still : ∀ i f, Frame.Ok place v.m_ready i f → f.Ok place m_ready i := fun i f ok =>
    ⟨ok.started, ok.submits, ok.awaited, fun at_end => ready _ (ok.ended at_end)⟩
  have own := h.frames th
  rw [top, List.forall_mem_cons] at own
  have piled := h.buried th
  rw [top] at piled
  refine h.restack th rfl (fun _ _ => rfl) (fun i _ => still i) ?_ (over_goto piled pc')
    h.created ?_ h.queued h.nodup (fun t c inside => h.children t c (joined t c inside)) ?_ h.clock
  · refine List.forall_mem_cons.mpr ⟨⟨own.1.started, ?_, ?_, ended⟩,
      fun f inside => still th f (own.2 f inside)⟩
    · exact fun c submitting => own.1.submits c (submits ▸ submitting)
    · intro c waits
      rcases awaits c waits with waits | inside
      · exact own.1.awaited c waits
      · exact h.children task c inside
  · exact h.submitted_below top
      (fun c submitting => ⟨_, List.mem_cons_self, submits.trans submitting⟩)
      fun f inside => List.mem_cons_of_mem _ inside
  · intro t positive unready
    have unready : v.m_ready t = false :=
      Bool.eq_false_iff.mpr fun ended => Bool.eq_false_iff.mp unready (ready t ended)
    by_cases inside : ∃ f ∈ v.stack th, f.task = t
    · rw [top] at inside
      obtain ⟨f, inside, rfl⟩ := inside
      refine .inl ?_
      rcases List.mem_cons.mp inside with rfl | inside
      · exact ⟨_, List.mem_cons_self, rfl⟩
      · exact ⟨f, List.mem_cons_of_mem _ inside, rfl⟩
    · exact .inr ⟨positive, unready, fun f mem same => inside ⟨f, mem, same⟩⟩

theorem Ordered.onward {v : View Tid Kid n} {place : Tid → Place Kid n} {clock : Nat}
    (h : Ordered v place clock) {th : Thread Kid n} {task : Tid} {pc : Pc Tid n}
    {below : List (Frame Tid n)} (top : v.stack th = ⟨task, pc⟩ :: below) (pc' : Pc Tid n)
    (submits : pc'.submits = pc.submits)
    (awaits : ∀ c, pc'.awaits = some c → pc.awaits = some c ∨ c ∈ v.children task)
    (goes_on : pc' ≠ .final_suspend) :
    Ordered { v with stack := Function.update v.stack th (⟨task, pc'⟩ :: below) } place clock :=
  h.goto top pc' submits awaits (fun no => absurd no goes_on) (fun _ ready => ready)
    (fun _ _ inside => inside)

theorem Ordered.leave {v : View Tid Kid n} {place : Tid → Place Kid n} {clock : Nat}
    (h : Ordered v place clock) {th : Thread Kid n} {task : Tid} {below : List (Frame Tid n)}
    (top : v.stack th = ⟨task, .final_suspend⟩ :: below) :
    Ordered { v with stack := Function.update v.stack th below } place clock := by
  have own := h.frames th
  rw [top, List.forall_mem_cons] at own
  have piled := h.buried th
  rw [top, List.pairwise_cons] at piled
  refine h.restack th rfl (fun _ _ => rfl) (fun _ _ _ ok => ok) own.2 piled.2 h.created ?_
    h.queued h.nodup h.children ?_ h.clock
  · refine h.submitted_below top (fun c submitting => ?_) fun _ => id
    cases submitting
  · intro t positive unready
    by_cases inside : ∃ f ∈ below, f.task = t
    · exact .inl inside
    · refine .inr ⟨positive, unready, fun f mem same => ?_⟩
      rw [top] at mem
      rcases List.mem_cons.mp mem with rfl | mem
      · rw [← same] at unready
        exact Bool.eq_false_iff.mp unready (own.1.ended rfl)
      · exact inside ⟨f, mem, same⟩

variable [DecidableEq Tid]

theorem Ordered.move {v w : View Tid Kid n} {place : Tid → Place Kid n} {clock clock' : Nat}
    (h : Ordered v place clock) {x : Tid} {p : Place Kid n} (th : Thread Kid n)
    {frames : List (Frame Tid n)} (stack : w.stack = Function.update v.stack th frames)
    (ready : w.m_ready = v.m_ready) (unstarted : (place x).time = 0) (known : p ≠ .fresh)
    (later : 0 < p.time → clock < p.time ∧ ∃ f ∈ frames, f.task = x)
    (elsewhere : ∀ i, i ≠ th → place x ≠ .submitted i)
    (own : ∀ f ∈ frames, f.Ok (Function.update place x p) v.m_ready th)
    (piled : frames.Pairwise (Over (Function.update place x p)))
    (created : ∀ t, w.created t = true ↔ t = x ∨ v.created t = true)
    (submits : ∀ i, p = .submitted i → i = th ∧ ∃ f ∈ frames, f.pc.submits = some x)
    (silent : ∀ c, c ≠ x → place c ≠ .submitted th)
    (queued : ∀ c t, t ∈ w.calls c ↔ (t = x ∧ p = .queued c) ∨ (t ≠ x ∧ t ∈ v.calls c))
    (nodup : ∀ c, (w.calls c).Nodup)
    (children : ∀ t, ∀ c ∈ w.children t, c ∈ v.children t ∨ Before (Function.update place x p) t c)
    (kept : ∀ f ∈ v.stack th, ∃ g ∈ frames, g.task = f.task) (ticks : clock ≤ clock')
    (early : p.time ≤ clock') : Ordered w (Function.update place x p) clock' := by
  have after : 0 < p.time → clock < p.time := fun positive => (later positive).1
  refine h.restack th stack (fun t started => time_update unstarted started) ?_ (ready ▸ own) piled ?_
    ?_ ?_ nodup ?_ ?_ ?_
  · intro i other f ok
    rw [ready]
    exact ok.update unstarted (fun submitting => elsewhere i other (ok.submits x submitting)) known
      after h.clock
  · intro t
    rw [created]
    by_cases same : t = x
    · subst same
      rw [Function.update_self]
      exact ⟨fun _ => known, fun _ => .inl rfl⟩
    · rw [Function.update_of_ne same, ← h.created t]
      exact ⟨fun born => born.resolve_left same, .inr⟩
  · intro c i at_place
    by_cases same : c = x
    · subst same
      rw [Function.update_self] at at_place
      exact .inr (submits i at_place)
    · rw [Function.update_of_ne same] at at_place
      refine .inl ⟨?_, at_place⟩
      rintro rfl
      exact silent c same at_place
  · intro c t
    rw [queued]
    by_cases same : t = x
    · subst same
      rw [Function.update_self]
      exact ⟨fun inside => (inside.resolve_right fun no => no.1 rfl).2, fun at_place =>
        .inl ⟨rfl, at_place⟩⟩
    · rw [Function.update_of_ne same, ← h.queued c t]
      exact ⟨fun inside => (inside.resolve_left fun no => same no.1).2, fun inside =>
        .inr ⟨same, inside⟩⟩
  · intro t c inside
    rcases children t c inside with inside | before
    · exact (h.children t c inside).update unstarted known after (h.clock t)
    · exact before
  · intro t started unready
    by_cases same : t = x
    · subst same
      rw [Function.update_self] at started
      exact .inl (later started).2
    · rw [Function.update_of_ne same] at started
      by_cases inside : ∃ f ∈ v.stack th, f.task = t
      · obtain ⟨f, inside, rfl⟩ := inside
        exact .inl (kept f inside)
      · exact .inr ⟨started, ready ▸ unready, fun f mem same => inside ⟨f, mem, same⟩⟩
  · intro t
    by_cases same : t = x
    · subst same
      rw [Function.update_self]
      exact early
    · rw [Function.update_of_ne same]
      exact (h.clock t).trans ticks

theorem Ordered.run {v : View Tid Kid n} {place : Tid → Place Kid n} {clock : Nat}
    (h : Ordered v place clock) {th : Thread Kid n} {task child : Tid}
    {below : List (Frame Tid n)} (top : v.stack th = ⟨task, .running⟩ :: below)
    (unborn : v.created child = false) :
    Ordered { v with stack := Function.update v.stack th (⟨task, .index child⟩ :: below),
                     created := Function.update v.created child true,
                     children := Function.update v.children task (child :: v.children task) }
      (Function.update place child (.submitted th)) clock := by
  have fresh := h.fresh unborn
  have unstarted : (place child).time = 0 := by rw [fresh]; rfl
  have known : Place.submitted th ≠ (Place.fresh : Place Kid n) := fun no => (by cases no)
  have nowhere : ∀ i, place child ≠ .submitted i := fun i at_place => by
    rw [fresh] at at_place
    cases at_place
  have own := h.frames th
  have piled := h.buried th
  rw [top] at own piled
  have still := fun f inside => (own f inside).update unstarted
    (fun submitting => nowhere th ((own f inside).submits child submitting)) known
    (fun positive => absurd positive (Nat.lt_irrefl 0)) h.clock
  have above := List.forall_mem_cons.mp still
  refine h.move th rfl rfl unstarted known (fun positive => absurd positive (Nat.lt_irrefl 0))
    (fun i _ => nowhere i) (List.forall_mem_cons.mpr ⟨⟨above.1.started, ?_, fun c no => (by cases no),
      fun no => (by cases no)⟩, above.2⟩) (over_goto (over_update piled unstarted own) _) ?_ ?_ ?_ ?_
    h.nodup ?_ ?_ (Nat.le_refl _) (Nat.zero_le _)
  · intro c same
    cases same
    exact Function.update_self ..
  · intro t
    by_cases same : t = child
    · subst same
      exact ⟨fun _ => .inl rfl, fun _ => Function.update_self ..⟩
    · simp only [Function.update_of_ne same, same, false_or]
  · rintro i ⟨⟩
    exact ⟨rfl, _, List.mem_cons_self, rfl⟩
  · intro c _ at_place
    cases h.submitter top at_place
  · intro c t
    refine ⟨fun inside => .inr ⟨?_, inside⟩, fun inside => (inside.resolve_left fun no => ?_).2⟩
    · rintro rfl
      rw [(h.queued c t).mp inside] at fresh
      cases fresh
    · cases no.2
  · intro t c inside
    by_cases same : t = task
    · subst same
      simp only [Function.update_self, List.mem_cons] at inside
      rcases inside with rfl | inside
      · refine .inr ⟨?_, above.1.started, fun started => ?_⟩
        · rw [Function.update_self]
          exact known
        · rw [Function.update_self] at started
          exact absurd started (Nat.lt_irrefl 0)
      · exact .inl inside
    · simp only [Function.update_of_ne same] at inside
      exact .inl inside
  · rw [top]
    exact List.forall_mem_cons.mpr ⟨⟨_, List.mem_cons_self, rfl⟩, fun f inside =>
      ⟨f, List.mem_cons_of_mem _ inside, rfl⟩⟩

theorem Ordered.insert {v : View Tid Kid n} {place : Tid → Place Kid n} {clock : Nat}
    (h : Ordered v place clock) {th : Thread Kid n} {task child : Tid} {idx : Fin n}
    {below : List (Frame Tid n)} (top : v.stack th = ⟨task, .insert child idx⟩ :: below) :
    Ordered { v with stack := Function.update v.stack th (⟨task, .publish child idx⟩ :: below),
                     calls := Function.update v.calls idx (v.calls idx ++ [child]) }
      (Function.update place child (.queued idx)) clock := by
  have own := h.frames th
  have piled := h.buried th
  rw [top] at own piled
  have at_place : place child = .submitted th := (own _ List.mem_cons_self).submits child rfl
  have unstarted : (place child).time = 0 := by rw [at_place]; rfl
  have absent : ∀ c, child ∉ v.calls c := fun c inside => by
    rw [h.queued, at_place] at inside
    cases inside
  have known : Place.queued idx ≠ (Place.fresh : Place Kid n) := fun no => (by cases no)
  have silent : ∀ f ∈ below, f.pc.submits ≠ some child := fun f inside submitting => by
    rw [Pc.submits_awaits ((List.pairwise_cons.mp piled).1 f inside).1] at submitting
    cases submitting
  have still := fun f inside => (own f (List.mem_cons_of_mem _ inside)).update unstarted
    (silent f inside) known (fun positive => absurd positive (Nat.lt_irrefl 0)) h.clock
  have started := (own _ List.mem_cons_self).started
  refine h.move th rfl rfl unstarted known (fun positive => absurd positive (Nat.lt_irrefl 0))
    ?_ (List.forall_mem_cons.mpr ⟨⟨?_, fun c no => (by cases no), fun c no => (by cases no),
      fun no => (by cases no)⟩, still⟩) (over_goto (over_update piled unstarted own) _) ?_
    (fun i no => (by cases no)) ?_ ?_ ?_ (fun t c inside => .inl inside) ?_ (Nat.le_refl _)
    (Nat.zero_le _)
  · intro i other at_other
    cases at_place.symm.trans at_other
    exact other rfl
  · rw [time_update unstarted started]
    exact started
  · intro t
    refine ⟨.inr, fun born => born.elim ?_ id⟩
    rintro rfl
    rw [h.created, at_place]
    exact fun no => (by cases no)
  · intro c other submitting
    cases h.submitter top submitting
    exact other rfl
  · intro c t
    by_cases same : c = idx
    · subst same
      simp only [Function.update_self, List.mem_append, List.mem_singleton]
      refine ⟨fun inside => ?_, fun inside => ?_⟩
      · rcases inside with inside | rfl
        · exact .inr ⟨fun same => absent c (same ▸ inside), inside⟩
        · exact .inl ⟨rfl, trivial⟩
      · exact inside.elim (fun now => .inr now.1) fun before => .inl before.2
    · simp only [Function.update_of_ne same]
      refine ⟨fun inside => .inr ⟨fun eq => absent c (eq ▸ inside), inside⟩, fun inside => ?_⟩
      refine (inside.resolve_left ?_).2
      rintro ⟨-, ⟨⟩⟩
      exact same rfl
  · intro c
    by_cases same : c = idx
    · subst same
      simp only [Function.update_self]
      exact List.nodup_append.mpr ⟨h.nodup c, List.nodup_singleton _, fun a inside b mem eq =>
        absent c (List.mem_singleton.mp mem ▸ eq ▸ inside)⟩
    · simp only [Function.update_of_ne same]
      exact h.nodup c
  · rw [top]
    exact List.forall_mem_cons.mpr ⟨⟨_, List.mem_cons_self, rfl⟩, fun f inside =>
      ⟨f, List.mem_cons_of_mem _ inside, rfl⟩⟩

theorem Ordered.start {v w : View Tid Kid n} {place : Tid → Place Kid n} {clock : Nat}
    (h : Ordered v place clock) (th : Thread Kid n) {task : Tid}
    (stack : w.stack = Function.update v.stack th (⟨task, .running⟩ :: v.stack th))
    (ready : w.m_ready = v.m_ready) (children : w.children = v.children)
    (created : ∀ t, w.created t = true ↔ t = task ∨ v.created t = true)
    (waits : ∀ f ∈ v.stack th, f.pc.awaits ≠ none) (unstarted : (place task).time = 0)
    (nowhere : ∀ i, place task ≠ .submitted i)
    (queued : ∀ c t, t ∈ w.calls c ↔ t ≠ task ∧ t ∈ v.calls c) (nodup : ∀ c, (w.calls c).Nodup) :
    Ordered w (Function.update place task (.started clock)) (clock + 1) := by
  have known : Place.started clock ≠ (Place.fresh : Place Kid n) := fun no => (by cases no)
  have later : clock < (Place.started clock : Place Kid n).time := Nat.lt_succ_self clock
  have own := h.frames th
  have still := fun f inside => (own f inside).update unstarted
    (fun submitting => nowhere th ((own f inside).submits task submitting)) known
    (fun _ => later) h.clock
  refine h.move th stack ready unstarted known
    (fun _ => ⟨later, _, List.mem_cons_self, rfl⟩) (fun i _ => nowhere i)
    (List.forall_mem_cons.mpr ⟨⟨?_, fun c no => (by cases no), fun c no => (by cases no),
      fun no => (by cases no)⟩, still⟩)
    (List.pairwise_cons.mpr ⟨?_, over_update (h.buried th) unstarted own⟩) created
    (fun i no => (by cases no)) ?_ ?_ nodup ?_ ?_ (Nat.le_succ _) (Nat.le_refl _)
  · rw [Function.update_self]
    exact Nat.succ_pos clock
  · intro f inside
    refine ⟨waits f inside, ?_⟩
    rw [time_update unstarted (own f inside).started, Function.update_self]
    exact Nat.lt_succ_of_le (h.clock f.task)
  · intro c _ at_place
    obtain ⟨f, inside, submitting⟩ := h.submitted c th at_place
    rw [Pc.submits_awaits (waits f inside)] at submitting
    cases submitting
  · intro c t
    rw [queued]
    exact ⟨.inr, fun inside => inside.resolve_left fun no => (by cases no.2)⟩
  · intro t c inside
    rw [children] at inside
    exact .inl inside
  · exact fun f inside => ⟨f, List.mem_cons_of_mem _ inside, rfl⟩

end

end Pot.ForkJoin
