import Pot.ParforNestedProgress

/-! When nested parfor calls come to a deadlock. A schedule that holds back each task of the widest
part of the tree in its heaviest call, until as many as there are workers are inside, ends in one. -/
namespace Pot.ParforNested
open Transition

variable {Tid : Type} {n : Nat}

/-- The tasks of the widest part of the tree: they run chunks, and all up to the root are in the
heaviest call of the one above. -/
inductive Chosen (program : StagedTree Tid) : Tid → Prop where
  | root : Chosen program program.root
  | chunk {t c} : Chosen program t → c ∈ program.heavy t → program.stages c ≠ [] → Chosen program c

/-- At the beginning of the heaviest call, with chunks that run none of their own. -/
def Pc.Held (program : StagedTree Tid) (t : Tid) (pc : Pc Tid) : Prop :=
  Chosen program t ∧ pc.chunks = program.heavy t ∧ pc.chunks ≠ [] ∧ pc.tasks = [] ∧
    ∀ c ∈ program.heavy t, program.stages c = []

/-- The held tasks take no step. -/
def Holding (program : StagedTree Tid) (s : State Tid n) : Act n → Prop
  | .pop _ => True
  | .step who => ∀ t pc, s.thread who = some t → s.frame t = .runs pc → ¬ pc.Held program t

/-- It has not come past its heaviest call. -/
def Pc.Ahead (program : StagedTree Tid) (t : Tid) (pc : Pc Tid) : Prop :=
  program.heavy t ∈ pc.later ∨ pc.chunks = program.heavy t ∧ pc.tasks = [] ∨
    (∃ c ∈ program.heavy t, program.stages c ≠ []) ∧
      ∀ c ∈ program.heavy t, program.stages c ≠ [] → c ∈ pc.tasks ∨ c ∈ pc.chunks

def Waiting (program : StagedTree Tid) (s : State Tid n) : Prop :=
  ∀ t, Chosen program t → s.frame t ≠ .ready ∧ ∀ pc, s.frame t = .runs pc → pc.Ahead program t

variable {program : StagedTree Tid}

theorem Chosen.branches (wide : 0 < program.width) {t : Tid} (chosen : Chosen program t) :
    program.stages t ≠ [] := by
  cases chosen with
  | root =>
    intro none
    rw [StagedTree.width, none] at wide
    exact Nat.lt_irrefl 0 wide
  | chunk _ _ some => exact some

theorem Chosen.above {t c : Tid} (chosen : Chosen program c)
    (child : c ∈ (program.stages t).flatten) : Chosen program t ∧ c ∈ program.heavy t := by
  cases chosen with
  | root => exact absurd child (program.top t)
  | @chunk u _ chosen heavy some =>
    have same : u = t := program.parent u t c (program.heavy_subset heavy) child
    exact same ▸ ⟨chosen, heavy⟩

theorem heavy_ne_nil (wide : 0 < program.width) {t : Tid} (chosen : Chosen program t) :
    program.heavy t ≠ [] :=
  program.some t _ (program.heavy_mem (chosen.branches wide))

theorem Pc.Ahead.run {t c : Tid} {chunks tasks : List Tid} {later : List (List Tid)}
    (chosen : Chosen program t) (ahead : Pc.Ahead program t ⟨c :: chunks, tasks, later⟩)
    (free : ¬ Pc.Held program t ⟨c :: chunks, tasks, later⟩) :
    Pc.Ahead program t ⟨chunks, tasks ++ [c], later⟩ := by
  have moved : ∀ d, d ∈ tasks ∨ d ∈ c :: chunks → d ∈ tasks ++ [c] ∨ d ∈ chunks := by
    intro d
    simp only [List.mem_append, List.mem_cons, List.not_mem_nil, or_false]
    tauto
  rcases ahead with before | ⟨here, first⟩ | ⟨some, all⟩
  · exact .inl before
  · have same : c :: chunks = program.heavy t := here
    refine .inr (.inr ⟨?_, fun d heavy _ => moved d (.inr (same ▸ heavy))⟩)
    by_contra leaves
    refine free ⟨chosen, here, by simp, first, fun d heavy => ?_⟩
    by_contra branches
    exact leaves ⟨d, heavy, branches⟩
  · exact .inr (.inr ⟨some, fun d heavy branches => moved d (all d heavy branches)⟩)

theorem Pc.Ahead.sync_wait {t c : Tid} {tasks : List Tid} {later : List (List Tid)}
    (ahead : Pc.Ahead program t ⟨[], c :: tasks, later⟩)
    (leaf : ¬ (c ∈ program.heavy t ∧ program.stages c ≠ [])) :
    Pc.Ahead program t ⟨[], tasks, later⟩ := by
  rcases ahead with before | ⟨-, first⟩ | ⟨some, all⟩
  · exact .inl before
  · cases first
  · refine .inr (.inr ⟨some, fun d heavy branches => ?_⟩)
    rcases all d heavy branches with mem | mem
    · rcases List.mem_cons.mp mem with rfl | mem
      · exact absurd ⟨heavy, branches⟩ leaf
      · exact .inl mem
    · exact .inr mem

theorem Pc.Ahead.between {t : Tid} {later : List (List Tid)} (some : program.heavy t ≠ [])
    (ahead : Pc.Ahead program t ⟨[], [], later⟩) : program.heavy t ∈ later := by
  rcases ahead with before | ⟨here, -⟩ | ⟨⟨c, heavy, branches⟩, all⟩
  · exact before
  · exact absurd here.symm some
  · simpa using all c heavy branches

variable [DecidableEq Tid]

theorem initial_waiting (wide : 0 < program.width) : Waiting program (initial program n) := by
  intro t chosen
  simp only [initial]
  split
  · refine ⟨by simp, fun pc at_pc => ?_⟩
    cases at_pc
    exact .inl (program.heavy_mem (chosen.branches wide))
  · exact ⟨by simp, fun pc at_pc => by cases at_pc⟩

theorem Waiting.update {s : State Tid n} (h : Waiting program s) {u : Tid} {f : Frame Tid}
    (own : Chosen program u → f ≠ .ready ∧ ∀ pc, f = .runs pc → pc.Ahead program u) {t : Tid}
    (chosen : Chosen program t) : Function.update s.frame u f t ≠ .ready ∧
      ∀ pc, Function.update s.frame u f t = .runs pc → pc.Ahead program t := by
  rw [Function.update_apply]
  split
  · rename_i same
    subst same
    exact own chosen
  · exact h t chosen

theorem step_waiting {queue_size : Nat} (wide : 0 < program.width) {s t : State Tid n} {a : Act n}
    (h : Waiting program s) (holding : Holding program s a)
    (taken : step program queue_size s a = some t) : Waiting program t := by
  cases step_cases taken with
  | @pop i u rest idle queue =>
    refine fun v => h.update (u := u) fun chosen => ⟨by simp, fun pc same => ?_⟩
    cases same
    exact .inl (program.heavy_mem (chosen.branches wide))
  | @run who u chunk chunks tasks later busy at_pc room =>
    intro v chosen
    simp only [State.push]
    rw [Function.update_apply]
    split
    · exact ⟨by simp, fun pc same => by cases same⟩
    · refine h.update (u := u) (fun mine => ⟨by simp, fun pc same => ?_⟩) chosen
      cases same
      exact ((h u mine).2 _ at_pc).run mine (holding u _ busy at_pc)
  | @sync_wait who u task tasks later busy at_pc ready =>
    refine fun v => h.update (u := u) fun mine => ⟨by simp, fun pc same => ?_⟩
    cases same
    refine ((h u mine).2 _ at_pc).sync_wait fun chosen => ?_
    exact (h task (.chunk mine chosen.1 chosen.2)).1 ready
  | @parfor who u chunks later busy at_pc =>
    refine fun v => h.update (u := u) fun mine => ⟨by simp, fun pc same => ?_⟩
    cases same
    have next := ((h u mine).2 _ at_pc).between (heavy_ne_nil wide mine)
    rcases List.mem_cons.mp next with here | further
    · exact .inr (.inl ⟨here.symm, rfl⟩)
    · exact .inl further
  | @co_return who u busy at_pc =>
    refine fun v => h.update (u := u) fun mine => ?_
    cases ((h u mine).2 _ at_pc).between (heavy_ne_nil wide mine)

/-- Where only the held tasks could take a step. -/
structure Stalled (program : StagedTree Tid) (queue_size : Nat) (s : State Tid n) : Prop where
  inv : Inv program s
  waiting : Waiting program s
  stuck : ∀ a, Holding program s a → step program queue_size s a = none

variable {queue_size : Nat} {s : State Tid n}

theorem Stalled.held_or_blocked (h : Stalled program queue_size s) {t : Tid} {pc : Pc Tid}
    (at_pc : s.frame t = .runs pc) : pc.Held program t ∨ pc.Blocked queue_size s := by
  obtain ⟨who, busy⟩ := (h.inv.running t).mp ⟨pc, at_pc⟩
  by_cases held : pc.Held program t
  · exact .inl held
  · refine .inr ((blocked_iff busy at_pc).mp (h.stuck (.step who) ?_))
    intro u pc' busy' at_pc'
    cases busy.symm.trans busy'
    cases at_pc.symm.trans at_pc'
    exact held

theorem Stalled.waits_for (h : Stalled program queue_size s) (positive : 0 < queue_size)
    (empty : s.queue = []) {t : Tid} {pc : Pc Tid} (at_pc : s.frame t = .runs pc)
    (free : ¬ pc.Held program t) :
    pc.chunks = [] ∧ ∃ c ∈ pc.tasks, c ∈ (program.stages t).flatten ∧ ∃ pc', s.frame c = .runs pc' := by
  rcases (h.held_or_blocked at_pc).resolve_left free with ⟨-, full⟩ | ⟨none, c, tasks, waits, unready⟩
  · rw [empty] at full
    exact absurd positive (Nat.not_lt.mpr full)
  · have mem : c ∈ pc.tasks := waits ▸ List.mem_cons_self
    have child := (h.inv.fits t pc at_pc).child (List.mem_append_left _ mem)
    refine ⟨none, c, mem, child, (h.inv.awaited at_pc mem unready).resolve_left ?_⟩
    rw [empty]
    exact List.not_mem_nil

/-- A task that is not held back leads down to one that can go on. -/
theorem Stalled.chosen (h : Stalled program queue_size s) (positive : 0 < queue_size)
    (empty : s.queue = []) {t : Tid} {pc : Pc Tid} (at_pc : s.frame t = .runs pc) :
    Chosen program t := by
  induction rank : program.rank t using Nat.strongRecOn generalizing t pc with
  | ind k ih =>
    by_contra other
    obtain ⟨-, c, -, child, pc', at_c⟩ := h.waits_for positive empty at_pc fun held => other held.1
    obtain ⟨stage, inside, mem⟩ := List.mem_flatten.mp child
    have chosen := ih (program.rank c) (rank ▸ program.lower t stage inside c mem) at_c rfl
    exact other (chosen.above child).1

theorem Stalled.heavy_runs (h : Stalled program queue_size s) (positive : 0 < queue_size)
    (empty : s.queue = []) {t c : Tid} {pc : Pc Tid} (at_pc : s.frame t = .runs pc)
    (heavy : c ∈ program.heavy t) (branches : program.stages c ≠ []) :
    ∃ pc', s.frame c = .runs pc' := by
  have free : ¬ pc.Held program t := fun held => branches (held.2.2.2.2 c heavy)
  have chosen := h.chosen positive empty at_pc
  have fits := h.inv.fits t pc at_pc
  obtain ⟨all_run, d, mem, child, pc', at_d⟩ := h.waits_for positive empty at_pc free
  rcases (h.waiting t chosen).2 pc at_pc with before | ⟨-, first⟩ | ⟨-, all⟩
  · -- the heaviest call is still to come, so what is waited for now is not chosen
    have below := ((h.chosen positive empty at_d).above child).2
    exact absurd (.inr (List.mem_flatten_of_mem before below)) (fits.apart mem)
  · rw [first] at mem
    cases mem
  · have here : c ∈ pc.tasks := (all c heavy branches).resolve_right (by simp [all_run])
    have unready := (h.waiting c (.chunk chosen heavy branches)).1
    refine (h.inv.awaited at_pc here unready).resolve_left ?_
    rw [empty]
    exact List.not_mem_nil

/-- The widest part of the tree keeps all workers busy. -/
theorem Stalled.busy (h : Stalled program queue_size s) (positive : 0 < queue_size)
    (wide : 0 < program.width) (many : n ≤ program.width) (i : Fin n) : s.thread (some i) ≠ none := by
  intro idle
  have empty : s.queue = [] := by
    by_contra some
    obtain ⟨t, rest, queue⟩ := List.exists_cons_of_ne_nil some
    have taken := h.stuck (.pop i) trivial
    simp only [step, idle, queue] at taken
    cases taken
  let tasks := (List.finRange n).filterMap fun j => s.thread (some j)
  have mem_tasks : ∀ t, t ∈ tasks ↔ ∃ j : Fin n, s.thread (some j) = some t := by
    intro t
    simp [tasks, List.mem_filterMap]
  have inner : ∀ t ∈ tasks, t ≠ program.root := by
    rintro t mem rfl
    obtain ⟨j, at_j⟩ := (mem_tasks _).mp mem
    exact absurd ((h.inv.caller (some j)).mp at_j).1 (by simp)
  have runs : ∀ t ∈ program.root :: tasks, ∃ pc, s.frame t = .runs pc := by
    intro t mem
    rcases List.mem_cons.mp mem with rfl | mem
    · exact (h.inv.running _).mpr ⟨none, (h.inv.caller none).mpr ⟨rfl, (h.waiting _ .root).1⟩⟩
    · obtain ⟨j, at_j⟩ := (mem_tasks t).mp mem
      exact (h.inv.running t).mpr ⟨some j, at_j⟩
  have kept := program.width_le_open (l := tasks) ?_ (fun mem => inner _ mem rfl)
    (fun t mem => ?_) (fun t mem c heavy branches => ?_)
  · have fewer : tasks.length < n := by
      have short : tasks.length < (List.finRange n).length :=
        List.length_filterMap_lt_length_iff_exists.mpr ⟨i, List.mem_finRange i, idle⟩
      rwa [List.length_finRange] at short
    omega
  · refine List.Nodup.filterMap (fun j k t at_j at_k => ?_) (List.nodup_finRange n)
    exact Option.some.inj (h.inv.single _ _ t at_j at_k)
  · obtain ⟨pc, at_pc⟩ := runs t (List.mem_cons_of_mem _ mem)
    exact (h.chosen positive empty at_pc).branches wide
  · obtain ⟨pc, at_pc⟩ := runs t mem
    obtain ⟨pc', at_c⟩ := h.heavy_runs positive empty at_pc heavy branches
    have below : c ≠ program.root := fun top => program.top t (top ▸ program.heavy_subset heavy)
    exact (mem_tasks c).mpr (h.inv.at_worker at_c below)

/-- It runs chunks that nobody takes, or waits for one. -/
def Pc.Stays (queue_size : Nat) (s : State Tid n) (pc : Pc Tid) : Prop :=
  pc.chunks ≠ [] ∧ ((∀ c ∈ pc.tasks, s.frame c ≠ .ready) ∨ queue_size ≤ s.queue.length) ∨
    pc.chunks = [] ∧ ∃ task tasks, pc.tasks = task :: tasks ∧ s.frame task ≠ .ready

def Occupied (queue_size : Nat) (s : State Tid n) : Prop :=
  ∀ who, ∃ t pc, s.thread who = some t ∧ s.frame t = .runs pc ∧ pc.Stays queue_size s

omit [DecidableEq Tid] in
theorem Pc.Stays.mono {s t : State Tid n} {pc : Pc Tid} (h : pc.Stays queue_size s)
    (ready : ∀ c, t.frame c = .ready → s.frame c = .ready)
    (queue : s.queue.length ≤ t.queue.length) : pc.Stays queue_size t := by
  refine h.imp (And.imp_right ?_) (And.imp_right ?_)
  · exact Or.imp (fun unready c mem done => unready c mem (ready c done)) (·.trans queue)
  · exact fun ⟨task, tasks, waits, unready⟩ => ⟨task, tasks, waits, unready ∘ ready task⟩

theorem Stalled.occupied (h : Stalled program queue_size s)
    (busy : ∀ i, s.thread (some i) ≠ none) : Occupied queue_size s := by
  intro who
  obtain ⟨t, running⟩ : ∃ t, s.thread who = some t := by
    cases who with
    | none => exact ⟨_, (h.inv.caller none).mpr ⟨rfl, (h.waiting _ .root).1⟩⟩
    | some i => exact Option.ne_none_iff_exists'.mp (busy i)
  obtain ⟨pc, at_pc⟩ := (h.inv.running t).mpr ⟨who, running⟩
  refine ⟨t, pc, running, at_pc, ?_⟩
  rcases h.held_or_blocked at_pc with ⟨-, -, some, none, -⟩ | ⟨some, full⟩ | waits
  · exact .inl ⟨some, .inl fun c mem => by rw [none] at mem; cases mem⟩
  · exact .inl ⟨some, .inr full⟩
  · exact .inr waits

/-- What goes on with all workers occupied are runs of chunks, which fill the queue. -/
theorem Occupied.step {t : State Tid n} {a : Act n} (h : Occupied queue_size s)
    (inv : Inv program s) (taken : step program queue_size s a = some t) :
    Occupied queue_size t := by
  cases step_cases taken with
  | @pop i u rest idle queue =>
    obtain ⟨u, pc, busy, -⟩ := h (some i)
    cases idle.symm.trans busy
  | @run who u chunk chunks tasks later busy at_pc room =>
    have child : chunk ∈ (program.stages u).flatten := (inv.fits u _ at_pc).child (by simp)
    have absent := inv.not_run at_pc
    have frames : ∀ c, c ≠ chunk → c ≠ u →
        (s.push u chunk ⟨chunks, tasks ++ [chunk], later⟩).frame c = s.frame c := by
      intro c first second
      simp only [State.push, Function.update_of_ne first, Function.update_of_ne second]
    have queued : (s.push u chunk ⟨chunks, tasks ++ [chunk], later⟩).frame chunk = .queued :=
      Function.update_self ..
    have now : (s.push u chunk ⟨chunks, tasks ++ [chunk], later⟩).frame u =
        .runs ⟨chunks, tasks ++ [chunk], later⟩ := by
      simp only [State.push, Function.update_of_ne (child_ne child).symm, Function.update_self]
    have ready : ∀ c, (s.push u chunk ⟨chunks, tasks ++ [chunk], later⟩).frame c = .ready →
        s.frame c = .ready := by
      intro c done
      by_cases first : c = chunk
      · cases queued.symm.trans (first ▸ done)
      · by_cases second : c = u
        · cases now.symm.trans (second ▸ done)
        · exact (frames c first second).symm.trans done
    intro w
    by_cases mine : w = who
    · refine ⟨u, _, mine ▸ busy, now, ?_⟩
      obtain ⟨v, pc, busy', at_v, stays⟩ := h who
      cases busy.symm.trans busy'
      cases at_pc.symm.trans at_v
      have unready : ∀ c ∈ tasks ++ [chunk],
          (s.push u chunk ⟨chunks, tasks ++ [chunk], later⟩).frame c ≠ .ready := by
        intro c mem done
        rcases List.mem_append.mp mem with old | new
        · rcases stays with ⟨-, all | full⟩ | ⟨none, -⟩
          · exact all c old (ready c done)
          · exact absurd room (Nat.not_lt.mpr full)
          · cases none
        · cases queued.symm.trans (List.mem_singleton.mp new ▸ done)
      cases chunks with
      | cons d chunks => exact .inl ⟨by simp, .inl unready⟩
      | nil =>
        obtain ⟨c, rest, split⟩ := List.exists_cons_of_ne_nil (l := tasks ++ [chunk]) (by simp)
        exact .inr ⟨rfl, c, rest, split, unready c (split ▸ List.mem_cons_self)⟩
    · obtain ⟨v, pc, busy', at_v, stays⟩ := h w
      have first : v ≠ chunk := by
        rintro rfl
        cases absent.symm.trans at_v
      refine ⟨v, pc, busy', (frames v first (inv.elsewhere busy mine busy')).trans at_v, ?_⟩
      exact stays.mono ready (by simp [State.push])
  | @sync_wait who u task tasks later busy at_pc ready =>
    obtain ⟨v, pc, busy', at_v, stays⟩ := h who
    cases busy.symm.trans busy'
    cases at_pc.symm.trans at_v
    rcases stays with ⟨some, -⟩ | ⟨-, c, rest, waits, unready⟩
    · exact absurd rfl some
    · cases waits
      exact absurd ready unready
  | @parfor who u chunks later busy at_pc | @co_return who u busy at_pc =>
    obtain ⟨v, pc, busy', at_v, stays⟩ := h who
    cases busy.symm.trans busy'
    cases at_pc.symm.trans at_v
    rcases stays with ⟨some, -⟩ | ⟨-, c, rest, waits, -⟩
    · exact absurd rfl some
    · cases waits

/-- A run of the pool can end before the outermost call has returned. -/
def Deadlocks (program : StagedTree Tid) (queue_size n : Nat) : Prop :=
  ∃ s : State Tid n, Reached (system program queue_size n) s ∧
    Terminal (system program queue_size n) s ∧ ¬ s.returned program

theorem deadlock_reached (positive : 0 < queue_size) (wide : 0 < program.width)
    (many : n ≤ program.width) : Deadlocks program queue_size n := by
  have held : ∃ s : State Tid n, (Reached (system program queue_size n) s ∧ Waiting program s) ∧
      ∀ a, Holding program s a → (system program queue_size n).step s a = none := by
    refine settles (State.left program) (fun s a t ⟨reached, waiting⟩ holding taken => ?_)
      ⟨.start rfl, initial_waiting wide⟩
    have one := step_left (reached_inv reached) taken
    exact ⟨⟨reached.next taken, step_waiting wide waiting holding taken⟩, by omega⟩
  obtain ⟨s, ⟨reached, waiting⟩, stuck⟩ := held
  have stalled : Stalled program queue_size s := ⟨reached_inv reached, waiting, stuck⟩
  -- the held tasks go on, and no worker is there for the chunks they run
  have full : ∃ t, (Reached (system program queue_size n) t ∧ Occupied queue_size t) ∧
      ∀ a, True → (system program queue_size n).step t a = none := by
    refine settles (State.left program) (fun s a t ⟨reached, occupied⟩ _ taken => ?_)
      ⟨reached, stalled.occupied (stalled.busy positive wide many)⟩
    have one := step_left (reached_inv reached) taken
    exact ⟨⟨reached.next taken, occupied.step (reached_inv reached) taken⟩, by omega⟩
  obtain ⟨t, ⟨reached, occupied⟩, stuck⟩ := full
  refine ⟨t, reached, fun a => stuck a trivial, fun returned => ?_⟩
  obtain ⟨u, pc, busy, at_pc, -⟩ := occupied none
  have top : u = program.root := (reached_inv reached).own u busy
  cases (top ▸ at_pc).symm.trans returned

/-- Every run comes to an end after a number of steps that the tree gives, and the pool can be left
with the outermost call waiting for ever exactly if its workers are not more than the tree is
wide. -/
theorem deadlocks_iff (program : StagedTree Tid) (positive : 0 < queue_size) (workers : 0 < n) :
    (Deadlocks program queue_size n ↔ n ≤ program.width) ∧
      ∀ (s : State Tid n) as t, Reached (system program queue_size n) s →
        replay (system program queue_size n) s as = some t →
        as.length + t.left program = s.left program := by
  refine ⟨⟨fun ⟨s, reached, terminal, waits⟩ => ?_, fun many => ?_⟩, fun s as t reached run => ?_⟩
  · exact stuck_width positive (reached_inv reached) terminal waits
  · exact deadlock_reached positive (workers.trans_le many) many
  · induction as generalizing s with
    | nil =>
      cases run
      exact Nat.zero_add _
    | cons a as ih =>
      simp only [replay, Option.bind_eq_some_iff] at run
      obtain ⟨u, taken, rest⟩ := run
      have further := ih u (reached.next taken) rest
      have one := step_left (reached_inv reached) taken
      rw [List.length_cons]
      omega

def nestedOnce : StagedTree Nat where
  root := 0
  stages
    | 0 => [[1]]
    | 1 => [[2]]
    | _ => []
  rank t := 2 - t
  lower t := by rcases t with _ | _ | t <;> simp
  some t := by rcases t with _ | _ | t <;> simp
  top t := by rcases t with _ | _ | t <;> simp
  once t := by rcases t with _ | _ | t <;> simp
  parent t u v := by rcases t with _ | _ | t <;> rcases u with _ | _ | u <;> simp <;> omega

theorem deadlocks_iff_once : Deadlocks nestedOnce 8 1 ∧ ¬ Deadlocks nestedOnce 8 2 := by
  have width : nestedOnce.width = 1 := by
    simp [StagedTree.width, StagedTree.load, StagedTree.occupies_eq, nestedOnce]
  have one : Deadlocks nestedOnce 8 1 ↔ 1 ≤ nestedOnce.width :=
    (deadlocks_iff nestedOnce (by decide) (by decide)).1
  have two : Deadlocks nestedOnce 8 2 ↔ 2 ≤ nestedOnce.width :=
    (deadlocks_iff nestedOnce (by decide) (by decide)).1
  rw [width] at one two
  exact ⟨one.mpr (Nat.le_refl 1), fun no => absurd (two.mp no) (by decide)⟩

end Pot.ParforNested
