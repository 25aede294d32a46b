import Mathlib.Data.Fintype.Option
import Pot.ParforNestedInvariant
import Pot.Tally

/-! Nested parfor calls come to an end or to a state in which every worker keeps a task that waits.
The steps of a run are numbered down, and a task that waits has chunks of its own. -/
namespace Pot.ParforNested
open Transition

variable {Tid : Type} {n : Nat}

/-- The steps that a task takes, with those of the chunks it runs, from its pop on. -/
def size (program : StagedTree Tid) : Tid → Nat :=
  program.eval fun stages => (stages.map fun chunks => (chunks.map (· + 2)).sum + 1).sum + 2

/-- What it takes to run these chunks and to wait for them. -/
def sizes (program : StagedTree Tid) (chunks : List Tid) : Nat :=
  (chunks.map fun c => size program c + 2).sum

def Pc.size (program : StagedTree Tid) (pc : Pc Tid) : Nat :=
  sizes program pc.chunks + pc.tasks.length +
    (pc.later.map fun chunks => sizes program chunks + 1).sum + 1

def State.work (program : StagedTree Tid) (s : State Tid n) (who : Option (Fin n)) : Nat :=
  match s.thread who with
  | some t =>
    match s.frame t with
    | .runs pc => pc.size program
    | _ => 0
  | none => 0

def State.left (program : StagedTree Tid) (s : State Tid n) : Nat :=
  (s.queue.map (size program)).sum + Tally.total id (s.work program)

variable {program : StagedTree Tid}

theorem size_eq (t : Tid) :
    size program t = Pc.size program ⟨[], [], program.stages t⟩ + 1 := by
  rw [size, StagedTree.eval_eq]
  simp only [Pc.size, sizes, size, List.map_map, Function.comp_def, List.map_nil, List.sum_nil,
    List.length_nil, Nat.zero_add]

theorem work_at {s : State Tid n} {who : Option (Fin n)} {t : Tid} {pc : Pc Tid}
    (busy : s.thread who = some t) (at_pc : s.frame t = .runs pc) :
    s.work program who = pc.size program := by
  simp only [State.work, busy, at_pc]

theorem work_idle {s : State Tid n} {who : Option (Fin n)} (idle : s.thread who = none) :
    s.work program who = 0 := by
  simp only [State.work, idle]

theorem total_moved (program : StagedTree Tid) (s t : State Tid n)
    (who : Option (Fin n)) (others : ∀ w, w ≠ who → t.thread w = s.thread w ∧
      ∀ u, s.thread w = some u → t.frame u = s.frame u) :
    Tally.total id (t.work program) + s.work program who =
      Tally.total id (s.work program) + t.work program who := by
  have moved : t.work program = Function.update (s.work program) who (t.work program who) := by
    funext w
    rw [Function.update_apply]
    split
    · rename_i same
      rw [same]
    · rename_i other
      obtain ⟨thread, frame⟩ := others w other
      simp only [State.work, thread]
      cases running : s.thread w with
      | none => rfl
      | some u => simp only [frame u running]
  have total := Tally.total_update id (s.work program) who (t.work program who)
  rw [← moved] at total
  exact total

theorem Inv.elsewhere {s : State Tid n} (h : Inv program s) {who w : Option (Fin n)} {t u : Tid}
    (busy : s.thread who = some t) (other : w ≠ who) (running : s.thread w = some u) : u ≠ t := by
  rintro rfl
  exact other (h.single w who u running busy)

/-- What has been run and not finished is queued or at a thread. -/
theorem Inv.awaited {s : State Tid n} (h : Inv program s) {t c : Tid} {pc : Pc Tid}
    (at_pc : s.frame t = .runs pc) (mem : c ∈ pc.tasks) (unready : s.frame c ≠ .ready) :
    c ∈ s.queue ∨ ∃ pc', s.frame c = .runs pc' := by
  have fits := h.fits t pc at_pc
  have related := h.family t c (fits.child (List.mem_append_left _ mem))
  rw [at_pc] at related
  cases at_c : s.frame c with
  | absent => exact absurd (related.1.mp at_c) (fits.apart mem)
  | queued => exact .inl ((h.queue c).mpr at_c)
  | runs pc' => exact .inr ⟨pc', rfl⟩
  | ready => exact absurd at_c unready

theorem Inv.parent {s : State Tid n} (h : Inv program s) {c : Tid} {pc : Pc Tid}
    (at_pc : s.frame c = .runs pc) (inner : c ≠ program.root) :
    ∃ t pc', s.frame t = .runs pc' ∧ c ∈ pc'.tasks := by
  by_contra none
  have absent : s.frame c = .absent := by
    refine h.orphan c inner fun t child => none ?_
    have related := h.family t c child
    cases at_t : s.frame t with
    | absent | queued | ready =>
      rw [at_t] at related
      cases at_pc.symm.trans related
    | runs pc' =>
      rw [at_t, at_pc] at related
      exact ⟨t, pc', at_t, (related.2 (by simp)).resolve_left (by simp)⟩
  cases at_pc.symm.trans absent

theorem Inv.at_worker {s : State Tid n} (h : Inv program s) {t : Tid} {pc : Pc Tid}
    (at_pc : s.frame t = .runs pc) (inner : t ≠ program.root) : ∃ i, s.thread (some i) = some t := by
  obtain ⟨who, busy⟩ := (h.running t).mp ⟨pc, at_pc⟩
  cases who with
  | some i => exact ⟨i, busy⟩
  | none => exact absurd (h.own t busy) inner

theorem Inv.current_load {s : State Tid n} (h : Inv program s) {t : Tid} {pc : Pc Tid}
    (at_pc : s.frame t = .runs pc) :
    (pc.tasks ++ pc.chunks = [] ∨ program.load (pc.tasks ++ pc.chunks) < program.occupies t) ∧
      (t = program.root → program.load (pc.tasks ++ pc.chunks) ≤ program.width) := by
  rcases (h.fits t pc at_pc).2 with none | ⟨stage, whole, suffix⟩
  · exact ⟨.inl none, fun _ => by rw [none]; exact Nat.zero_le _⟩
  · have mem : stage ∈ program.stages t := whole.subset List.mem_cons_self
    have part : program.load (pc.tasks ++ pc.chunks) ≤ program.load stage :=
      (suffix.sublist.map program.occupies).sum_le_sum fun _ _ => Nat.zero_le _
    exact ⟨.inr (part.trans_lt (program.load_lt mem)),
      fun top => part.trans (program.load_le_width (top ▸ mem))⟩

/-- No thread waits without end when nothing is queued. -/
theorem Inv.queue_some {queue_size : Nat} (positive : 0 < queue_size) {s : State Tid n}
    (h : Inv program s) (blocked : ∀ t pc, s.frame t = .runs pc → pc.Blocked queue_size s) {t : Tid}
    {pc : Pc Tid} (at_pc : s.frame t = .runs pc) : s.queue ≠ [] := by
  intro empty
  induction rank : program.rank t using Nat.strongRecOn generalizing t pc with
  | ind k ih =>
    rcases blocked t pc at_pc with ⟨-, full⟩ | ⟨-, task, tasks, waits, unready⟩
    · rw [empty] at full
      exact absurd positive (Nat.not_lt.mpr full)
    · have mem : task ∈ pc.tasks := waits ▸ List.mem_cons_self
      obtain ⟨stage, inside, child⟩ :=
        List.mem_flatten.mp ((h.fits t pc at_pc).child (List.mem_append_left _ mem))
      rcases h.awaited at_pc mem unready with queued | ⟨pc', at_task⟩
      · rw [empty] at queued
        cases queued
      · exact ih (program.rank task) (rank ▸ program.lower t stage inside task child) at_task rfl

variable [DecidableEq Tid]

theorem step_left {queue_size : Nat} {s t : State Tid n} {a : Act n} (h : Inv program s)
    (taken : step program queue_size s a = some t) : t.left program + 1 = s.left program := by
  cases step_cases taken with
  | @pop i u rest idle queue =>
    have at_u : s.frame u = .queued := (h.queue u).mp (queue ▸ List.mem_cons_self)
    have total := total_moved program s { s with
        queue := rest
        frame := Function.update s.frame u (.runs ⟨[], [], program.stages u⟩)
        thread := Function.update s.thread (some i) (some u) } (some i) fun w other =>
      ⟨Function.update_of_ne other .., fun v running => Function.update_of_ne (by
        rintro rfl
        obtain ⟨pc, at_pc⟩ := (h.running v).mpr ⟨w, running⟩
        cases at_u.symm.trans at_pc) ..⟩
    rw [work_idle idle, work_at (Function.update_self ..) (Function.update_self ..)] at total
    simp only [State.left, queue, List.map_cons, List.sum_cons, size_eq u]
    omega
  | @run who u chunk chunks tasks later busy at_pc room =>
    have child : chunk ∈ (program.stages u).flatten := (h.fits u _ at_pc).child (by simp)
    have absent := h.not_run at_pc
    have total := total_moved program s (s.push u chunk ⟨chunks, tasks ++ [chunk], later⟩) who
      fun w other =>
      ⟨rfl, fun v running => by
        have first : v ≠ chunk := by
          rintro rfl
          obtain ⟨pc, at_v⟩ := (h.running v).mpr ⟨w, running⟩
          cases absent.symm.trans at_v
        have second : v ≠ u := h.elsewhere busy other running
        simp only [State.push, Function.update_of_ne first, Function.update_of_ne second]⟩
    have now : (s.push u chunk ⟨chunks, tasks ++ [chunk], later⟩).frame u =
        .runs ⟨chunks, tasks ++ [chunk], later⟩ := by
      simp only [State.push, Function.update_of_ne (child_ne child).symm, Function.update_self]
    rw [work_at busy at_pc, work_at (s := s.push u chunk _) busy now] at total
    simp only [Pc.size, sizes, List.map_cons, List.sum_cons, List.length_append,
      List.length_singleton] at total
    simp only [State.left]
    simp only [State.push, List.map_append, List.map_singleton, List.sum_append,
      List.sum_singleton] at total ⊢
    omega
  | @sync_wait who u task tasks later busy at_pc ready =>
    have total := total_moved program s (s.goto u ⟨[], tasks, later⟩) who fun w other =>
      ⟨rfl, fun v running => Function.update_of_ne (h.elsewhere busy other running) ..⟩
    rw [work_at busy at_pc, work_at (s := s.goto u _) busy (Function.update_self ..)] at total
    simp only [Pc.size, List.length_cons] at total
    simp only [State.left]
    simp only [State.goto] at total ⊢
    omega
  | @parfor who u chunks later busy at_pc =>
    have total := total_moved program s (s.goto u ⟨chunks, [], later⟩) who fun w other =>
      ⟨rfl, fun v running => Function.update_of_ne (h.elsewhere busy other running) ..⟩
    rw [work_at busy at_pc, work_at (s := s.goto u _) busy (Function.update_self ..)] at total
    simp only [Pc.size, sizes, List.map_nil, List.sum_nil, List.length_nil, List.map_cons,
      List.sum_cons] at total
    simp only [State.left]
    simp only [State.goto] at total ⊢
    omega
  | @co_return who u busy at_pc =>
    have total := total_moved program s { s with
        frame := Function.update s.frame u .ready
        thread := Function.update s.thread who none } who fun w other =>
      ⟨Function.update_of_ne other .., fun v running =>
        Function.update_of_ne (h.elsewhere busy other running) ..⟩
    rw [work_at busy at_pc, work_idle (Function.update_self ..)] at total
    simp only [Pc.size, sizes, List.map_nil, List.sum_nil, List.length_nil] at total
    simp only [State.left]
    omega

/-- Where nothing goes on any more before the outermost call has returned, each worker keeps a task
that runs chunks of its own. -/
theorem stuck_width {queue_size : Nat} (positive : 0 < queue_size) {s : State Tid n}
    (h : Inv program s) (stuck : ∀ a, step program queue_size s a = none)
    (waits : s.frame program.root ≠ .ready) : n ≤ program.width := by
  have blocked : ∀ t pc, s.frame t = .runs pc → pc.Blocked queue_size s := by
    intro t pc at_pc
    obtain ⟨who, busy⟩ := (h.running t).mp ⟨pc, at_pc⟩
    exact (blocked_iff busy at_pc).mp (stuck (.step who))
  have busy : ∀ i : Fin n, ∃ t, s.thread (some i) = some t := by
    intro i
    by_contra idle
    have idle : s.thread (some i) = none := Option.eq_none_iff_forall_ne_some.mpr fun t busy =>
      idle ⟨t, busy⟩
    obtain ⟨pc, at_root⟩ := (h.running program.root).mpr ⟨none, (h.caller none).mpr ⟨rfl, waits⟩⟩
    have queue := h.queue_some positive blocked at_root
    obtain ⟨t, rest, split⟩ := List.exists_cons_of_ne_nil queue
    have taken := stuck (.pop i)
    simp only [step, idle, split] at taken
    cases taken
  choose task at_task using busy
  have inner : ∀ i, task i ≠ program.root := fun i same =>
    absurd ((h.caller (some i)).mp (same ▸ at_task i)).1 (by simp)
  have injective : Function.Injective task := fun i j same =>
    Option.some.inj (h.single _ _ _ (at_task i) (same ▸ at_task j))
  let current : Tid → List Tid := fun t =>
    match s.frame t with
    | .runs pc => pc.tasks ++ pc.chunks
    | _ => []
  have current_eq : ∀ {t pc}, s.frame t = .runs pc → current t = pc.tasks ++ pc.chunks := by
    intro t pc at_pc
    simp only [current, at_pc]
  have kept := program.open_le_width (l := (List.finRange n).map task)
    (List.Nodup.map injective (List.nodup_finRange n)) current ?_ ?_ ?_
  · rwa [List.length_map, List.length_finRange] at kept
  · intro t mem
    obtain ⟨i, -, rfl⟩ := List.mem_map.mp mem
    obtain ⟨pc, at_pc⟩ := (h.running (task i)).mpr ⟨some i, at_task i⟩
    obtain ⟨u, pc', at_u, mem⟩ := h.parent at_pc (inner i)
    have here : task i ∈ current u := by
      rw [current_eq at_u]
      exact List.mem_append_left _ mem
    by_cases top : u = program.root
    · exact List.mem_append_left _ (top ▸ here)
    · obtain ⟨j, at_j⟩ := h.at_worker at_u top
      have same : task j = u := Option.some.inj ((at_task j).symm.trans at_j)
      exact List.mem_append_right _ (List.mem_flatMap.mpr
        ⟨u, List.mem_map.mpr ⟨j, List.mem_finRange j, same⟩, here⟩)
  · intro t mem
    obtain ⟨i, -, rfl⟩ := List.mem_map.mp mem
    obtain ⟨pc, at_pc⟩ := (h.running (task i)).mpr ⟨some i, at_task i⟩
    rw [current_eq at_pc]
    refine (h.current_load at_pc).1.resolve_left fun none => ?_
    rw [List.append_eq_nil_iff] at none
    rcases blocked _ pc at_pc with ⟨some, -⟩ | ⟨-, c, tasks, some, -⟩
    · exact some none.2
    · cases none.1.symm.trans some
  · cases at_root : s.frame program.root with
    | runs pc =>
      rw [current_eq at_root]
      exact (h.current_load at_root).2 rfl
    | absent | queued | ready =>
      simp only [current, at_root]
      exact Nat.zero_le _

end Pot.ParforNested
