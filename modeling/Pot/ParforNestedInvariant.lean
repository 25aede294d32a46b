import Pot.ParforNested

/-! Where the tasks of nested parfor calls are: with each task its chunks, which are absent until
the loop has run them and ready before the task is, and what a run still has to do. -/
namespace Pot.ParforNested
open Transition

variable {Tid : Type} {n : Nat}

/-- The task is inside one of its calls, or between two of them. -/
def Pc.Fits (program : StagedTree Tid) (t : Tid) (pc : Pc Tid) : Prop :=
  pc.later <:+ program.stages t ∧ (pc.tasks ++ pc.chunks = [] ∨
    ∃ stage, stage :: pc.later <:+ program.stages t ∧ pc.tasks ++ pc.chunks <:+ stage)

/-- A task and one of its chunks. -/
def Related (parent : Frame Tid) (c : Tid) (child : Frame Tid) : Prop :=
  match parent with
  | .absent | .queued => child = .absent
  | .runs pc => (child = .absent ↔ c ∈ pc.chunks ∨ c ∈ pc.later.flatten) ∧
      (child ≠ .absent → child = .ready ∨ c ∈ pc.tasks)
  | .ready => child = .ready

structure Inv (program : StagedTree Tid) (s : State Tid n) : Prop where
  once : s.queue.Nodup
  queue : ∀ t, t ∈ s.queue ↔ s.frame t = .queued
  running : ∀ t, (∃ pc, s.frame t = .runs pc) ↔ ∃ who, s.thread who = some t
  single : ∀ who who' t, s.thread who = some t → s.thread who' = some t → who = who'
  caller : ∀ who, s.thread who = some program.root ↔ who = none ∧ s.frame program.root ≠ .ready
  own : ∀ t, s.thread none = some t → t = program.root
  root : s.frame program.root ≠ .absent ∧ s.frame program.root ≠ .queued
  family : ∀ t c, c ∈ (program.stages t).flatten → Related (s.frame t) c (s.frame c)
  orphan : ∀ c, c ≠ program.root → (∀ t, c ∉ (program.stages t).flatten) → s.frame c = .absent
  fits : ∀ t pc, s.frame t = .runs pc → pc.Fits program t

variable {program : StagedTree Tid}

theorem Pc.Fits.child {t c : Tid} {pc : Pc Tid} (fits : pc.Fits program t)
    (mem : c ∈ pc.tasks ++ pc.chunks) : c ∈ (program.stages t).flatten := by
  rcases fits.2 with none | ⟨stage, whole, suffix⟩
  · rw [none] at mem
    cases mem
  · exact List.mem_flatten_of_mem (whole.subset List.mem_cons_self) (suffix.subset mem)

theorem suffix_nodup {t : Tid} {stages : List (List Tid)} (suffix : stages <:+ program.stages t) :
    stages.flatten.Nodup := by
  obtain ⟨before, split⟩ := suffix
  have once := program.once t
  rw [← split, List.flatten_append] at once
  exact (List.nodup_append.mp once).2.1

theorem Pc.Fits.nodup {t : Tid} {pc : Pc Tid} (fits : pc.Fits program t) :
    (pc.tasks ++ (pc.chunks ++ pc.later.flatten)).Nodup := by
  rw [← List.append_assoc]
  rcases fits.2 with none | ⟨stage, whole, suffix⟩
  · rw [none, List.nil_append]
    exact suffix_nodup fits.1
  · have all := suffix_nodup whole
    rw [List.flatten_cons] at all
    exact all.sublist (suffix.sublist.append_right _)

theorem Pc.Fits.apart {t c : Tid} {pc : Pc Tid} (fits : pc.Fits program t) (mem : c ∈ pc.tasks) :
    ¬ (c ∈ pc.chunks ∨ c ∈ pc.later.flatten) := by
  rw [← List.mem_append]
  exact fun other => (List.nodup_append.mp fits.nodup).2.2 c mem c other rfl

theorem child_ne {t c : Tid} (child : c ∈ (program.stages t).flatten) : c ≠ t := by
  rintro rfl
  obtain ⟨stage, mem, inside⟩ := List.mem_flatten.mp child
  exact Nat.lt_irrefl _ (program.lower c stage mem c inside)

theorem Related.goes {parent child child' : Frame Tid} {c : Tid} (h : Related parent c child)
    (was : child ≠ .absent) (unready : child ≠ .ready) (now : child' ≠ .absent) :
    Related parent c child' := by
  cases parent with
  | absent | queued => exact absurd h was
  | ready => exact absurd h unready
  | runs pc =>
    exact ⟨iff_of_false now fun left => was (h.1.mpr left),
      fun _ => .inr ((h.2 was).resolve_left unready)⟩

theorem Inv.orphan_ne {s : State Tid n} (h : Inv program s) {t c : Tid} (other : c ≠ program.root)
    (none : ∀ p, c ∉ (program.stages p).flatten) (some : s.frame t ≠ .absent) : c ≠ t :=
  fun same => some (same ▸ h.orphan c other none)

theorem Inv.not_run {s : State Tid n} (h : Inv program s) {t chunk : Tid} {chunks tasks : List Tid}
    {later : List (List Tid)} (at_pc : s.frame t = .runs ⟨chunk :: chunks, tasks, later⟩) :
    s.frame chunk = .absent := by
  have related := h.family t chunk ((h.fits t _ at_pc).child (by simp))
  rw [at_pc] at related
  exact related.1.mpr (.inl List.mem_cons_self)

variable [DecidableEq Tid]

theorem initial_inv : Inv program (initial program n) where
  once := List.nodup_nil
  queue t := by
    refine iff_of_false List.not_mem_nil ?_
    simp only [initial]
    split <;> simp
  running t := by
    simp only [initial]
    constructor
    · intro ⟨pc, at_pc⟩
      split at at_pc
      · rename_i same
        exact ⟨none, congrArg some same.symm⟩
      · cases at_pc
    · intro ⟨who, busy⟩
      cases who with
      | none => exact ⟨_, if_pos (Option.some.inj busy).symm⟩
      | some i => cases busy
  single who who' t here there := by
    cases who with
    | some i => cases here
    | none =>
      cases who' with
      | some i => cases there
      | none => rfl
  caller who := by
    have unready : (initial program n).frame program.root ≠ .ready := by simp [initial]
    cases who with
    | none => exact iff_of_true rfl ⟨rfl, unready⟩
    | some i => exact iff_of_false (by simp [initial]) (by simp)
  own t busy := (Option.some.inj busy).symm
  root := by simp [initial]
  family t c child := by
    have absent : (initial program n).frame c = .absent :=
      if_neg fun same : c = program.root => program.top t (same ▸ child)
    rw [absent]
    simp only [initial]
    split
    · rename_i same
      subst same
      exact ⟨iff_of_true rfl (.inr child), fun no => absurd rfl no⟩
    · rfl
  orphan c other _ := if_neg other
  fits t pc at_pc := by
    simp only [initial] at at_pc
    split at at_pc
    · cases at_pc
      exact ⟨List.suffix_refl _, .inl rfl⟩
    · cases at_pc

theorem Inv.family_update {s : State Tid n} (h : Inv program s) {t : Tid} {f : Frame Tid}
    (was : s.frame t ≠ .absent) (unready : s.frame t ≠ .ready) (now : f ≠ .absent)
    (own : ∀ c ∈ (program.stages t).flatten, Related f c (s.frame c)) (p c : Tid)
    (child : c ∈ (program.stages p).flatten) :
    Related (Function.update s.frame t f p) c (Function.update s.frame t f c) := by
  by_cases mine : p = t
  · subst mine
    rw [Function.update_self, Function.update_of_ne (child_ne child)]
    exact own c child
  · rw [Function.update_of_ne mine, Function.update_apply]
    split
    · rename_i same
      subst same
      exact (h.family p c child).goes was unready now
    · exact h.family p c child

theorem Inv.goto {s : State Tid n} (h : Inv program s) {t : Tid} {pc pc' : Pc Tid}
    (at_pc : s.frame t = .runs pc) (fits : pc'.Fits program t)
    (own : ∀ c ∈ (program.stages t).flatten, Related (.runs pc') c (s.frame c)) :
    Inv program (s.goto t pc') where
  once := h.once
  queue u := by
    simp only [State.goto, Function.update_apply]
    split
    · rename_i same
      refine iff_of_false (fun mem => ?_) (by simp)
      cases at_pc.symm.trans ((h.queue t).mp (same ▸ mem))
    · exact h.queue u
  running u := by
    simp only [State.goto, Function.update_apply]
    split
    · rename_i same
      exact iff_of_true ⟨pc', rfl⟩ (same ▸ (h.running t).mp ⟨pc, at_pc⟩)
    · exact h.running u
  single := h.single
  caller who := by
    have same : (s.goto t pc').frame program.root ≠ .ready ↔ s.frame program.root ≠ .ready := by
      simp only [State.goto, Function.update_apply]
      split
      · rename_i same
        exact iff_of_true (by simp) (by rw [same, at_pc]; simp)
      · rfl
    rw [same]
    exact h.caller who
  own := h.own
  root := by
    simp only [State.goto, Function.update_apply]
    split
    · simp
    · exact h.root
  family := h.family_update (by simp [at_pc]) (by simp [at_pc]) (by simp) own
  orphan c other none := by
    have differ := h.orphan_ne other none (t := t) (by simp [at_pc])
    simp only [State.goto, Function.update_of_ne differ]
    exact h.orphan c other none
  fits u pc'' at_u := by
    simp only [State.goto, Function.update_apply] at at_u
    split at at_u
    · rename_i same
      cases at_u
      exact same ▸ fits
    · exact h.fits u pc'' at_u

theorem Inv.pop {s : State Tid n} (h : Inv program s) {i : Fin n} {t : Tid} {rest : List Tid}
    (idle : s.thread (some i) = none) (queue : s.queue = t :: rest) :
    Inv program { s with
      queue := rest
      frame := Function.update s.frame t (.runs ⟨[], [], program.stages t⟩)
      thread := Function.update s.thread (some i) (some t) } := by
  have at_t : s.frame t = .queued := (h.queue t).mp (queue ▸ List.mem_cons_self)
  have once := h.once
  rw [queue, List.nodup_cons] at once
  have nobody : ∀ who, s.thread who ≠ some t := by
    intro who busy
    obtain ⟨pc, at_pc⟩ := (h.running t).mpr ⟨who, busy⟩
    cases at_t.symm.trans at_pc
  have differ : t ≠ program.root := fun same => h.root.2 (same ▸ at_t)
  have others : ∀ who u, Function.update s.thread (some i) (some t) who = some u ↔
      who = some i ∧ u = t ∨ s.thread who = some u := by
    intro who u
    rw [Function.update_apply]
    split
    · rename_i same
      subst same
      rw [idle]
      simp [eq_comm]
    · rename_i other
      simp [other]
  refine ⟨once.2, fun u => ?_, fun u => ?_, fun who who' u here there => ?_, fun who => ?_,
    fun u busy => h.own u (((others none u).mp busy).resolve_left (by simp)), ?_, ?_,
    fun c other none => ?_, fun u pc at_u => ?_⟩
  · simp only [Function.update_apply]
    split
    · rename_i same
      exact iff_of_false (same ▸ once.1) (by simp)
    · rename_i other
      rw [← h.queue u, queue, List.mem_cons, or_iff_right other]
  · simp only [Function.update_apply]
    split
    · rename_i same
      exact iff_of_true ⟨_, rfl⟩ ⟨some i, by rw [if_pos rfl, same]⟩
    · rename_i other
      rw [h.running u]
      simp only [← Function.update_apply, others, other, and_false, false_or]
  · rcases (others who u).mp here with ⟨mine, same⟩ | kept
    · rcases (others who' u).mp there with ⟨too, -⟩ | kept
      · exact mine.trans too.symm
      · exact absurd (same ▸ kept) (nobody who')
    · rcases (others who' u).mp there with ⟨-, same⟩ | kept'
      · exact absurd (same ▸ kept) (nobody who)
      · exact h.single who who' u kept kept'
  · simp only [others, Function.update_of_ne differ.symm]
    rw [← h.caller who]
    exact or_iff_right fun taken => differ taken.2.symm
  · simp only [Function.update_of_ne differ.symm]
    exact h.root
  · refine h.family_update (by simp [at_t]) (by simp [at_t]) (by simp) fun c child => ?_
    have absent := h.family t c child
    rw [at_t] at absent
    exact ⟨iff_of_true absent (.inr child), fun no => absurd absent no⟩
  · have differ := h.orphan_ne other none (t := t) (by simp [at_t])
    simp only [Function.update_of_ne differ]
    exact h.orphan c other none
  · simp only [Function.update_apply] at at_u
    split at at_u
    · rename_i same
      cases at_u
      exact ⟨same ▸ List.suffix_refl _, .inl rfl⟩
    · exact h.fits u pc at_u

theorem Inv.run {s : State Tid n} (h : Inv program s) {t chunk : Tid} {chunks tasks : List Tid}
    {later : List (List Tid)} (at_pc : s.frame t = .runs ⟨chunk :: chunks, tasks, later⟩) :
    Inv program (s.push t chunk ⟨chunks, tasks ++ [chunk], later⟩) := by
  have fits := h.fits t _ at_pc
  have child : chunk ∈ (program.stages t).flatten := fits.child (by simp)
  have differ : chunk ≠ t := child_ne child
  have inner : chunk ≠ program.root := fun same => program.top t (same ▸ child)
  have absent := h.not_run at_pc
  have fits' : Pc.Fits program t ⟨chunks, tasks ++ [chunk], later⟩ := by
    refine ⟨fits.1, ?_⟩
    simp only [List.append_assoc, List.singleton_append]
    exact fits.2
  have pushed : (s.push t chunk ⟨chunks, tasks ++ [chunk], later⟩).frame chunk = .queued :=
    Function.update_self ..
  have others : ∀ u, u ≠ chunk → (s.push t chunk ⟨chunks, tasks ++ [chunk], later⟩).frame u =
      if u = t then .runs ⟨chunks, tasks ++ [chunk], later⟩ else s.frame u := by
    intro u other
    simp only [State.push, Function.update_of_ne other, Function.update_apply]
  have queue_iff : ∀ u, u ≠ chunk → (s.frame u = .queued ↔ u ∈ s.queue ++ [chunk]) := by
    intro u other
    simp only [List.mem_append, List.mem_singleton, other, or_false, h.queue u]
  have fresh : chunk ∉ s.queue := fun mem => by cases absent.symm.trans ((h.queue chunk).mp mem)
  refine ⟨?_, fun u => ?_, fun u => ?_, h.single, fun who => ?_, h.own, ?_, fun p c below => ?_,
    fun c other none => ?_, fun u pc at_u => ?_⟩
  · exact List.nodup_append.mpr ⟨h.once, List.nodup_singleton _, fun a mem b single same =>
      fresh (List.mem_singleton.mp single ▸ same ▸ mem)⟩
  · by_cases same : u = chunk
    · subst same
      simp [State.push]
    · refine (queue_iff u same).symm.trans ?_
      rw [others u same]
      split
      · rename_i mine
        exact iff_of_false (by rw [mine, at_pc]; simp) (by simp)
      · rfl
  · by_cases same : u = chunk
    · subst same
      simp only [pushed]
      refine iff_of_false (by simp) fun busy => ?_
      obtain ⟨pc, at_u⟩ := (h.running u).mpr busy
      cases absent.symm.trans at_u
    · simp only [others u same]
      split
      · rename_i mine
        exact iff_of_true ⟨_, rfl⟩ (mine ▸ (h.running t).mp ⟨_, at_pc⟩)
      · exact h.running u
  · simp only [others _ inner.symm]
    have callers := h.caller who
    split
    · rename_i mine
      rw [mine, at_pc] at callers
      rw [mine]
      exact callers.trans (by simp)
    · exact callers
  · simp only [others _ inner.symm]
    split
    · simp
    · exact h.root
  · by_cases mine : p = t
    · subst mine
      rw [others p differ.symm, if_pos rfl]
      by_cases same : c = chunk
      · subst same
        rw [pushed]
        have apart := fits'.apart (c := c) (by simp)
        exact ⟨iff_of_false (by simp) apart, fun _ => .inr (by simp)⟩
      · have related := h.family p c below
        rw [at_pc] at related
        rw [others c same, if_neg (child_ne below)]
        exact ⟨related.1.trans (by simp [same]), fun some =>
          (related.2 some).imp_right fun mem => List.mem_append_left _ mem⟩
    · have other : c ≠ chunk := fun same => mine (program.parent p t c below (same ▸ child))
      rw [others c other]
      by_cases first : p = chunk
      · subst first
        rw [pushed]
        have related := h.family p c below
        rw [absent] at related
        have apart : c ≠ t := by
          rintro rfl
          cases at_pc.symm.trans related
        rw [if_neg apart]
        exact related
      · rw [others p first, if_neg mine]
        have related := h.family p c below
        split
        · rename_i same
          subst same
          exact related.goes (by simp [at_pc]) (by simp [at_pc]) (by simp)
        · exact related
  · have other' : c ≠ chunk := fun same => none t (same ▸ child)
    have differ := h.orphan_ne other none (t := t) (by simp [at_pc])
    simp only [others c other', if_neg differ]
    exact h.orphan c other none
  · by_cases same : u = chunk
    · subst same
      simp only [pushed] at at_u
      cases at_u
    · simp only [others u same] at at_u
      split at at_u
      · rename_i mine
        cases at_u
        exact mine ▸ fits'
      · exact h.fits u pc at_u

theorem Inv.co_return {s : State Tid n} (h : Inv program s) {who : Option (Fin n)} {t : Tid}
    (busy : s.thread who = some t) (at_pc : s.frame t = .runs ⟨[], [], []⟩) :
    Inv program { s with
      frame := Function.update s.frame t .ready
      thread := Function.update s.thread who none } := by
  have threads : ∀ who' u, Function.update s.thread who none who' = some u ↔
      u ≠ t ∧ s.thread who' = some u := by
    intro who' u
    rw [Function.update_apply]
    split
    · rename_i same
      rw [same, busy]
      simp [eq_comm]
    · rename_i other
      exact ⟨fun running => ⟨fun same => other (h.single _ _ t (same ▸ running) busy), running⟩,
        fun running => running.2⟩
  refine ⟨h.once, fun u => ?_, fun u => ?_, fun who' who'' u here there => ?_, fun who' => ?_,
    fun u busy => h.own u ((threads none u).mp busy).2, ?_, ?_, fun c other none => ?_,
    fun u pc at_u => ?_⟩
  · simp only [Function.update_apply]
    split
    · rename_i same
      refine iff_of_false (fun mem => ?_) (by simp)
      cases at_pc.symm.trans ((h.queue t).mp (same ▸ mem))
    · exact h.queue u
  · simp only [threads]
    by_cases same : u = t
    · simp [same]
    · simp only [Function.update_of_ne same, same, ne_eq, not_false_eq_true, true_and]
      exact h.running u
  · exact h.single who' who'' u ((threads _ _).mp here).2 ((threads _ _).mp there).2
  · simp only [threads]
    rw [h.caller who']
    by_cases same : program.root = t
    · simp [same]
    · simp [same]
  · simp only [Function.update_apply]
    split
    · simp
    · exact h.root
  · refine h.family_update (by simp [at_pc]) (by simp [at_pc]) (by simp) fun c child => ?_
    have related := h.family t c child
    rw [at_pc] at related
    exact (related.2 fun absent => by simpa using related.1.mp absent).resolve_right (by simp)
  · have differ := h.orphan_ne other none (t := t) (by simp [at_pc])
    simp only [Function.update_of_ne differ]
    exact h.orphan c other none
  · simp only [Function.update_apply] at at_u
    split at at_u
    · cases at_u
    · exact h.fits u pc at_u

theorem step_inv {queue_size : Nat} {s t : State Tid n} {a : Act n} (h : Inv program s)
    (taken : step program queue_size s a = some t) : Inv program t := by
  cases step_cases taken with
  | pop idle queue => exact h.pop idle queue
  | run busy at_pc room => exact h.run at_pc
  | co_return busy at_pc => exact h.co_return busy at_pc
  | @sync_wait who u task tasks later busy at_pc ready =>
    have fits := h.fits u _ at_pc
    refine h.goto at_pc ⟨fits.1, ?_⟩ fun c child => ?_
    · refine fits.2.imp (fun no => by simp at no) fun ⟨stage, whole, suffix⟩ => ⟨stage, whole, ?_⟩
      exact (List.suffix_cons task (tasks ++ [])).trans suffix
    · have related := h.family u c child
      rw [at_pc] at related
      refine ⟨related.1, fun some => ?_⟩
      rcases related.2 some with done | mem
      · exact .inl done
      · rcases List.mem_cons.mp mem with rfl | mem
        · exact .inl ready
        · exact .inr mem
  | @parfor who u chunks later busy at_pc =>
    have fits := h.fits u _ at_pc
    refine h.goto at_pc ⟨(List.suffix_cons chunks later).trans fits.1,
      .inr ⟨chunks, fits.1, List.suffix_refl _⟩⟩ fun c child => ?_
    have related := h.family u c child
    rw [at_pc] at related
    exact ⟨related.1.trans (by simp), related.2⟩

theorem reached_inv {queue_size : Nat} {s : State Tid n}
    (reached : Reached (system program queue_size n) s) : Inv program s :=
  reached.invariant (fun _ start => start ▸ initial_inv) fun _ _ _ => step_inv

end Pot.ParforNested
