import Mathlib.Algebra.GroupWithZero.Nat
import Mathlib.Data.Fin.Basic
import Pot.BackPressure
import Pot.SandboxDrain

/-! A full queue is emptied by its threads, so it matters who is refused by it: while another
thread of each queue is outside the retry loop, there is no deadlock. -/
namespace Pot.BackPressure
open Transition
open Sandbox (Call Config)

variable {Sid Kid : Type} {n : Nat}

/-- Of how far a call is, what matters for its retry loop. -/
def stage : Call n → Nat
  | .idle => 0
  | .loadStop _ _ => 1
  | .index _ _ => 2
  | .insert _ _ _ => 3
  | _ => 4

def State.quits (s : State Sid Kid n) : Popper Kid n → Prop
  | .worker i => s.pool.leaves i
  | .thief k => s.pool.thief k = .scan [] ∨ ∃ task, s.pool.thief k = .run task

def actor : Sandbox.Act Sid Kid n → Option (Popper Kid n)
  | .worker i _ => some (.worker i)
  | .thief k => some (.thief k)
  | _ => none

def State.retrying (s : State Sid Kid n) (th : Popper Kid n) : Prop := ∃ idx, s.retries th idx

section
variable [NeZero n]

/-- Some other thread pops from the queue and is outside the retry loop. -/
def State.relieved (cfg : Config) (s : State Sid Kid n) (th : Popper Kid n) (c : Fin n) : Prop :=
  ∃ other, other ≠ th ∧ pops cfg c other ∧ s.able other = true ∧ ¬ s.retrying other

/-- Of each queue of the thread no other thread is left alone in the retry loop. -/
def State.spares (cfg : Config) (s : State Sid Kid n) (th : Popper Kid n) : Prop :=
  ∀ c, pops cfg c th → (∃ stuck, pops cfg c stuck ∧ s.retrying stuck) → s.relieved cfg th c

/-- Who may be refused by a full queue, and who may leave. -/
def ok (cfg : Config) (s : State Sid Kid n) : Act Sid Kid n → Prop
  | .pool (.call sid) =>
    match inserting (s.pool.call sid) with
    | some idx => cfg.pool.container = .lfqueue → s.full idx →
      (∃ i : Fin n, pops cfg idx (.worker i : Popper Kid n) ∧ s.able (.worker i) = true) ∧
        ∀ th, s.current th = some sid → ∀ c, pops cfg c th → s.relieved cfg th c
    | none => True
  | .pool (.worker i _) => s.quits (.worker i) → s.spares cfg (.worker i) ∧
      ∀ sid idx, s.spins sid idx → pops cfg idx (.worker i : Popper Kid n) →
        ∃ j, j ≠ i ∧ pops cfg idx (.worker j : Popper Kid n) ∧ s.able (.worker j) = true
  | .pool (.thief k) => s.quits (.thief k) → s.spares cfg (.thief k)
  | _ => True

/-- What the runs that meet the condition keep. -/
structure Relief (cfg : Config) (s : State Sid Kid n) : Prop where
  relieved : ∀ c, (∃ th, pops cfg c th ∧ s.retrying th) →
    ∃ th, pops cfg c th ∧ s.able th = true ∧ ¬ s.retrying th
  served : ∀ sid idx, s.spins sid idx →
    ∃ i : Fin n, pops cfg idx (.worker i : Popper Kid n) ∧ s.able (.worker i) = true
  refused : ∀ sid, s.refused sid = true → 3 ≤ stage (s.pool.call sid)
  distinct : ∀ th other sid, s.current th = some sid → s.current other = some sid → th = other
  begun : ∀ th sid, s.current th = some sid → 0 < stage (s.pool.call sid)

theorem relief_initial (cfg : Config) : Relief cfg (initial Sid Kid n) where
  relieved := by
    rintro c ⟨th, -, idx, sid, no, -⟩
    cases no
  served := by
    rintro sid idx ⟨-, no⟩
    cases no
  refused _ no := by cases no
  distinct _ _ _ no := by cases no
  begun _ _ no := by cases no

end

theorem ok_spares [NeZero n] {cfg : Config} {s : State Sid Kid n} {a : Sandbox.Act Sid Kid n}
    (allowed : ok cfg s (.pool a)) {th : Popper Kid n} (acts : actor a = some th)
    (quits : s.quits th) : s.spares cfg th := by
  cases a with
  | worker i busy =>
    cases acts
    exact (allowed quits).1
  | thief k =>
    cases acts
    exact allowed quits
  | _ => cases acts

theorem able_worker {s : State Sid Kid n} {i : Fin n} :
    s.able (.worker i) = true ↔ s.pool.worker i ≠ .returned := by
  simp only [State.able]
  split
  · rename_i returned
    simp only [returned, Bool.false_eq_true, ne_eq, not_true_eq_false]
  · rename_i running
    exact iff_of_true rfl fun returned => running returned

theorem able_thief {s : State Sid Kid n} {k : Kid} :
    s.able (.thief k) = true ↔ s.pool.thief k ≠ .idle := by
  simp only [State.able]
  split
  · rename_i idle
    simp only [idle, Bool.false_eq_true, ne_eq, not_true_eq_false]
  · rename_i stealing
    exact iff_of_true rfl fun idle => stealing idle

theorem stage_inserting {p : Call n} {idx : Fin n} (at_loop : inserting p = some idx) :
    stage p = 3 := by
  cases p <;> first | rfl | cases at_loop

@[simp] theorem take_thief (s : Sandbox.State Sid Kid n) (i c : Fin n) (task : Sandbox.Item Sid)
    (rest : List (Sandbox.Item Sid)) (empty : Sandbox.Worker Sid n) :
    (s.take i c task rest empty).thief = s.thief := by
  simp only [Sandbox.State.take]
  split <;> rfl

theorem able_of_running {s : State Sid Kid n} {th : Popper Kid n} (running : s.running th = true) :
    s.able th = true := by
  cases th with
  | worker i =>
    refine able_worker.mpr fun returned => ?_
    simp only [State.running, returned, Bool.false_eq_true] at running
  | thief k =>
    refine able_thief.mpr fun idle => ?_
    simp only [State.running, idle, Bool.false_eq_true] at running

section
variable [DecidableEq Sid]

theorem refuse_cases {cfg : Config} {s : State Sid Kid n} {a : Sandbox.Act Sid Kid n} {sid : Sid}
    (refused : s.refuse cfg a sid = true) : s.refused sid = true ∨
      a = .call sid ∧ ∃ idx, inserting (s.pool.call sid) = some idx ∧
        cfg.pool.container = .lfqueue ∧ s.full idx := by
  cases a with
  | call made =>
    cases at_loop : inserting (s.pool.call made) with
    | none =>
      simp only [State.refuse, at_loop] at refused
      exact .inl refused
    | some idx =>
      simp only [State.refuse, at_loop] at refused
      split at refused
      · rename_i full
        by_cases same : sid = made
        · subst same
          exact .inr ⟨rfl, idx, at_loop, full⟩
        · rw [Function.update_of_ne same] at refused
          exact .inl refused
      · exact .inl refused
  | _ => exact .inl refused

variable [NeZero n]

theorem relief_refused {cfg : Config} {s : State Sid Kid n} {sid : Sid} {idx : Fin n}
    (h : Relief cfg s) (at_loop : inserting (s.pool.call sid) = some idx)
    (served : ∃ i : Fin n, pops cfg idx (.worker i : Popper Kid n) ∧ s.able (.worker i) = true)
    (relieved : ∀ th, s.current th = some sid → ∀ c, pops cfg c th → s.relieved cfg th c) :
    Relief cfg { s with refused := Function.update s.refused sid true } := by
  have spins : ∀ made c,
      State.spins { s with refused := Function.update s.refused sid true } made c →
      s.spins made c ∨ made = sid ∧ c = idx := by
    rintro made c ⟨at_c, again⟩
    by_cases same : made = sid
    · subst same
      exact .inr ⟨rfl, Option.some.inj (at_c.symm.trans at_loop)⟩
    · simp only [Function.update_of_ne same] at again
      exact .inl ⟨at_c, again⟩
  have retrying : ∀ th,
      State.retrying { s with refused := Function.update s.refused sid true } th →
      s.retrying th ∨ s.current th = some sid := by
    rintro th ⟨c, made, mine, in_loop⟩
    rcases spins made c in_loop with before | ⟨rfl, -⟩
    · exact .inl ⟨c, made, mine, before⟩
    · exact .inr mine
  -- the thread whose task is refused has one beside it that is not
  have beside : ∀ th c, pops cfg c th → s.current th = some sid →
      ∃ other, pops cfg c other ∧ s.able other = true ∧
        ¬ State.retrying { s with refused := Function.update s.refused sid true } other := by
    intro th c of_queue mine
    obtain ⟨other, different, of_other, free, outside⟩ := relieved th mine c of_queue
    refine ⟨other, of_other, free, fun stuck => ?_⟩
    rcases retrying other stuck with before | same
    · exact outside before
    · exact different (h.distinct other th sid same mine)
  constructor
  · rintro c ⟨th, of_queue, stuck⟩
    rcases retrying th stuck with before | mine
    · obtain ⟨other, of_other, free, outside⟩ := h.relieved c ⟨th, of_queue, before⟩
      by_cases same : s.current other = some sid
      · exact beside other c of_other same
      · exact ⟨other, of_other, free, fun stuck => (retrying other stuck).elim outside same⟩
    · exact beside th c of_queue mine
  · intro made c in_loop
    rcases spins made c in_loop with before | ⟨-, rfl⟩
    · exact h.served made c before
    · exact served
  · intro made again
    by_cases same : made = sid
    · subst same
      exact Nat.le_of_eq (stage_inserting at_loop).symm
    · simp only [Function.update_of_ne same] at again
      exact h.refused made again
  · exact h.distinct
  · exact h.begun

variable [DecidableEq Kid]

/-- A call goes on from stage to stage; one that is over stays so. -/
theorem call_step {cfg : Config} {s t : Sandbox.State Sid Kid n} {a : Sandbox.Act Sid Kid n}
    (taken : Sandbox.step cfg s a = some t) (sid : Sid) :
    t.call sid = s.call sid ∨ stage (s.call sid) < stage (t.call sid) ∨
      4 ≤ stage (s.call sid) ∧ 4 ≤ stage (t.call sid) := by
  have moved : ∀ {u : Sandbox.State Sid Kid n} {made : Sid} {p : Call n}, u.call = s.call →
      stage (s.call made) < stage p ∨ 4 ≤ stage (s.call made) ∧ 4 ≤ stage p →
      (u.setCall made p).call sid = s.call sid ∨
        stage (s.call sid) < stage ((u.setCall made p).call sid) ∨
        4 ≤ stage (s.call sid) ∧ 4 ≤ stage ((u.setCall made p).call sid) := by
    intro u made p same stages
    by_cases here : sid = made
    · subst here
      simp only [Sandbox.State.setCall, Function.update_self]
      exact .inr stages
    · simp only [Sandbox.State.setCall, Function.update_of_ne here, same]
      exact .inl trivial
  cases Sandbox.step_cases taken with
  | submit at_pc | notifyOne at_pc => exact moved rfl (by rw [at_pc]; simp only [stage]; omega)
  | call step =>
    cases step with
    | full => exact .inl rfl
    | stopped at_pc | global at_pc | round at_pc | index at_pc | divide at_pc | claim at_pc
    | emplace at_pc | publish at_pc | fetchAdd at_pc =>
      exact moved rfl (by rw [at_pc]; simp only [stage]; omega)
  | worker step =>
    refine .inl (congrFun ?_ sid)
    cases step <;> first | rfl | exact (Sandbox.take_keeps ..).1
  | thief step => cases step <;> exact .inl rfl
  | stop step => cases step <;> exact .inl rfl
  | wake | trySteal | shutdown => exact .inl rfl

theorem stage_mono {cfg : Config} {s t : Sandbox.State Sid Kid n} {a : Sandbox.Act Sid Kid n}
    (taken : Sandbox.step cfg s a = some t) (sid : Sid) :
    stage (s.call sid) ≤ stage (t.call sid) := by
  rcases call_step taken sid with same | later | ended
  · rw [same]
  · exact Nat.le_of_lt later
  · have top : stage (s.call sid) ≤ 4 := by cases s.call sid <;> simp only [stage] <;> omega
    omega

theorem step_thief {cfg : Config} {s t : Sandbox.State Sid Kid n} {a : Sandbox.Act Sid Kid n}
    (taken : Sandbox.step cfg s a = some t) (k : Kid) (home : t.thief k = .idle) :
    s.thief k = .idle ∨ a = .thief k ∧ (s.thief k = .scan [] ∨ ∃ task, s.thief k = .run task) := by
  cases Sandbox.step_cases taken with
  | @thief j _ step =>
    by_cases same : k = j
    · subst same
      cases step with
      | nothing at_pc => exact .inr ⟨rfl, .inl at_pc⟩
      | run at_pc | badFunctionCall at_pc => exact .inr ⟨rfl, .inr ⟨_, at_pc⟩⟩
      | skip | steal =>
        simp only [Sandbox.State.setThief, Function.update_self, reduceCtorEq] at home
    · left
      cases step <;> exact (Function.update_of_ne same ..).symm.trans home
  | @trySteal j at_pc =>
    by_cases same : k = j
    · exact .inl (same ▸ at_pc)
    · exact .inl ((Function.update_of_ne same ..).symm.trans home)
  | call step => cases step <;> exact .inl home
  | worker step =>
    left
    cases step with
    | popOwn | steal =>
      rw [take_thief] at home
      exact home
    | _ => exact home
  | stop step => cases step <;> exact .inl home
  | submit | notifyOne | wake | shutdown => exact .inl home

/-- Who pops no more has just left. -/
theorem step_able {cfg : Config} {s t : State Sid Kid n} {a : Sandbox.Act Sid Kid n}
    (taken : Sandbox.step cfg s.pool a = some t.pool) {th : Popper Kid n}
    (able : s.able th = true) : t.able th = true ∨ actor a = some th ∧ s.quits th := by
  cases th with
  | worker i =>
    rw [able_worker] at able ⊢
    rcases Sandbox.step_returned taken with same | ⟨j, busy, rfl, leaves, moved⟩
    · exact .inl fun returned => able ((same i).mp returned)
    · by_cases here : i = j
      · exact .inr ⟨by rw [here]; rfl, here ▸ leaves⟩
      · refine .inl fun returned => able ?_
        rw [moved] at returned
        exact (Function.update_of_ne here ..).symm.trans returned
  | thief k =>
    rw [able_thief] at able ⊢
    by_cases home : t.pool.thief k = .idle
    · obtain ⟨rfl, ends⟩ := (step_thief taken k home).resolve_left able
      exact .inr ⟨rfl, ends⟩
    · exact .inl home

/-- A call enters the retry loop only by being refused. -/
theorem spins_step {cfg : Config} {s t : State Sid Kid n} {a : Sandbox.Act Sid Kid n}
    (h : Relief cfg s) (taken : Sandbox.step cfg s.pool a = some t.pool)
    (refused : t.refused = s.refuse cfg a) {sid : Sid} {idx : Fin n} (spins : t.spins sid idx) :
    s.spins sid idx ∨ a = .call sid ∧ inserting (s.pool.call sid) = some idx ∧
      cfg.pool.container = .lfqueue ∧ s.full idx := by
  obtain ⟨at_loop, again⟩ := spins
  rw [refused] at again
  have now := stage_inserting at_loop
  rcases refuse_cases again with before | ⟨rfl, other, was, lockFree, full⟩
  · have reached := h.refused sid before
    rcases call_step taken sid with same | later | ended
    · exact .inl ⟨same ▸ at_loop, before⟩
    · omega
    · omega
  · have reached := stage_inserting was
    rcases call_step taken sid with same | later | ended
    · have eq : other = idx := Option.some.inj (was.symm.trans (same ▸ at_loop))
      exact .inr ⟨rfl, eq ▸ was, lockFree, eq ▸ full⟩
    · omega
    · omega

theorem relief_submit {cfg : Config} {s : State Sid Kid n} {pool : Sandbox.State Sid Kid n}
    {sid : Sid} {callable : Bool} {runs : Nat} (h : Relief cfg s)
    (taken : Sandbox.step cfg s.pool (.submit sid callable runs) = some pool)
    {current : Popper Kid n → Option Sid}
    (begins : ∀ th made, current th = some made → made = sid ∨ s.current th = some made)
    (distinct : ∀ th other made, current th = some made → current other = some made → th = other) :
    Relief cfg { s with pool := pool, current := current } := by
  have able : ∀ th, s.able th = true →
      State.able { s with pool := pool, current := current } th = true := by
    intro th before
    refine (step_able (t := { s with pool := pool, current := current }) taken before).resolve_right
      ?_
    rintro ⟨no, -⟩
    cases no
  have spins : ∀ made idx, State.spins { s with pool := pool, current := current } made idx →
      s.spins made idx := by
    intro made idx spins
    refine (spins_step (t := { s with pool := pool, current := current }) h taken rfl spins).resolve_right
      ?_
    rintro ⟨no, -⟩
    cases no
  have fresh : stage (s.pool.call sid) = 0 := by
    cases Sandbox.step_cases taken with
    | submit at_pc => rw [at_pc]; rfl
  have retrying : ∀ th, State.retrying { s with pool := pool, current := current } th →
      s.retrying th := by
    rintro th ⟨idx, made, mine, in_loop⟩
    have before := spins made idx in_loop
    rcases begins th made mine with rfl | mine
    · rw [stage_inserting before.1] at fresh
      cases fresh
    · exact ⟨idx, made, mine, before⟩
  constructor
  · rintro c ⟨th, pops, stuck⟩
    obtain ⟨other, pops, free, outside⟩ := h.relieved c ⟨th, pops, retrying th stuck⟩
    exact ⟨other, pops, able other free, fun stuck => outside (retrying other stuck)⟩
  · intro made idx in_loop
    obtain ⟨i, pops, free⟩ := h.served made idx (spins made idx in_loop)
    exact ⟨i, pops, able _ free⟩
  · intro made again
    exact (h.refused made again).trans (stage_mono taken made)
  · exact distinct
  · intro th made mine
    rcases begins th made mine with rfl | mine
    · cases Sandbox.step_cases taken with
      | submit =>
        simp only [Sandbox.State.setCall, Function.update_self]
        exact Nat.one_pos
    · exact Nat.lt_of_lt_of_le (h.begun th made mine) (stage_mono taken made)

theorem refused_step {cfg : Config} {s t : Sandbox.State Sid Kid n} {sid : Sid} {idx : Fin n}
    (at_loop : inserting (s.call sid) = some idx) (lockFree : cfg.pool.container = .lfqueue)
    (full : Lfqueue.capacity ≤ (s.ctx idx).tasks.length)
    (taken : Sandbox.step cfg s (.call sid) = some t) : t = s := by
  cases at_pc : s.call sid with
  | insert c callable runs =>
    rw [at_pc] at at_loop
    cases at_loop
    simp only [Sandbox.step, at_pc, Sandbox.callStep, if_pos lockFree,
      if_neg (Nat.not_lt_of_le full)] at taken
    cases taken
    rfl
  | _ =>
    rw [at_pc] at at_loop
    cases at_loop

/-- Another step of the pool: nobody enters a retry loop, and who leaves is spared. -/
theorem relief_pool {cfg : Config} {s : State Sid Kid n} {pool : Sandbox.State Sid Kid n}
    {a : Sandbox.Act Sid Kid n} (h : Relief cfg s) (allowed : ok cfg s (.pool a))
    (taken : Sandbox.step cfg s.pool a = some pool)
    (accepted : ∀ sid idx, a = .call sid → inserting (s.pool.call sid) = some idx →
      cfg.pool.container = .lfqueue → ¬ s.full idx) :
    Relief cfg { s with pool := pool, refused := s.refuse cfg a } := by
  have spins : ∀ made idx,
      State.spins { s with pool := pool, refused := s.refuse cfg a } made idx →
      s.spins made idx := by
    intro made idx spins
    refine (spins_step (t := { s with pool := pool, refused := s.refuse cfg a }) h taken rfl
      spins).resolve_right ?_
    rintro ⟨rfl, at_loop, lockFree, full⟩
    exact accepted made idx rfl at_loop lockFree full
  have retrying : ∀ th, State.retrying { s with pool := pool, refused := s.refuse cfg a } th →
      s.retrying th :=
    fun th ⟨idx, made, mine, in_loop⟩ => ⟨idx, made, mine, spins made idx in_loop⟩
  -- of two threads only one quits
  have keeps : ∀ th other, actor a = some th → other ≠ th → s.able other = true →
      State.able { s with pool := pool, refused := s.refuse cfg a } other = true := by
    intro th other acts different able
    refine (step_able (t := { s with pool := pool, refused := s.refuse cfg a }) taken
      able).resolve_right ?_
    rintro ⟨same, -⟩
    exact different (Option.some.inj (same.symm.trans acts))
  constructor
  · rintro c ⟨th, of_queue, stuck⟩
    obtain ⟨other, of_other, free, outside⟩ := h.relieved c ⟨th, of_queue, retrying th stuck⟩
    rcases step_able (t := { s with pool := pool, refused := s.refuse cfg a }) taken free with
      still | ⟨acts, quits⟩
    · exact ⟨other, of_other, still, fun stuck => outside (retrying other stuck)⟩
    · obtain ⟨next, different, of_next, free, outside⟩ :=
        ok_spares allowed acts quits c of_other ⟨th, of_queue, retrying th stuck⟩
      exact ⟨next, of_next, keeps other next acts different free,
        fun stuck => outside (retrying next stuck)⟩
  · intro made idx in_loop
    obtain ⟨i, of_queue, free⟩ := h.served made idx (spins made idx in_loop)
    rcases step_able (t := { s with pool := pool, refused := s.refuse cfg a }) taken free with
      still | ⟨acts, quits⟩
    · exact ⟨i, of_queue, still⟩
    · cases a with
      | worker j busy =>
        cases acts
        obtain ⟨next, different, of_next, free⟩ := (allowed quits).2 made idx
          (spins made idx in_loop) of_queue
        refine ⟨next, of_next, keeps _ _ rfl (fun same => different ?_) free⟩
        exact Popper.worker.inj same
      | _ => cases acts
  · intro made again
    rcases refuse_cases again with before | ⟨rfl, idx, at_loop, lockFree, full⟩
    · exact (h.refused made before).trans (stage_mono taken made)
    · exact absurd full (accepted made idx rfl at_loop lockFree)
  · exact h.distinct
  · intro th made mine
    exact Nat.lt_of_lt_of_le (h.begun th made mine) (stage_mono taken made)

theorem relief_step {cfg : Config} {s t : State Sid Kid n} {a : Act Sid Kid n} (h : Relief cfg s)
    (allowed : ok cfg s a) (taken : step cfg s a = some t) : Relief cfg t := by
  cases a with
  | execute th sid callable runs =>
    cases th with
    | none =>
      simp only [step] at taken
      split at taken <;> cases taken
      exact relief_submit h ‹_› (fun th made => .inr) h.distinct
    | some th =>
      simp only [step] at taken
      split at taken
      · split at taken <;> cases taken
        rename_i submitted
        have fresh : stage (s.pool.call sid) = 0 := by
          cases Sandbox.step_cases submitted with
          | submit at_pc => rw [at_pc]; rfl
        have unknown : ∀ other, s.current other ≠ some sid := fun other mine => by
          have begun := h.begun other sid mine
          rw [fresh] at begun
          exact Nat.lt_irrefl 0 begun
        refine relief_submit h submitted (fun u made mine => ?_) fun u v made of_u of_v => ?_
        · by_cases same : u = th
          · subst same
            rw [Function.update_self] at mine
            exact .inl (Option.some.inj mine).symm
          · rw [Function.update_of_ne same] at mine
            exact .inr mine
        · simp only [Function.update_apply] at of_u of_v
          split at of_u <;> split at of_v
          · exact ‹u = th›.trans ‹v = th›.symm
          · cases of_u
            exact absurd of_v (unknown v)
          · cases of_v
            exact absurd of_u (unknown u)
          · exact h.distinct u v made of_u of_v
      · cases taken
  | pool a =>
    simp only [step] at taken
    split at taken
    · split at taken <;> cases taken
      rename_i pool moved
      by_cases accepted : ∀ sid idx, a = .call sid → inserting (s.pool.call sid) = some idx →
          cfg.pool.container = .lfqueue → ¬ s.full idx
      · exact relief_pool h allowed moved accepted
      · push Not at accepted
        obtain ⟨sid, idx, rfl, at_loop, lockFree, full⟩ := accepted
        have still := refused_step at_loop lockFree full moved
        subst still
        have refused : s.refuse cfg (.call sid) = Function.update s.refused sid true := by
          simp only [State.refuse, at_loop]
          exact if_pos ⟨lockFree, full⟩
        simp only [ok, at_loop] at allowed
        obtain ⟨served, relieved⟩ := allowed lockFree full
        rw [refused]
        exact relief_refused h at_loop served relieved
    · cases taken

theorem reached_relief {cfg : Config} {s : State Sid Kid n}
    (reached : ReachedUnder (system cfg Sid Kid n) (ok cfg) s) : Relief cfg s :=
  ReachedUnder.invariant (I := Relief cfg) (fun _ start => start ▸ relief_initial cfg)
    (fun _ _ _ h allowed taken => relief_step h allowed taken) reached

/-- No queue is left to threads that are themselves in the retry loop of a full queue, and no call
retries on a full queue whose workers have all returned. -/
theorem back_pressure_resolves {cfg : Config} {s : State Sid Kid n}
    (reached : ReachedUnder (system cfg Sid Kid n) (ok cfg) s) :
    ¬ s.Deadlocked cfg ∧ ¬ s.Stranded cfg := by
  have h := reached_relief reached
  constructor
  · rintro ⟨c, ⟨th, of_queue, able⟩, all⟩
    obtain ⟨idx, stuck, -⟩ := all th of_queue able
    obtain ⟨other, of_other, free, outside⟩ := h.relieved c ⟨th, of_queue, idx, stuck⟩
    obtain ⟨idx, stuck, -⟩ := all other of_other free
    exact outside ⟨idx, stuck⟩
  · rintro ⟨sid, idx, in_loop, -, gone⟩
    obtain ⟨i, of_queue, able⟩ := h.served sid idx in_loop
    rw [gone i of_queue] at able
    cases able

end

/-- Room in the queues and no shutdown: nobody is refused and nobody leaves. -/
theorem ok_of_room [NeZero n] [IsEmpty Kid] (cfg : Config) {s : State Sid Kid n}
    (room : ∀ idx, ¬ s.full idx) (running : ∀ i, s.pool.stop_requested i = false)
    (a : Act Sid Kid n) : ok cfg s a := by
  cases a with
  | execute th sid callable runs => trivial
  | pool a =>
    cases a with
    | call sid =>
      simp only [ok]
      split
      · exact fun _ full => absurd full (room _)
      · trivial
    | worker i busy =>
      intro leaves
      rw [State.quits, Sandbox.State.leaves, running] at leaves
      cases leaves.1
    | thief k => exact isEmptyElim k
    | _ => trivial

def lfgq : Config := ⟨.lfgq, "pool"⟩

def nested : List (Act Bool Empty 3) :=
  (.execute none false true 0 :: List.replicate 3 (.pool (.call false))) ++
  List.replicate 3 (.pool (.worker 0 false)) ++
  (.execute (some (.worker 0)) true true 0 :: List.replicate 2 (.pool (.call true)))

def nestedState : State Bool Empty 3 :=
  (replay (system lfgq Bool Empty 3) (initial Bool Empty 3) nested).get (by decide)

theorem back_pressure_resolves_nested :
    (nestedState.pool.ctx 0).tasks.length = 1 ∧ ¬ nestedState.Deadlocked lfgq ∧
      ¬ nestedState.Stranded lfgq := by
  have roomy : ReachedUnder (system lfgq Bool Empty 3)
      (fun s _ => (∀ idx, ¬ s.full idx) ∧ ∀ i, s.pool.stop_requested i = false) nestedState :=
    .replay (.start rfl) nested (by decide) (Option.some_get _).symm
  exact ⟨by decide, back_pressure_resolves
    (roomy.mono fun s a h => ok_of_room lfgq h.1 h.2 a)⟩

structure Filled (k : Nat) (s : State Nat Empty 1) : Prop where
  free : s.free (.worker 0) = true
  unstopped : s.pool.m_stop = false
  running : s.running (.worker 0) = true
  tasks : (s.pool.ctx 0).tasks.length = k
  later : ∀ sid, k < sid → s.pool.call sid = .idle

structure Submitting (sid queued : Nat) (p : Call 1) (s : State Nat Empty 1) : Prop where
  current : s.current (.worker 0) = some sid
  at_pc : s.pool.call sid = p
  unstopped : s.pool.m_stop = false
  running : s.running (.worker 0) = true
  tasks : (s.pool.ctx 0).tasks.length = queued
  later : ∀ other, sid < other → s.pool.call other = .idle

theorem Submitting.call {sid queued queued' : Nat} {p : Call 1} {s : State Nat Empty 1}
    (h : Submitting sid queued p s) (reached : Reached (system lfgq Nat Empty 1) s)
    {pool : Sandbox.State Nat Empty 1} (p' : Call 1)
    (taken : Sandbox.callStep lfgq s.pool sid p = some pool)
    (call : pool.call = Function.update s.pool.call sid p') (stop : pool.m_stop = s.pool.m_stop)
    (worker : pool.worker = s.pool.worker) (tasks : (pool.ctx 0).tasks.length = queued') :
    ∃ t, Reached (system lfgq Nat Empty 1) t ∧ Submitting sid queued' p' t := by
  have step : step lfgq s (.pool (.call sid)) =
      some { s with pool := pool, refused := s.refuse lfgq (.call sid) } := by
    simp only [BackPressure.step, State.allows, Sandbox.step, h.at_pc, taken, if_true]
  refine ⟨_, reached.next (a := .pool (.call sid)) step,
    ⟨h.current, ?_, stop.trans h.unstopped, ?_, tasks, ?_⟩⟩
  · simp only [call, Function.update_self]
  · have running := h.running
    simp only [State.running, worker] at running ⊢
    exact running
  · intro other later
    simp only [call, Function.update_of_ne (Nat.ne_of_gt later)]
    exact h.later other later

theorem Filled.execute {k : Nat} {s : State Nat Empty 1} (h : Filled k s)
    (reached : Reached (system lfgq Nat Empty 1) s) : ∃ t, Reached (system lfgq Nat Empty 1) t ∧
      Submitting (k + 1) k (.insert 0 true 0) t := by
  have idle := h.later (k + 1) (Nat.lt_succ_self k)
  have step : step lfgq s (.execute (some (.worker 0)) (k + 1) true 0) =
      some { s with pool := s.pool.setCall (k + 1) (.loadStop true 0),
                    current := Function.update s.current (.worker 0) (some (k + 1)) } := by
    simp only [BackPressure.step, h.running, h.free, Bool.and_self, if_true, Sandbox.step, idle]
  have loads : Submitting (k + 1) k (.loadStop true 0)
      { s with pool := s.pool.setCall (k + 1) (.loadStop true 0),
               current := Function.update s.current (.worker 0) (some (k + 1)) } := by
    refine ⟨?_, Function.update_self .., h.unstopped, h.running, h.tasks, fun other later => ?_⟩
    · simp only [Function.update_self]
    · exact (Function.update_of_ne (Nat.ne_of_gt later) ..).trans
        (h.later other (Nat.lt_of_succ_lt later))
  have open_still : Sandbox.callStep lfgq (s.pool.setCall (k + 1) (.loadStop true 0)) (k + 1)
      (.loadStop true 0) =
      some ((s.pool.setCall (k + 1) (.loadStop true 0)).setCall (k + 1) (.insert 0 true 0)) := by
    simp only [Sandbox.callStep, Sandbox.State.setCall, h.unstopped]
    rfl
  exact loads.call (reached.next (a := .execute (some (.worker 0)) (k + 1) true 0) step) _
    open_still rfl rfl rfl h.tasks

theorem Filled.next {k : Nat} {s : State Nat Empty 1} (h : Filled k s)
    (reached : Reached (system lfgq Nat Empty 1) s) (room : k < Lfqueue.capacity) :
    ∃ t, Reached (system lfgq Nat Empty 1) t ∧ Filled (k + 1) t := by
  obtain ⟨s, reached, h⟩ := h.execute reached
  have claimed : Sandbox.callStep lfgq s.pool (k + 1) (.insert 0 true 0) = some
      ((Sandbox.insert lfgq s.pool (k + 1) 0 true 0).setCall (k + 1) (.publish 0)) := by
    have roomy : (s.pool.ctx 0).tasks.length < Lfqueue.capacity := h.tasks ▸ room
    simp only [Sandbox.callStep, if_pos roomy]
    rfl
  have longer : ((Sandbox.insert lfgq s.pool (k + 1) 0 true 0).ctx 0).tasks.length = k + 1 := by
    simp only [Sandbox.insert, Function.update_self]
    exact (List.length_append ..).trans (congrArg (· + 1) h.tasks)
  obtain ⟨s, reached, h⟩ := h.call reached (.publish 0) claimed rfl rfl rfl longer
  have published : ((s.pool.setTasks 0
      (Sandbox.publish (s.pool.ctx 0).tasks (k + 1))).ctx 0).tasks.length = k + 1 := by
    rw [Sandbox.setTasks_tasks, Sandbox.publish, List.length_map]
    exact h.tasks
  obtain ⟨s, reached, h⟩ := h.call reached (.fetchAdd 0) rfl rfl rfl rfl published
  have counted : ((s.pool.advance 0 1).ctx 0).tasks.length = k + 1 := by
    rw [Sandbox.advance_tasks]
    exact h.tasks
  obtain ⟨s, reached, h⟩ := h.call reached (.notify 0) rfl rfl rfl rfl counted
  have awake : ∀ i, ¬ s.pool.eligible lfgq 0 i := by
    rintro i ⟨-, v, blocked, -⟩
    have running := h.running
    cases Fin.fin_one_eq_zero i
    simp only [State.running, blocked] at running
    cases running
  have step : step lfgq s (.pool (.notifyOne (k + 1) fun _ => false)) =
      some { s with pool := (s.pool.notify lfgq 0 fun _ => false).setCall (k + 1) .returned } := by
    simp only [BackPressure.step, State.allows, if_true, Sandbox.step, h.at_pc]
    rw [if_pos (.inr awake)]
    rfl
  refine ⟨_, reached.next (a := .pool (.notifyOne (k + 1) fun _ => false)) step,
    ⟨?_, h.unstopped, ?_, h.tasks, fun other later => ?_⟩⟩
  · simp only [State.free, h.current, Sandbox.State.setCall, Function.update_self]
    rfl
  · exact h.running
  · exact (Function.update_of_ne (Nat.ne_of_gt later) ..).trans (h.later other later)

def taken : List (Act Nat Empty 1) :=
  (.execute none 0 true 0 :: List.replicate 3 (.pool (.call 0))) ++
  List.replicate 3 (.pool (.worker (Fin.last 0) false))

theorem filled (k : Nat) (fits : k ≤ Lfqueue.capacity) :
    ∃ s, Reached (system lfgq Nat Empty 1) s ∧ Filled k s := by
  induction k with
  | zero =>
    refine ⟨(replay (system lfgq Nat Empty 1) (initial Nat Empty 1) taken).get (by decide),
      .replay (.start rfl) taken (Option.some_get _).symm, ⟨rfl, rfl, rfl, rfl, ?_⟩⟩
    intro sid later
    cases sid with
    | zero => exact absurd later (Nat.lt_irrefl 0)
    | succ sid => rfl
  | succ k ih =>
    obtain ⟨s, reached, h⟩ := ih (Nat.le_of_succ_le fits)
    exact h.next reached fits

/-- The worker's own task finds the queue full that only the worker empties. -/
theorem lfgq_deadlocks :
    ¬ ∀ s, Reached (system lfgq Nat Empty 1) s → ¬ s.Deadlocked lfgq ∧ ¬ s.Stranded lfgq := by
  intro resolves
  obtain ⟨s, reached, h⟩ := filled Lfqueue.capacity (Nat.le_refl _)
  obtain ⟨s, reached, h⟩ := h.execute reached
  have full : s.full 0 := Nat.le_of_eq h.tasks.symm
  have step : step lfgq s (.pool (.call (Lfqueue.capacity + 1))) =
      some { s with refused := Function.update s.refused (Lfqueue.capacity + 1) true } := by
    have refuses : Sandbox.callStep lfgq s.pool (Lfqueue.capacity + 1) (.insert 0 true 0) =
        some s.pool := by
      have roomless : ¬ (s.pool.ctx 0).tasks.length < Lfqueue.capacity := Nat.not_lt_of_le full
      simp only [Sandbox.callStep, if_neg roomless]
      rfl
    have flagged : s.refuse lfgq (.call (Lfqueue.capacity + 1)) =
        Function.update s.refused (Lfqueue.capacity + 1) true := by
      simp only [State.refuse, h.at_pc, inserting]
      exact if_pos ⟨rfl, full⟩
    simp only [BackPressure.step, State.allows, if_true, Sandbox.step, h.at_pc, refuses, flagged]
  refine (resolves _ (reached.next (a := .pool (.call (Lfqueue.capacity + 1))) step)).1
    ⟨0, ⟨.worker 0, .inl rfl, ?_⟩, fun th _ _ => ?_⟩
  · exact able_of_running h.running
  · cases th with
    | worker i =>
      cases Fin.fin_one_eq_zero i
      refine ⟨0, ⟨Lfqueue.capacity + 1, h.current, ?_, ?_⟩, full⟩
      · rw [h.at_pc]
        rfl
      · simp only [Function.update_self]
    | thief k => cases k

end Pot.BackPressure
