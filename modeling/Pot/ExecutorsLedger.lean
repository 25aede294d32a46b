import Pot.ExecutorsSteps
import Pot.Tally

/-! What becomes of the functions that derived_execute accepts: each is queued, in the hands of
one worker_loop, or has been executed or, when it is empty, skipped once. -/
namespace Pot.Executors
open Transition

variable {cls : ThreadClass} {Sid Kid : Type} {n : Nat}

/-- The function a worker_loop has taken and not finished. -/
def Loop.item : Loop Sid → Option (Item Sid)
  | .unlock task => task
  | .run task => some task
  | _ => none

/-- Of a call that has enqueued its function: whether this is callable. -/
def Call.accepted : Call → Option Bool
  | .unlock callable | .notifyOne callable | .returned callable => some callable
  | _ => none

@[simp] theorem unblock_item (p : Loop Sid) : p.unblock.item = p.item := by cases p <;> rfl

section Places
variable [DecidableEq Sid]

def Item.counts (sid : Sid) (x : Item Sid) : Nat := if x.call = sid then 1 else 0

def Loop.holds (sid : Sid) (p : Loop Sid) : Nat := p.item.elim 0 (Item.counts sid)

def State.outside (s : State cls Sid Kid n) (sid : Sid) : Nat :=
  (s.m_tasks.map (Item.counts sid)).sum + s.executed.count sid + s.skipped.count sid

structure Ledger (s : State cls Sid Kid n) : Prop where
  place : ∀ sid, Tally.total (Loop.holds sid) s.loop + s.outside sid =
    (s.call sid).accepted.isSome.toNat
  queued : ∀ x ∈ s.m_tasks, (s.call x.call).accepted = some x.callable
  held : ∀ i x, (s.loop i).item = some x → (s.call x.call).accepted = some x.callable
  runs : ∀ i x, s.loop i = .run x → x.callable = true
  executed : ∀ sid ∈ s.executed, (s.call sid).accepted = some true
  skipped : ∀ sid ∈ s.skipped, (s.call sid).accepted = some false

variable {s t : State cls Sid Kid n}

theorem Ledger.move (h : Ledger s) {i : Fin n} {p : Loop Sid}
    (loop : t.loop = Function.update s.loop i p) (call : t.call = s.call)
    (place : ∀ sid, p.holds sid + t.outside sid = (s.loop i).holds sid + s.outside sid)
    (held : ∀ x, p.item = some x → (s.call x.call).accepted = some x.callable)
    (runs : ∀ x, p = .run x → x.callable = true)
    (queued : ∀ x ∈ t.m_tasks, x ∈ s.m_tasks)
    (executed : ∀ sid ∈ t.executed, (s.call sid).accepted = some true)
    (skipped : ∀ sid ∈ t.skipped, (s.call sid).accepted = some false) : Ledger t := by
  refine ⟨fun sid => ?_, fun x hx => ?_, fun j x hx => ?_, fun j x hx => ?_, fun sid hs => ?_,
    fun sid hs => ?_⟩
  · have before := h.place sid
    have moved := Tally.total_update (Loop.holds sid) s.loop i p
    have place := place sid
    rw [loop, call]
    omega
  · rw [call]
    exact h.queued x (queued x hx)
  · rw [loop, Function.update_apply] at hx
    rw [call]
    split at hx
    · exact held x hx
    · exact h.held j x hx
  · rw [loop, Function.update_apply] at hx
    split at hx
    · exact runs x hx
    · exact h.runs j x hx
  · rw [call]
    exact executed sid hs
  · rw [call]
    exact skipped sid hs

theorem Ledger.walk (h : Ledger s) {i : Fin n} {p : Loop Sid}
    (loop : t.loop = Function.update s.loop i p) (item : p.item = (s.loop i).item)
    (runs : ∀ x, p = .run x → x.callable = true)
    (same : t.call = s.call ∧ t.m_tasks = s.m_tasks ∧ t.executed = s.executed ∧
      t.skipped = s.skipped) : Ledger t := by
  obtain ⟨call, tasks, executed, skipped⟩ := same
  refine h.move loop call (fun sid => ?_) (fun x hx => h.held i x (item ▸ hx)) runs (fun x => tasks ▸ id)
    (executed ▸ h.executed) (skipped ▸ h.skipped)
  simp only [Loop.holds, item, State.outside, tasks, executed, skipped]

theorem Ledger.setCall (h : Ledger s) {sid : Sid} {p : Call}
    (call : t.call = Function.update s.call sid p) (accepted : p.accepted = (s.call sid).accepted)
    (same : t.loop = s.loop ∧ t.m_tasks = s.m_tasks ∧ t.executed = s.executed ∧
      t.skipped = s.skipped) : Ledger t := by
  obtain ⟨loop, tasks, executed, skipped⟩ := same
  have kept : ∀ d, (t.call d).accepted = (s.call d).accepted := fun d => by
    rw [call, Function.update_apply]
    split
    · rw [‹d = sid›, accepted]
    · rfl
  refine ⟨fun d => ?_, fun x hx => ?_, fun j x hx => ?_, fun j x hx => h.runs j x (loop ▸ hx),
    fun d hd => ?_, fun d hd => ?_⟩
  · rw [kept, loop, ← h.place d]
    simp only [State.outside, tasks, executed, skipped]
  · exact (kept _).trans (h.queued x (tasks ▸ hx))
  · exact (kept _).trans (h.held j x (loop ▸ hx))
  · exact (kept d).trans (h.executed d (executed ▸ hd))
  · exact (kept d).trans (h.skipped d (skipped ▸ hd))

theorem Ledger.emplace (h : Ledger s) {sid : Sid} {callable : Bool}
    (fresh : (s.call sid).accepted = none) {p : Call} (accepted : p.accepted = some callable)
    (call : t.call = Function.update s.call sid p)
    (tasks : t.m_tasks = s.m_tasks ++ [Item.mk sid callable])
    (same : t.loop = s.loop ∧ t.executed = s.executed ∧ t.skipped = s.skipped) : Ledger t := by
  obtain ⟨loop, executed, skipped⟩ := same
  have kept : ∀ {d b}, (s.call d).accepted = some b → (t.call d).accepted = some b := by
    intro d b before
    have other : d ≠ sid := fun eq => by
      rw [eq, fresh] at before
      cases before
    rw [call, Function.update_of_ne other, before]
  refine ⟨fun d => ?_, fun x hx => ?_, fun j x hx => ?_, fun j x hx => h.runs j x (loop ▸ hx),
    fun d hd => ?_, fun d hd => ?_⟩
  · have before := h.place d
    have added : t.outside d = s.outside d + if sid = d then 1 else 0 := by
      simp only [State.outside, tasks, executed, skipped, List.map_append, List.sum_append,
        List.map_cons, List.map_nil, List.sum_cons, List.sum_nil, Item.counts]
      omega
    have grown : (t.call d).accepted.isSome.toNat =
        (s.call d).accepted.isSome.toNat + if sid = d then 1 else 0 := by
      rw [call, Function.update_apply]
      by_cases eq : sid = d
      · rw [if_pos eq.symm, if_pos eq, ← eq, fresh, accepted]
        rfl
      · rw [if_neg (Ne.symm eq), if_neg eq]
        rfl
    rw [loop, added, grown]
    omega
  · rw [tasks] at hx
    rcases List.mem_append.mp hx with old | new
    · exact kept (h.queued x old)
    · rw [List.mem_singleton.mp new, call, Function.update_self, accepted]
  · exact kept (h.held j x (loop ▸ hx))
  · exact kept (h.executed d (executed ▸ hd))
  · exact kept (h.skipped d (skipped ▸ hd))

theorem loop_ledger {cfg : Config} {s t : State cfg.cls Sid Kid n} {i : Fin n} (h : Ledger s)
    (step : LoopSteps cfg s i t) : Ledger t := by
  cases step with
  | acquire at_pc =>
    rcases at_pc with at_pc | at_pc
    · exact h.walk rfl (by rw [at_pc]; rfl) (by simp) ⟨rfl, rfl, rfl, rfl⟩
    · exact h.walk rfl (by rw [at_pc]; rfl) (by simp) ⟨rfl, rfl, rfl, rfl⟩
  | holds at_pc | fails at_pc | block at_pc | drained at_pc | again at_pc | leave at_pc =>
    exact h.walk rfl (by rw [at_pc]; rfl) (by simp) ⟨rfl, rfl, rfl, rfl⟩
  | start at_pc callable =>
    exact h.walk rfl (by rw [at_pc]; rfl) (fun x eq => by cases eq; exact callable)
      ⟨rfl, rfl, rfl, rfl⟩
  | nothing at_pc =>
    refine h.walk rfl ?_ (fun x => ?_) ⟨rfl, rfl, rfl, rfl⟩
    · rw [at_pc]
      split <;> rfl
    · split <;> simp
  | take at_pc tasks =>
    refine h.move rfl rfl (fun sid => ?_) (fun x hx => ?_) (by simp) (fun x hx => ?_) h.executed
      h.skipped
    · simp only [Loop.holds, Loop.item, at_pc, Option.elim, State.outside, State.goto, tasks,
        List.map_cons, List.sum_cons]
      omega
    · cases hx
      exact h.queued _ (by rw [tasks]; exact List.mem_cons_self)
    · exact tasks ▸ List.mem_cons_of_mem _ hx
  | @skip task at_pc empty =>
    have mine := h.held i task (by rw [at_pc]; rfl)
    refine h.move rfl rfl (fun sid => ?_) (fun x hx => by cases hx) (by simp) (fun x => id)
      h.executed (fun sid hs => ?_)
    · simp only [Loop.holds, Loop.item, at_pc, Option.elim, State.outside, State.goto,
        Tally.count_push, Item.counts]
      omega
    · rcases List.mem_append.mp hs with old | new
      · exact h.skipped sid old
      · rw [List.mem_singleton.mp new, mine, empty]
  | @finish task at_pc =>
    have mine := h.held i task (by rw [at_pc]; rfl)
    refine h.move rfl rfl (fun sid => ?_) (fun x hx => by cases hx) (by simp) (fun x => id)
      (fun sid hs => ?_) h.skipped
    · simp only [Loop.holds, Loop.item, at_pc, Option.elim, State.outside, State.goto,
        Tally.count_push, Item.counts]
      omega
    · rcases List.mem_append.mp hs with old | new
      · exact h.executed sid old
      · rw [List.mem_singleton.mp new, mine, h.runs i task at_pc]

variable [DecidableEq Kid]

theorem step_ledger {cfg : Config} {s t : State cfg.cls Sid Kid n} {a : Act Sid Kid n}
    (resting : ∀ i, cfg.cls.running (s.thread i) = false ∨ s.loop i = .returned →
      (s.loop i).item = none) (h : Ledger s) (taken : step cfg s a = some t) : Ledger t := by
  cases step_cases taken with
  | loop _ step => exact loop_ledger h step
  | enter free => exact h.walk rfl (resting _ free).symm (by simp) ⟨rfl, rfl, rfl, rfl⟩
  | wakeLoop blocked => exact h.walk rfl (by rw [blocked]; rfl) (by simp) ⟨rfl, rfl, rfl, rfl⟩
  | @notifyOne _ i callable at_pc blocked =>
    have woken : Ledger (s.goto i .relock) :=
      h.walk rfl (by rw [blocked]; rfl) (by simp) ⟨rfl, rfl, rfl, rfl⟩
    exact woken.setCall rfl (by rw [State.goto, at_pc]; rfl) ⟨rfl, rfl, rfl, rfl⟩
  | emplace at_pc => exact h.emplace (by rw [at_pc]; rfl) rfl rfl rfl ⟨rfl, rfl, rfl⟩
  | execute at_pc | lock at_pc | refuse at_pc | accept at_pc | unlock at_pc | throw at_pc
  | notifyNone at_pc => exact h.setCall rfl (by rw [at_pc]; rfl) ⟨rfl, rfl, rfl, rfl⟩
  | notifyAll =>
    refine ⟨fun sid => ?_, h.queued, fun i x hx => ?_, fun i x hx => ?_, h.executed, h.skipped⟩
    · have same : Tally.total (Loop.holds sid) (fun i => (s.loop i).unblock) =
          Tally.total (Loop.holds sid) s.loop := by
        apply Tally.total_congr
        intro i
        simp only [Loop.holds, unblock_item]
      exact (congrArg (· + s.outside sid) same).trans (h.place sid)
    · exact h.held i x ((unblock_item _).symm.trans hx)
    · refine h.runs i x ?_
      cases hi : s.loop i <;> simp [State.setShutdown, hi, Loop.unblock] at hx
      rw [hx]
  | _ => exact ⟨h.place, h.queued, h.held, h.runs, h.executed, h.skipped⟩

end Places

end Pot.Executors
