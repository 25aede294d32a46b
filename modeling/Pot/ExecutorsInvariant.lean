import Pot.ExecutorsSteps
import Pot.Mutex
import Pot.Tally

/-! What m_mutex keeps true of a pool: m_stop closes m_tasks for good, a worker_loop ends on an
empty queue only, and every accepted function is in one place. -/
namespace Pot.Executors
open Transition

variable {cls : ThreadClass} {Sid Kid : Type} {n : Nat}

def Loop.locked : Loop Sid → Bool
  | .predicate | .block | .take | .unlock _ | .leave => true
  | _ => false

def Call.locked : Call → Bool
  | .check _ | .emplace _ | .unlock _ | .unlockThrow => true
  | _ => false

def Shutdown.locked : Shutdown → Bool
  | .check | .set | .unlock | .unlockReturn => true
  | _ => false

def State.inside (s : State cls Sid Kid n) : Owner Sid Kid n → Bool
  | .worker i => (s.loop i).locked
  | .call sid => (s.call sid).locked
  | .shutdown k => (s.shutdown k).locked

def Exclusive (s : State cls Sid Kid n) : Prop := Mutex.Guards s.m_mutex s.inside

theorem inside_goto (s : State cls Sid Kid n) (i : Fin n) (p : Loop Sid) :
    (s.goto i p).inside (.worker i) = p.locked ∧
      ∀ o, o ≠ .worker i → (s.goto i p).inside o = s.inside o := by
  constructor
  · simp [State.inside, State.goto]
  · rintro (j | sid | k) other
    · have different : j ≠ i := fun same => other (same ▸ rfl)
      simp [State.inside, State.goto, different]
    · rfl
    · rfl

theorem Exclusive.goto {s : State cls Sid Kid n} (h : Exclusive s) (i : Fin n) {p : Loop Sid}
    (stays : p.locked = true → (s.loop i).locked = true) : Exclusive (s.goto i p) :=
  Mutex.Guards.move h (inside_goto s i p).2 fun entered => stays ((inside_goto s i p).1 ▸ entered)

@[simp] theorem unblock_locked (p : Loop Sid) : p.unblock.locked = p.locked := by cases p <;> rfl

theorem loop_exclusive {cfg : Config} {s t : State cfg.cls Sid Kid n} {i : Fin n} (h : Exclusive s)
    (step : LoopSteps cfg s i t) : Exclusive t := by
  cases step with
  | acquire _ free => exact Mutex.Guards.acquire (free ▸ h) (inside_goto s _ _).2
  | holds at_pc | fails at_pc | drained at_pc | nothing at_pc =>
    exact h.goto i (by simp [at_pc, Loop.locked])
  | take at_pc | finish at_pc =>
    exact Mutex.Guards.move h (inside_goto s _ _).2
      (by simp [State.inside, State.goto, at_pc, Loop.locked])
  | block at_pc | start at_pc | skip at_pc | again at_pc | leave at_pc =>
    exact Mutex.Guards.release h (by simp [State.inside, at_pc, Loop.locked]) (inside_goto s _ _).2
      (inside_goto s _ _).1

/-- What a worker_loop knows of m_stop and m_tasks where it stands. -/
def Justified (s : State cls Sid Kid n) : Loop Sid → Prop
  | .take => s.m_stop = true ∨ s.m_tasks ≠ []
  | .unlock none | .undefined => False
  | .leave | .returned => s.m_stop = true ∧ s.m_tasks = []
  | _ => True

def Shutdown.past : Shutdown → Bool
  | .unlock | .notifyAll | .join _ | .returned => true
  | _ => false

structure Guarded (s : State cls Sid Kid n) : Prop where
  opened : ∀ sid callable, s.call sid = .emplace callable → s.m_stop = false
  stopped : ∀ k, (s.shutdown k).past = true → s.m_stop = true
  loops : ∀ i, Justified s (s.loop i)

theorem Justified.mono {s t : State cls Sid Kid n} {p : Loop Sid} (h : Justified s p)
    (stop : s.m_stop = true → t.m_stop = true) (tasks : t.m_tasks = s.m_tasks) : Justified t p := by
  cases p with
  | take => exact h.imp stop fun some => tasks ▸ some
  | leave | returned => exact ⟨stop h.1, tasks ▸ h.2⟩
  | unlock task => cases task <;> exact h
  | undefined => exact h
  | _ => trivial

theorem Justified.unblock {s t : State cls Sid Kid n} {p : Loop Sid} (h : Justified s p)
    (stop : s.m_stop = true → t.m_stop = true) (tasks : t.m_tasks = s.m_tasks) :
    Justified t p.unblock := by
  cases p with
  | blocked => trivial
  | _ => exact h.mono stop tasks

/-- As long as m_stop is not set, nobody has left. -/
theorem Justified.emplace {s t : State cls Sid Kid n} {p : Loop Sid} (h : Justified s p)
    (stop : s.m_stop = false) (some : t.m_tasks ≠ []) : Justified t p := by
  cases p with
  | take => exact .inr some
  | leave | returned => cases stop.symm.trans h.1
  | unlock task => cases task <;> exact h
  | undefined => exact h
  | _ => trivial

theorem Guarded.move {s t : State cls Sid Kid n} (h : Guarded s) {i : Fin n} {p : Loop Sid}
    (loop : t.loop = Function.update s.loop i p) (mine : Justified s p)
    (same : t.m_stop = s.m_stop ∧ t.m_tasks = s.m_tasks ∧ t.call = s.call ∧ t.shutdown = s.shutdown) :
    Guarded t := by
  obtain ⟨stop, tasks, call, shutdown⟩ := same
  refine ⟨fun sid callable at_pc => ?_, fun k past => ?_, fun j => ?_⟩
  · rw [stop]
    exact h.opened sid callable (call ▸ at_pc)
  · rw [stop]
    exact h.stopped k (shutdown ▸ past)
  · rw [loop, Function.update_apply]
    split
    · exact mine.mono (stop ▸ id) tasks
    · exact (h.loops j).mono (stop ▸ id) tasks

theorem Guarded.take {s t : State cls Sid Kid n} (alone : Exclusive s) (h : Guarded s) {i : Fin n}
    {task : Item Sid} {rest : List (Item Sid)} (at_pc : s.loop i = .take)
    (tasks : s.m_tasks = task :: rest) (loop : t.loop = Function.update s.loop i (.unlock (some task)))
    (same : t.m_stop = s.m_stop ∧ t.call = s.call ∧ t.shutdown = s.shutdown) : Guarded t := by
  obtain ⟨stop, call, shutdown⟩ := same
  refine ⟨fun sid callable at_call => ?_, fun k past => ?_, fun j => ?_⟩
  · rw [stop]
    exact h.opened sid callable (call ▸ at_call)
  · rw [stop]
    exact h.stopped k (shutdown ▸ past)
  · rw [loop, Function.update_apply]
    split
    · trivial
    · rename_i other
      have outside : (s.loop j).locked = false :=
        Mutex.Guards.alone alone (p := .worker i) (q := .worker j)
          (by rw [State.inside, at_pc]; rfl) fun same => other (by cases same; rfl)
      have ok := h.loops j
      cases hj : s.loop j with
      | take | leave | unlock => rw [hj] at outside; cases outside
      | returned =>
        rw [hj] at ok
        cases tasks.symm.trans ok.2
      | undefined => rw [hj] at ok; exact ok.elim
      | _ => trivial

theorem loop_guarded {cfg : Config} {s t : State cfg.cls Sid Kid n} {i : Fin n}
    (alone : Exclusive s) (h : Guarded s) (step : LoopSteps cfg s i t) : Guarded t := by
  have mine := h.loops i
  cases step with
  | holds _ some => exact h.move rfl some ⟨rfl, rfl, rfl, rfl⟩
  | drained _ tasks stop => exact h.move rfl ⟨stop, tasks⟩ ⟨rfl, rfl, rfl, rfl⟩
  | take at_pc tasks => exact h.take alone at_pc tasks rfl ⟨rfl, rfl, rfl⟩
  | nothing at_pc tasks stop =>
    rw [at_pc] at mine
    rcases mine with on | some
    · cases stop.symm.trans on
    · exact absurd tasks some
  | leave at_pc =>
    rw [at_pc] at mine
    exact h.move rfl mine ⟨rfl, rfl, rfl, rfl⟩
  | _ => exact h.move rfl trivial ⟨rfl, rfl, rfl, rfl⟩

section Calls
variable [DecidableEq Sid]

theorem inside_setCall (s : State cls Sid Kid n) (sid : Sid) (p : Call) :
    (s.setCall sid p).inside (.call sid) = p.locked ∧
      ∀ o, o ≠ .call sid → (s.setCall sid p).inside o = s.inside o := by
  constructor
  · simp [State.inside, State.setCall]
  · rintro (i | d | k) other
    · rfl
    · have different : d ≠ sid := fun same => other (same ▸ rfl)
      simp [State.inside, State.setCall, different]
    · rfl

theorem Exclusive.setCall {s : State cls Sid Kid n} (h : Exclusive s) (sid : Sid) {p : Call}
    (stays : p.locked = true → (s.call sid).locked = true) : Exclusive (s.setCall sid p) :=
  Mutex.Guards.move h (inside_setCall s sid p).2 fun entered =>
    stays ((inside_setCall s sid p).1 ▸ entered)

theorem Guarded.setCall {s t : State cls Sid Kid n} (h : Guarded s) {sid : Sid} {p : Call}
    (call : t.call = Function.update s.call sid p) (fresh : ∀ callable, p ≠ .emplace callable)
    (same : t.m_stop = s.m_stop ∧ t.m_tasks = s.m_tasks ∧ t.loop = s.loop ∧ t.shutdown = s.shutdown) :
    Guarded t := by
  obtain ⟨stop, tasks, loop, shutdown⟩ := same
  refine ⟨fun d callable at_pc => ?_, fun k past => ?_, fun j => ?_⟩
  · rw [call, Function.update_apply] at at_pc
    rw [stop]
    split at at_pc
    · exact absurd at_pc (fresh callable)
    · exact h.opened d callable at_pc
  · rw [stop]
    exact h.stopped k (shutdown ▸ past)
  · rw [loop]
    exact (h.loops j).mono (stop ▸ id) tasks

end Calls

section Shutdowns
variable [DecidableEq Kid]

theorem inside_setShutdown (s : State cls Sid Kid n) (k : Kid) (p : Shutdown) :
    (s.setShutdown k p).inside (.shutdown k) = p.locked ∧
      ∀ o, o ≠ .shutdown k → (s.setShutdown k p).inside o = s.inside o := by
  constructor
  · simp [State.inside, State.setShutdown]
  · rintro (i | sid | j) other
    · rfl
    · rfl
    · have different : j ≠ k := fun same => other (same ▸ rfl)
      simp [State.inside, State.setShutdown, different]

theorem Exclusive.setShutdown {s : State cls Sid Kid n} (h : Exclusive s) (k : Kid) {p : Shutdown}
    (stays : p.locked = true → (s.shutdown k).locked = true) : Exclusive (s.setShutdown k p) :=
  Mutex.Guards.move h (inside_setShutdown s k p).2 fun entered =>
    stays ((inside_setShutdown s k p).1 ▸ entered)

theorem Guarded.setShutdown {s t : State cls Sid Kid n} (h : Guarded s) {k : Kid} {p : Shutdown}
    (shutdown : t.shutdown = Function.update s.shutdown k p)
    (past : p.past = true → (s.shutdown k).past = true)
    (same : t.m_stop = s.m_stop ∧ t.m_tasks = s.m_tasks ∧ t.loop = s.loop ∧ t.call = s.call) :
    Guarded t := by
  obtain ⟨stop, tasks, loop, call⟩ := same
  refine ⟨fun sid callable at_pc => ?_, fun j done => ?_, fun j => ?_⟩
  · rw [stop]
    exact h.opened sid callable (call ▸ at_pc)
  · rw [stop]
    rw [shutdown, Function.update_apply] at done
    split at done
    · exact h.stopped k (past done)
    · exact h.stopped j done
  · rw [loop]
    exact (h.loops j).mono (stop ▸ id) tasks

end Shutdowns

variable [DecidableEq Sid] [DecidableEq Kid]

theorem step_exclusive {cfg : Config} {s t : State cfg.cls Sid Kid n} {a : Act Sid Kid n}
    (h : Exclusive s) (taken : step cfg s a = some t) : Exclusive t := by
  cases step_cases taken with
  | create | created | run | ran | thread | wakeThread | join => exact h
  | loop _ step => exact loop_exclusive h step
  | enter => exact Exclusive.goto (s := State.setThread s _ _) h _ (by simp [Loop.locked])
  | wakeLoop => exact h.goto _ (by simp [Loop.locked])
  | execute => exact h.setCall _ (by simp [Call.locked])
  | lock _ free => exact Mutex.Guards.acquire (free ▸ h) (inside_setCall s _ _).2
  | refuse at_pc | accept at_pc => exact h.setCall _ (by simp [at_pc, Call.locked])
  | emplace at_pc =>
    exact Mutex.Guards.move h (inside_setCall s _ _).2
      (by simp [State.inside, at_pc, Call.locked])
  | unlock at_pc | throw at_pc =>
    exact Mutex.Guards.release h (by simp [State.inside, at_pc, Call.locked])
      (inside_setCall s _ _).2 (inside_setCall s _ _).1
  | notifyOne =>
    exact (h.goto _ (by simp [Loop.locked])).setCall _ (by simp [Call.locked])
  | notifyNone => exact h.setCall _ (by simp [Call.locked])
  | shutdown | joined | cleared => exact h.setShutdown _ (by simp [Shutdown.locked])
  | found at_pc | first at_pc => exact h.setShutdown _ (by simp [at_pc, Shutdown.locked])
  | stopLock _ free => exact Mutex.Guards.acquire (free ▸ h) (inside_setShutdown s _ _).2
  | set at_pc =>
    exact Mutex.Guards.move h (inside_setShutdown s _ _).2
      (by simp [State.inside, at_pc, Shutdown.locked])
  | stopUnlock at_pc | unlockReturn at_pc =>
    exact Mutex.Guards.release h (by simp [State.inside, at_pc, Shutdown.locked])
      (inside_setShutdown s _ _).2 (inside_setShutdown s _ _).1
  | @notifyAll k at_pc =>
    have woken : Mutex.Guards s.m_mutex
        ({ s with loop := fun i => (s.loop i).unblock } : State cfg.cls Sid Kid n).inside := by
      rintro (i | sid | j) entered
      · exact h (.worker i) ((unblock_locked _).symm.trans entered)
      · exact h (.call sid) entered
      · exact h (.shutdown j) entered
    exact Exclusive.setShutdown (s := { s with loop := fun i => (s.loop i).unblock }) woken k
      (by simp [Shutdown.locked])

theorem step_guarded {cfg : Config} {s t : State cfg.cls Sid Kid n} {a : Act Sid Kid n}
    (alone : Exclusive s) (h : Guarded s) (taken : step cfg s a = some t) : Guarded t := by
  cases step_cases taken with
  | create | created | run | ran | thread | wakeThread | join => exact ⟨h.opened, h.stopped, h.loops⟩
  | loop _ step => exact loop_guarded alone h step
  | enter | wakeLoop => exact h.move rfl trivial ⟨rfl, rfl, rfl, rfl⟩
  | @notifyOne _ i _ =>
    have woken : Guarded (s.goto i .relock) := h.move rfl trivial ⟨rfl, rfl, rfl, rfl⟩
    exact woken.setCall rfl (by simp) ⟨rfl, rfl, rfl, rfl⟩
  | execute | lock | refuse | unlock | throw | notifyNone =>
    exact h.setCall rfl (by simp) ⟨rfl, rfl, rfl, rfl⟩
  | accept _ stop => exact ⟨fun _ _ _ => stop, h.stopped, h.loops⟩
  | @emplace sid callable at_pc =>
    have off := h.opened sid callable at_pc
    exact ⟨fun _ _ _ => off, h.stopped, fun j => (h.loops j).emplace off (by simp [State.setCall])⟩
  | shutdown | stopLock | found | first | unlockReturn =>
    exact h.setShutdown rfl (by simp [Shutdown.past]) ⟨rfl, rfl, rfl, rfl⟩
  | stopUnlock at_pc | joined at_pc | cleared at_pc =>
    exact h.setShutdown rfl (by simp [at_pc, Shutdown.past]) ⟨rfl, rfl, rfl, rfl⟩
  | @set k at_pc =>
    refine ⟨fun sid callable inserting => ?_, fun _ _ => rfl, fun j => ?_⟩
    · have outside : (s.call sid).locked = false :=
        Mutex.Guards.alone alone (p := .shutdown k) (q := .call sid)
          (by rw [State.inside, at_pc]; rfl) (by simp)
      rw [show s.call sid = _ from inserting] at outside
      cases outside
    · exact (h.loops j).mono (fun _ => rfl) rfl
  | notifyAll at_pc =>
    have woken : Guarded { s with loop := fun i => (s.loop i).unblock } :=
      ⟨h.opened, h.stopped, fun i => (h.loops i).unblock id rfl⟩
    exact woken.setShutdown rfl (by simp [at_pc, Shutdown.past]) ⟨rfl, rfl, rfl, rfl⟩

end Pot.Executors
