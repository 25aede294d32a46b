import Pot.LazyPooledTaskRuns
import Pot.PooledTaskResumption
import Pot.TaskDelivery

/-! Where a run of lazy_run ends, what it has delivered by then, and who uses the frame after it is
gone. -/
namespace Pot.LazyPooledTask
open Transition
open Pot.Task (Body Data Outcome readData)
open PooledTask (Way Config Coro Runner)

variable {V E : Type} {cfg : Config V E} {s t : State V E} {a : Act}

theorem Inv.ended (h : Inv cfg s) (terminal : Terminal (system cfg) s) :
    s.coro = .finished ∧ s.alive = false ∧ (cfg.way = .get →
      s.consumer = .finished (readData cfg.body.isVoid cfg.body.result.data)) := by
  have placed := h.placed
  have defined : s.coro ≠ .undefined := fun no => by
    rw [State.Placed, no] at placed
    exact placed
  have no_work : work s = none := by
    have none := terminal .worker
    simp only [system, step, if_neg defined] at none
    exact none
  have no_consume : consume cfg s = none := by
    have none := terminal .consumer
    simp only [system, step, if_neg defined] at none
    exact none
  have no_complete : complete cfg s = none := by
    have none := terminal .coroutine
    simp only [system, step, if_neg defined] at none
    exact none
  have none_owed : s.pending = 0 := by
    by_contra owed
    have none := terminal .awaited
    simp only [system, step, if_neg defined, if_pos (Nat.pos_of_ne_zero owed)] at none
    cases none
  have kept : s.alive = true → s.released cfg = false := fun there => by
    have none := terminal .destroy
    simp only [system, step, if_neg defined, there, Bool.true_and] at none
    split at none
    · cases none
    · exact Bool.eq_false_iff.mpr ‹_›
  have finished : s.coro = .finished := by
    cases at_coro : s.coro with
    | finished => rfl
    | undefined => exact absurd at_coro defined
    | threw =>
      rw [State.Placed, at_coro] at placed
      exact placed.elim
    | emplaced | finalSuspend =>
      simp only [complete, at_coro] at no_complete
      split at no_complete <;> cases no_complete
    | exchanged =>
      simp only [complete, at_coro] at no_complete
      cases no_complete
    | running k =>
      cases k with
      | zero =>
        simp only [complete, at_coro] at no_complete
        cases no_complete
      | succ k =>
        simp only [complete, at_coro] at no_complete
        split at no_complete <;> cases no_complete
    | suspended k =>
      cases k with
      | zero =>
        simp only [State.Placed, at_coro] at placed
        rcases placed.2.2 with at_pc | at_pc | ⟨-, at_pc | at_pc⟩ <;>
          simp only [consume, at_pc] at no_consume
        · split at no_consume <;> split at no_consume <;> cases no_consume
        · cases no_consume
        · cases no_consume
        · split at no_consume <;> cases no_consume
      | succ k =>
        cases k with
        | zero =>
          simp only [State.Placed, at_coro] at placed
          rcases placed.2 with ⟨at_pc, -⟩ | ⟨-, at_job | at_job⟩
          · simp only [consume, at_pc] at no_consume
            cases no_consume
          · simp only [work, at_job] at no_work
            cases no_work
          · simp only [work, at_job] at no_work
            cases no_work
        | succ k =>
          simp only [State.Placed, at_coro] at placed
          rw [placed.2.1] at none_owed
          cases none_owed
  have ready : s.m_ready = true := by
    rw [h.ready, finished]
    rfl
  have past : s.Past cfg := by
    simp only [State.Placed, finished] at placed
    exact placed.2.1
  have got : cfg.way = .get →
      s.consumer = .finished (readData cfg.body.isVoid cfg.body.result.data) := fun way => by
    rcases past.cases with ⟨-, at_pc⟩ | ⟨other, -⟩ | ⟨-, -, at_pc⟩
    · simp only [consume, at_pc, if_pos ready] at no_consume
      cases no_consume
    · cases way.symm.trans other
    · exact at_pc
  refine ⟨finished, ?_, got⟩
  by_contra there
  have unreleased := kept (Bool.eq_true_of_not_eq_false there)
  unfold State.released at unreleased
  cases way : cfg.way with
  | get =>
    rw [way, got way] at unreleased
    cases unreleased
  | coAwait =>
    rw [way, h.entries, if_pos ⟨finished, way⟩] at unreleased
    cases unreleased

/-- A frame that is gone when the coroutine has finished is not missed. -/
theorem Inv.quiet (h : Inv cfg s) (gone : s.alive = false) (finished : s.coro = .finished)
    (stay : cfg.way = .coAwait ∨ s.consumer ≠ .wait) : Terminal (system cfg) s := by
  intro a
  apply Option.eq_none_iff_forall_ne_some.mpr
  intro t taken
  cases h.step_moves taken with
  | get _ way at_wait =>
    rcases stay with other | no
    · cases way.symm.trans other
    · exact no at_wait
  | destroy there => exact Bool.false_ne_true (gone.symm.trans there)
  | early at_coro | await at_coro | store at_coro | check at_coro | resume at_coro
  | switch at_coro | push at_coro | pop at_coro | work at_coro | suspend at_coro
  | awaited at_coro | emplace at_coro | exchange at_coro | final_suspend at_coro
  | finish at_coro =>
    rw [finished] at at_coro
    cases at_coro

/-- A coroutine that has stored its result has a step to take until it has finished. -/
theorem Inv.unfinished (h : Inv cfg s) (ready : s.m_ready = true) (still : s.coro ≠ .finished) :
    ∃ t, step cfg s .coroutine = some t := by
  rw [h.ready] at ready
  have defined : s.coro ≠ .undefined := fun no => by
    rw [no] at ready
    cases ready
  rw [step, if_neg defined]
  cases at_coro : s.coro with
  | finished => exact absurd at_coro still
  | exchanged =>
    simp only [complete, at_coro]
    exact ⟨_, rfl⟩
  | finalSuspend =>
    simp only [complete, at_coro]
    split <;> exact ⟨_, rfl⟩
  | _ =>
    rw [at_coro] at ready
    cases ready

theorem Inv.got (h : Inv cfg s) {o : Outcome V E} (at_pc : s.consumer = .finished o) :
    s.m_ready = true := by
  rcases h.begun with ⟨-, no | no | ⟨-, no | no⟩⟩ | ⟨-, no⟩ | ⟨-, no⟩ | past
  case inr.inr.inr =>
    rcases past.cases with ⟨-, no⟩ | ⟨-, no⟩ | ⟨-, ready, -⟩
    · rw [at_pc] at no
      cases no
    · rw [at_pc] at no
      cases no
    · exact ready
  all_goals
    rw [at_pc] at no
    cases no

/-- A frame that is co_awaited is there whenever it is used. After get() it is, exactly if the
coroutine has come to its end before the lazy_task goes out of scope. -/
theorem lazy_frame_kept (cfg : Config V E) {s : State V E} (reached : Reached (system cfg) s) :
    (cfg.way = .coAwait → ∀ a t, step cfg s a = some t → s.uses a = true → s.alive = true) ∧
    (cfg.way = .get → ∀ t, step cfg s .destroy = some t →
      ((∀ as u a v, replay (system cfg) t as = some u → step cfg u a = some v → u.uses a = false) ↔
        s.coro = .finished)) := by
  have h := reached_inv reached
  refine ⟨fun way a t taken _ => ?_, fun way t taken => ?_⟩
  · by_contra there
    have gone := Bool.eq_false_of_not_eq_true there
    have released := h.alive gone
    have finished : s.coro = .finished := by
      by_contra running
      rw [State.released, way, h.entries, if_neg fun both => running both.1] at released
      cases released
    have none := h.quiet gone finished (.inl way) a
    cases none.symm.trans taken
  · have released : s.released cfg = true ∧ t = { s with alive := false } := by
      cases h.step_moves taken with
      | destroy _ released => exact ⟨released, rfl⟩
    obtain ⟨released, rfl⟩ := released
    have later := step_inv h taken
    obtain ⟨o, at_pc⟩ : ∃ o, s.consumer = .finished o := by
      rw [State.released, way] at released
      cases at_pc : s.consumer with
      | finished o => exact ⟨o, rfl⟩
      | _ =>
        rw [at_pc] at released
        cases released
    refine ⟨fun unused => ?_, fun finished as u a v run taken => ?_⟩
    · by_contra still
      obtain ⟨v, goes⟩ := later.unfinished (h.got at_pc) still
      cases unused [] _ .coroutine v rfl goes
    · have quiet := later.quiet rfl finished (.inr (by rw [at_pc]; nofun))
      cases as with
      | nil =>
        cases run
        cases (quiet a).symm.trans taken
      | cons b as =>
        simp only [replay, quiet b, Option.bind_none, reduceCtorEq] at run

/-- get() returns while the worker is still in final_suspend. -/
def gotEarly : List Act :=
  [.consumer, .consumer, .coroutine, .consumer, .worker, .worker, .coroutine, .coroutine, .consumer]

theorem lazy_frame_kept_early : ∃ s t,
    replay (system (PooledTask.five .get)) initial gotEarly = some s ∧
    step (PooledTask.five .get) s .destroy = some t ∧ ¬ ∀ as u a v,
      replay (system (PooledTask.five .get)) t as = some u → step (PooledTask.five .get) u a = some v →
        u.uses a = false := by
  have run := (Option.some_get (show (replay (system (PooledTask.five .get)) initial
    gotEarly).isSome from rfl)).symm
  have start : Reached (system (PooledTask.five .get)) initial := .start rfl
  have reached := start.replay _ run
  refine ⟨_, _, run, rfl, fun unused => ?_⟩
  cases ((lazy_frame_kept (PooledTask.five .get) reached).2 rfl _ rfl).mp unused

end Pot.LazyPooledTask
