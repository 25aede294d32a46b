import Pot.PooledTaskInvariant

/-! How often do_run and its consumer are resumed. A consumer that calls resume() is one too many
from then on, and one that registers after final_awaiter has looked is never resumed at all. -/
namespace Pot.PooledTask
open Transition Pot.Task

variable {V E : Type}

/-- What await_resume finds on the one entry there should be. -/
def Config.entry (cfg : Config V E) : Bool × Data V E := (true, cfg.body.result.data)

/-- What a registered consumer has got, by where the coroutine is. -/
def Coro.given (cfg : Config V E) : Coro → List (Bool × Data V E)
  | .finished => [cfg.entry]
  | _ => []

section Moves
variable {cfg : Config V E} {s t : State V E} {a : Act}

/-- A consumer that has not called resume(), and will be resumed if it has registered. -/
def State.Handed (cfg : Config V E) (s : State V E) : Prop :=
  match s.consumer with
  | .look => s.m_continuation = false ∧ s.entries = []
  | .store => cfg.way = .coAwait ∧ s.m_continuation = false ∧ s.entries = []
  | .check => cfg.way = .coAwait ∧ s.m_continuation = true ∧ s.entries = s.coro.given cfg
  | .left => cfg.way = .coAwait ∧ ((s.m_continuation = false ∧ s.entries = [cfg.entry]) ∨
      (s.m_continuation = true ∧ s.coro.done = true ∧ s.entries = s.coro.given cfg))
  | .wait | .finished _ => cfg.way = .get ∧ s.m_continuation = false ∧ s.entries = []
  | .resume | .resuming => False

structure Good (cfg : Config V E) (s : State V E) : Prop where
  inv : Inv cfg s
  owed : s.Owed 0
  handed : s.Handed cfg

theorem initial_good : Good cfg (initial : State V E) where
  inv := ⟨⟨Nat.zero_le _, rfl⟩, fun _ => rfl, nofun, nofun⟩
  owed := ⟨fun _ => nofun, fun _ => rfl⟩
  handed := ⟨rfl, rfl⟩

theorem handed_moved (handed : s.Handed cfg) (consumer : t.consumer = s.consumer)
    (registered : t.m_continuation = s.m_continuation) (entries : t.entries = s.entries)
    (done : s.coro.done = true → t.coro.done = true)
    (given : t.coro.given cfg = s.coro.given cfg) : t.Handed cfg := by
  rw [State.Handed] at handed ⊢
  rw [consumer, registered, entries, given]
  cases at_c : s.consumer with
  | left =>
    rw [at_c] at handed
    exact ⟨handed.1, handed.2.imp_right fun all => ⟨all.1, done all.2.1, all.2.2⟩⟩
  | _ => rw [at_c] at handed; exact handed

theorem resume_handed (handed : s.Handed cfg) (due : 0 < s.coro.waiting) {runner : Runner} :
    (s.resume cfg runner).Handed cfg := by
  rcases resume_cases cfg s runner with ⟨k, at_coro, same⟩ | ⟨awake, -⟩
  · rw [same]
    refine handed_moved handed rfl rfl rfl (fun done => ?_) ?_
    · rw [at_coro] at done
      cases done
    · rw [at_coro]
      rfl
  · omega

/-- It is not the consumer's call of resume() that returns. -/
theorem returns_handed (h : Good cfg s) (active : s.coro.active = true)
    {u : State V E} (runner : u.runner = s.runner) (handed : u.Handed cfg) :
    (u.returns cfg).Handed cfg := by
  have other : u.runner ≠ .consumer := fun mine => by
    have busy := (h.inv.held active).2 (runner ▸ mine)
    have before := h.handed
    rw [State.Handed, busy] at before
    exact before
  exact handed_moved handed (if_neg other) rfl rfl id rfl

theorem found (h : Inv cfg s) (defined : s.coro ≠ .undefined) (ready : s.m_ready = true) :
    (s.m_ready, s.m_data) = cfg.entry := by
  have complete : s.coro.complete = true := h.ready defined ▸ ready
  have stored : s.coro.stored = true := by
    cases at_coro : s.coro <;> rw [at_coro] at complete <;> first | rfl | cases complete
  rw [ready, h.data stored, Config.entry]

theorem transfer_handed (h : Good cfg s) (at_coro : s.coro = .finalSuspend)
    (registered : s.m_continuation = true) :
    State.Handed cfg { s.enter with coro := .finished } := by
  have handed := h.handed
  have ready : s.m_ready = true := by
    rw [h.inv.ready (by rw [at_coro]; nofun), at_coro]
    rfl
  have entry := found h.inv (by rw [at_coro]; nofun) ready
  rw [State.Handed] at handed ⊢
  simp only [State.enter]
  cases at_c : s.consumer with
  | look | store | wait | finished =>
    rw [at_c] at handed
    simp only [registered, Bool.true_eq_false, false_and, and_false] at handed
  | check =>
    rw [at_c, at_coro] at handed
    refine ⟨handed.1, handed.2.1, ?_⟩
    rw [handed.2.2, entry]
    rfl
  | left =>
    rw [at_c, at_coro] at handed
    rcases handed.2 with direct | waited
    · rw [direct.1] at registered
      cases registered
    · refine ⟨handed.1, .inr ⟨registered, rfl, ?_⟩⟩
      rw [waited.2.2, entry]
      rfl
  | resume | resuming => rw [at_c] at handed; exact handed

theorem finish_handed (handed : s.Handed cfg) (registered : s.m_continuation = false) :
    State.Handed cfg { s with coro := .finished } := by
  rw [State.Handed] at handed ⊢
  cases at_c : s.consumer with
  | check =>
    rw [at_c, registered] at handed
    cases handed.2.1
  | left =>
    rw [at_c] at handed
    refine ⟨handed.1, .inl (handed.2.resolve_right fun waited => ?_)⟩
    rw [registered] at waited
    cases waited.1
  | _ => rw [at_c] at handed; exact handed

theorem step_handed (h : Good cfg s) (timely : Timely cfg s a) (taken : step cfg s a = some t) :
    t.Handed cfg := by
  obtain ⟨defined, move⟩ := step_cases taken
  have handed := h.handed
  have due := h.owed.due defined
  unfold State.resumers at due
  cases move with
  | pop => exact handed_moved handed rfl rfl rfl id rfl
  | work at_job =>
    rw [at_job, Job.resumers] at due
    exact resume_handed (s := { s with job := .resuming }) handed (by simp only; omega)
  | awaited some =>
    exact resume_handed (s := { s with pending := s.pending - 1 }) handed (by simp only; omega)
  | resume at_resume =>
    rw [State.Handed, at_resume] at handed
    exact handed.elim
  | ready at_c way ready =>
    rw [State.Handed, at_c] at handed
    exact ⟨way, handed⟩
  | early at_c way early =>
    have looked := timely rfl
    rw [State.timely, at_c, way, early] at looked
    cases looked
  | await_ready at_c way ready =>
    rw [State.Handed, at_c] at handed
    refine ⟨way, .inl ⟨handed.1, ?_⟩⟩
    simp only [State.enter]
    rw [handed.2, found h.inv defined ready, List.nil_append]
  | await_suspend at_c way =>
    rw [State.Handed, at_c] at handed
    exact ⟨way, handed⟩
  | store at_c =>
    have stored := timely rfl
    simp only [State.timely, at_c, decide_eq_true_eq] at stored
    rw [State.Handed, at_c] at handed
    refine ⟨handed.1, rfl, handed.2.2.trans ?_⟩
    cases at_coro : s.coro <;> first | rfl | exact absurd at_coro stored
  | done at_c done =>
    rw [State.Handed, at_c] at handed
    exact ⟨handed.1, .inr ⟨handed.2.1, done, handed.2.2⟩⟩
  | not_done at_c not_done =>
    have checked := timely rfl
    rw [State.timely, at_c, not_done] at checked
    cases checked
  | get at_c =>
    rw [State.Handed, at_c] at handed
    exact handed
  | suspend at_coro =>
    refine returns_handed h (at_coro ▸ rfl) rfl ?_
    refine handed_moved handed rfl rfl rfl (fun done => ?_) (by rw [at_coro]; rfl)
    rw [at_coro] at done
    cases done
  | again at_coro =>
    refine returns_handed h (at_coro ▸ rfl) rfl ?_
    refine handed_moved handed rfl rfl rfl (fun done => ?_) (by rw [at_coro]; rfl)
    rw [at_coro] at done
    cases done
  | emplace at_coro | exchange at_coro | final_suspend at_coro =>
    refine handed_moved handed rfl rfl rfl (fun done => ?_) (by rw [at_coro]; rfl)
    rw [at_coro] at done
    cases done
  | transfer at_coro registered =>
    exact returns_handed h (at_coro ▸ rfl) rfl (transfer_handed h at_coro registered)
  | finish at_coro registered =>
    exact returns_handed h (at_coro ▸ rfl) rfl
      (finish_handed handed registered)

theorem step_good (h : Good cfg s) (timely : Timely cfg s a) (taken : step cfg s a = some t) :
    Good cfg t := by
  have handed := step_handed h timely taken
  refine ⟨step_inv h.inv taken, step_owed h.inv h.owed (fun _ => ?_) taken, handed⟩
  unfold State.Handed at handed
  cases at_c : t.consumer with
  | resume => rw [at_c] at handed; exact handed.elim
  | _ => rfl

/-- The consumer has decided to call resume(). -/
def Consumer.decided : Consumer V E → Bool
  | .resume | .resuming | .wait | .finished _ | .left => true
  | _ => false

/-- There is one resume() more than there are suspensions. -/
structure Doubled (cfg : Config V E) (s : State V E) : Prop where
  inv : Inv cfg s
  owed : s.Owed 1
  decided : s.consumer.decided = true

/-- final_awaiter has not found the consumer, which is suspended or about to be. -/
structure Lost (cfg : Config V E) (s : State V E) : Prop where
  inv : Inv cfg s
  way : cfg.way = .coAwait
  finished : s.coro = .finished
  none : s.resumers = 0
  entries : s.entries = []
  awaiting : s.consumer = .check ∨ s.consumer = .left

theorem step_untimely (h : Good cfg s) (untimely : ¬ Timely cfg s a)
    (taken : step cfg s a = some t) : Doubled cfg t ∨ Lost cfg t := by
  have inv := step_inv h.inv taken
  obtain ⟨defined, move⟩ := step_cases taken
  have handed := h.handed
  have due := h.owed.due defined
  rw [Timely, Classical.not_imp] at untimely
  obtain ⟨rfl, late⟩ := untimely
  unfold State.timely at late
  cases move with
  | early at_c | not_done at_c =>
    refine .inl ⟨inv, ⟨nofun, fun _ => ?_⟩, rfl⟩
    simp only [State.resumers, at_c, Consumer.resumers] at due ⊢
    omega
  | store at_c =>
    simp only [at_c, decide_eq_true_eq, not_not] at late
    rw [State.Handed, at_c] at handed
    refine .inr ⟨inv, handed.1, late, ?_, handed.2.2, .inl rfl⟩
    rw [late] at due
    simp only [State.resumers, at_c] at due
    exact due
  | ready at_c way ready => simp [at_c, ready] at late
  | await_ready at_c way | await_suspend at_c way => simp [at_c, way] at late
  | done at_c done => simp [at_c, done] at late
  | resume at_c | get at_c => simp [at_c] at late

theorem resume_consumer {runner : Runner} : (s.resume cfg runner).consumer = s.consumer := by
  unfold State.resume
  split <;> rfl

/-- A consumer that has decided comes to no other resume(). -/
structure Consumer.Onward (c d : Consumer V E) : Prop where
  decided : d.decided = true
  kept : c.resumers = 0 → d.resumers = 0

theorem returns_onward {u : State V E} (decided : s.consumer.decided = true)
    (same : u.consumer = s.consumer) : s.consumer.Onward (u.returns cfg).consumer := by
  simp only [State.returns, same]
  split
  · cases cfg.way <;> exact ⟨rfl, fun _ => rfl⟩
  · exact ⟨decided, id⟩

theorem step_onward (decided : s.consumer.decided = true) (taken : step cfg s a = some t) :
    s.consumer.Onward t.consumer := by
  obtain ⟨-, move⟩ := step_cases taken
  cases move with
  | pop | emplace | exchange | final_suspend => exact ⟨decided, id⟩
  | work | awaited =>
    rw [resume_consumer]
    exact ⟨decided, id⟩
  | resume =>
    rw [resume_consumer]
    exact ⟨rfl, fun _ => rfl⟩
  | get => exact ⟨rfl, fun _ => rfl⟩
  | ready at_c | early at_c | await_ready at_c | await_suspend at_c | store at_c | done at_c
  | not_done at_c =>
    rw [at_c] at decided
    cases decided
  | suspend | again | transfer | finish => exact returns_onward decided rfl

theorem step_doubled (h : Doubled cfg s) (taken : step cfg s a = some t) : Doubled cfg t := by
  have onward := step_onward h.decided taken
  exact ⟨step_inv h.inv taken, step_owed h.inv h.owed onward.kept taken, onward.decided⟩

theorem step_lost (h : Lost cfg s) (taken : step cfg s a = some t) : Lost cfg t := by
  have inv := step_inv h.inv taken
  have finished := h.finished
  have none := h.none
  simp only [State.resumers] at none
  obtain ⟨-, move⟩ := step_cases taken
  cases move with
  | pop at_job | work at_job =>
    rw [at_job, Job.resumers] at none
    omega
  | awaited some => omega
  | ready at_c | early at_c | await_ready at_c | await_suspend at_c | store at_c | resume at_c
  | get at_c =>
    rcases h.awaiting with other | other <;> cases at_c.symm.trans other
  | done at_c =>
    refine ⟨inv, h.way, finished, ?_, h.entries, .inr rfl⟩
    simp only [State.resumers, Consumer.resumers]
    omega
  | not_done at_c not_done =>
    rw [finished] at not_done
    cases not_done
  | suspend at_coro | emplace at_coro | again at_coro | exchange at_coro | final_suspend at_coro
  | transfer at_coro | finish at_coro => cases finished.symm.trans at_coro

theorem log_once (cfg : Config V E) (k : Nat) :
    (List.range (cfg.body.suspensions + 1)).count k = cfg.expected k := by
  rw [List.count_range, Config.expected]
  exact if_congr Nat.lt_succ_iff rfl rfl

theorem good_at_most_once (h : Good cfg s) : AtMostOnce cfg s := by
  have logged := h.inv.logged
  have handed := h.handed
  have given : s.coro.given cfg = [] ∨ s.coro.given cfg = [cfg.entry] := by
    cases s.coro <;> first | exact .inl rfl | exact .inr rfl
  have entries : s.entries = [] ∨ s.entries = [cfg.entry] := by
    unfold State.Handed at handed
    cases at_c : s.consumer <;> rw [at_c] at handed
    case look => exact .inl handed.2
    case store | wait | finished => exact .inl handed.2.2
    case check => exact handed.2.2 ▸ given
    case left => exact handed.2.elim (fun direct => .inr direct.2) fun waited => waited.2.2 ▸ given
    all_goals exact handed.elim
  refine ⟨fun k => ?_, ?_, fun e member => ?_⟩
  · have prefix_ : ∀ n, n ≤ cfg.body.suspensions + 1 → (List.range n).count k ≤ cfg.expected k :=
      fun n inside => log_once cfg k ▸ (List.range_sublist.mpr inside).count_le k
    unfold State.Logged at logged
    cases at_coro : s.coro <;> rw [at_coro] at logged
    case suspended => exact logged.2 ▸ prefix_ _ (Nat.le_succ_of_le logged.1)
    case running => exact logged.2 ▸ prefix_ _ (Nat.succ_le_succ logged.1)
    case threw => exact logged.elim
    case undefined => exact absurd at_coro (h.owed.defined rfl)
    all_goals exact logged ▸ prefix_ _ (Nat.le_refl _)
  · rcases entries with none | one
    · rw [none]
      exact Nat.zero_le 1
    · rw [one]
      exact Nat.le_refl 1
  · rcases entries with none | one
    · rw [none] at member
      cases member
    · exact List.mem_singleton.mp (one ▸ member)

theorem good_finished (h : Good cfg s) (stuck : Stuck cfg s) : s.coro = .finished := by
  have due := h.owed.due (h.owed.defined rfl)
  have logged := h.inv.logged
  have coroutine := stuck.coroutine
  rw [stuck_resumers stuck] at due
  unfold complete at coroutine
  cases at_coro : s.coro <;> rw [at_coro] at coroutine
  case suspended => rw [at_coro] at due; cases due
  case threw => rw [State.Logged, at_coro] at logged; exact logged.elim
  case undefined => exact absurd at_coro (h.owed.defined rfl)
  case exchanged => cases coroutine
  all_goals
    simp only at coroutine
    split at coroutine <;> cases coroutine

theorem good_exactly_once (h : Good cfg s) (terminal : Terminal (system cfg) s) :
    ExactlyOnce cfg s := by
  have stuck := terminal_stuck (h.owed.defined rfl) terminal
  have finished := good_finished h stuck
  have logged := h.inv.logged
  have handed := h.handed
  have consumer := stuck.consumer
  rw [State.Logged, finished] at logged
  refine ⟨fun k => ?_, fun way => ?_⟩
  · rw [logged, log_once]
  · rw [State.Handed, finished] at handed
    rw [consume, way] at consumer
    cases at_c : s.consumer <;> rw [at_c] at handed consumer
    case left => exact handed.2.elim (fun direct => direct.2) fun waited => waited.2.2
    case look => simp only at consumer; split at consumer <;> cases consumer
    case check => simp only at consumer; split at consumer <;> cases consumer
    case store => cases consumer
    case wait | finished => cases way.symm.trans handed.1
    all_goals exact handed.elim

theorem doubled_not_once (h : Doubled cfg s) (terminal : Terminal (system cfg) s) :
    ¬ ExactlyOnce cfg s := by
  intro once
  by_cases undefined : s.coro = .undefined
  · have logged := h.inv.logged
    rw [State.Logged, undefined] at logged
    obtain ⟨k, exceeds⟩ := logged
    exact Nat.ne_of_gt exceeds (once.suspensions k)
  · have due := h.owed.due undefined
    rw [stuck_resumers (terminal_stuck undefined terminal)] at due
    omega

theorem lost_not_once (h : Lost cfg s) : ¬ ExactlyOnce cfg s := by
  intro once
  have entered := once.consumer h.way
  rw [h.entries] at entered
  cases entered

end Moves

/-- Every run ends, and when it has, the coroutine and the consumer have been resumed exactly once
exactly if each of its steps was timely; before that, nothing has been resumed twice. -/
theorem resumed_once_iff (cfg : Config V E) :
    (∀ s, ReachedUnder (system cfg) (Timely cfg) s → AtMostOnce cfg s ∧
      (Terminal (system cfg) s → ExactlyOnce cfg s)) ∧
    (∀ as s, replay (system cfg) initial as = some s →
      as.length ≤ 3 * cfg.body.suspensions + 13 ∧ (Terminal (system cfg) s →
        (ExactlyOnce cfg s ↔ ReplaysUnder (system cfg) (Timely cfg) initial as))) := by
  refine ⟨fun s reached => ?_, fun as s run => ⟨?_, fun terminal => ?_⟩⟩
  · have good : Good cfg s := by
      refine ReachedUnder.invariant (fun s first => ?_) (fun s a t h timely taken => ?_) reached
      · exact (show s = initial from first) ▸ initial_good
      · exact step_good h timely taken
    exact ⟨good_at_most_once good, good_exactly_once good⟩
  · have bound := replay_bounded (system cfg) (State.steps cfg)
      (fun _ _ _ h taken => step_inv h taken) (fun _ _ _ h taken => step_steps h taken)
      initial_good.inv as run
    have start : (initial : State V E).steps cfg = 3 * cfg.body.suspensions + 13 := rfl
    omega
  · have verdict := replay_verdict (G := Good cfg) (B := fun s => Doubled cfg s ∨ Lost cfg s)
      (fun _ _ _ h timely taken => step_good h timely taken)
      (fun _ a _ h untimely taken => step_untimely (a := a) h untimely taken)
      (fun _ _ _ h taken => h.imp (fun one => step_doubled one taken) fun one => step_lost one taken)
      initial_good as run
    rcases verdict with ⟨timely, good⟩ | ⟨untimely, bad⟩
    · exact iff_of_true (good_exactly_once good terminal) timely
    · refine iff_of_false (fun once => ?_) untimely
      rcases bad with doubled | lost
      · exact doubled_not_once doubled terminal once
      · exact lost_not_once lost once

def five (way : Way) : Config Nat Nat := ⟨way, .value 0 5⟩

def waited : List Act :=
  [.worker, .worker, .coroutine, .coroutine, .coroutine, .coroutine, .consumer]

theorem resumed_once_waited : ∃ s, replay (system (five .coAwait)) initial waited = some s ∧
    ExactlyOnce (five .coAwait) s := by
  refine ⟨_, (Option.some_get (show (replay (system (five .coAwait)) initial waited).isSome
    from rfl)).symm, ?_⟩
  refine (((resumed_once_iff (five .coAwait)).2 waited _ (Option.some_get _).symm).2 ?_).mpr ?_
  · intro a
    cases a <;> rfl
  · decide

def early : List Act := [.consumer, .consumer, .worker, .worker]

def late : List Act :=
  [.consumer, .worker, .worker, .coroutine, .coroutine, .coroutine, .coroutine, .consumer,
    .consumer]

def resumedTwice : State Nat Nat := (replay (system (five .get)) initial early).get rfl

def forgotten : State Nat Nat := (replay (system (five .coAwait)) initial late).get rfl

theorem get_resumes_twice : (Reached (system (five .get)) resumedTwice ∧
      resumedTwice.resumed = [0, 0] ∧ ¬ AtMostOnce (five .get) resumedTwice) ∧
    (Reached (system (five .coAwait)) forgotten ∧
      Terminal (system (five .coAwait)) forgotten ∧ forgotten.coro = .finished ∧
      ¬ ExactlyOnce (five .coAwait) forgotten) := by
  refine ⟨⟨(Reached.start rfl).replay early (Option.some_get _).symm, rfl, fun once => ?_⟩,
    (Reached.start rfl).replay late (Option.some_get _).symm, fun a => ?_, rfl, fun once => ?_⟩
  · exact absurd (once.suspensions 0) (by decide)
  · cases a <;> rfl
  · exact absurd (once.consumer rfl) nofun

end Pot.PooledTask
