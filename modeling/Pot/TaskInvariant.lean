import Pot.Task

/-! What holds of a frame and its consumer in every reachable state: the flags are functions of
how far the coroutine has come, and each place of the consumer says what it may rely on. -/
namespace Pot.Task
open Transition

variable {V E : Type}

def Coro.rank : Coro → Nat
  | .initialSuspend => 0
  | .running _ => 1
  | .suspended _ => 1
  | .stored => 2
  | .exchange => 3
  | .storeReady _ => 4
  | .notifyAll _ => 5
  | .transfer _ => 6
  | .finalSuspended => 7

/-- The awaiter that the exchange returned, until control is handed on. -/
def Coro.prev : Coro → Option Awaiter
  | .storeReady prev | .notifyAll prev | .transfer prev => some prev
  | _ => none

structure FrameOk (body : Body V E) (f : Frame V E) : Prop where
  data : 2 ≤ f.coro.rank → f.m_data = body.result.data
  done : f.done = decide (3 ≤ f.coro.rank)
  ready : f.m_ready = decide (5 ≤ f.coro.rank)
  sentinel : f.m_awaiter = .sentinel ↔ 4 ≤ f.coro.rank
  prev : f.coro.prev ≠ some .sentinel

/-- The consumer's handle is where completion will find it. -/
def Registered (f : Frame V E) : Prop := f.m_awaiter = .consumer ∨ f.coro.prev = some .consumer

/-- Each place of the consumer, with the kinds and ways that lead there. -/
def ConsumerOk (cfg : Config V E) (f : Frame V E) : Consumer V E → Prop
  | .start =>
    f.alive = true ∧ ¬ Registered f ∧ f.steal = false ∧
      (cfg.kind = .lazyTask → f.coro = .initialSuspend)
  | .awaitReadyDone | .awaitReadyFlag | .awaitSuspend =>
    f.alive = true ∧ ¬ Registered f ∧ f.steal = false ∧ cfg.way = .coAwait ∧ cfg.kind = .task
  | .awaitStore =>
    f.alive = true ∧ ¬ Registered f ∧ f.steal = false ∧ cfg.way = .coAwait ∧
      cfg.kind = .lazyTask ∧ f.coro = .initialSuspend
  | .awaitTransfer =>
    f.alive = true ∧ Registered f ∧ f.steal = false ∧ cfg.way = .coAwait ∧
      cfg.kind = .lazyTask ∧ f.coro = .initialSuspend
  | .awaiting =>
    f.alive = true ∧ Registered f ∧ f.steal = false ∧ cfg.way = .coAwait
  | .awaitResume _ =>
    f.alive = true ∧ ¬ Registered f ∧ f.steal = false ∧ cfg.way = .coAwait ∧ 3 ≤ f.coro.rank
  | .resume =>
    f.alive = true ∧ ¬ Registered f ∧ f.steal = decide (cfg.way = .get true) ∧
      cfg.way ≠ .coAwait ∧ cfg.kind = .lazyTask ∧ f.coro = .initialSuspend
  | .resuming =>
    f.alive = true ∧ ¬ Registered f ∧ f.steal = decide (cfg.way = .get true) ∧
      cfg.way ≠ .coAwait ∧ (∀ k, f.coro ≠ .suspended k) ∧ f.coro ≠ .finalSuspended
  | .wait | .steal =>
    f.alive = true ∧ ¬ Registered f ∧ f.steal = decide (cfg.way = .get true) ∧
      cfg.way ≠ .blockingGet ∧ (cfg.way = .coAwait → 3 ≤ f.coro.rank)
  | .blockingWait =>
    f.alive = true ∧ ¬ Registered f ∧ f.steal = false ∧ cfg.way = .blockingGet
  | .blocked =>
    f.alive = true ∧ ¬ Registered f ∧ f.steal = false ∧ cfg.way = .blockingGet ∧ f.coro.rank ≤ 5
  | .readData => f.alive = true ∧ ¬ Registered f ∧ 5 ≤ f.coro.rank
  | .guardExit _ => f.alive = true ∧ ¬ Registered f
  | .finished _ => f.alive = false ∧ ¬ Registered f

/-- Before its first step the coroutine is suspended in a lazy_task nobody has started. -/
def Consumer.unstarted : Consumer V E → Bool
  | .start | .awaitStore | .awaitTransfer | .resume => true
  | _ => false

structure Inv (cfg : Config V E) (s : State V E) : Prop where
  frame : FrameOk cfg.body s.frame
  consumer : ConsumerOk cfg s.frame s.consumer
  started : s.frame.coro = .initialSuspend →
    cfg.kind = .lazyTask ∧ s.consumer.unstarted = true

theorem initial_inv (cfg : Config V E) : Inv cfg (initial cfg) := by
  cases hk : cfg.kind with
  | task =>
    refine ⟨⟨?_, ?_, ?_, ?_, ?_⟩, ⟨rfl, ?_, rfl, ?_⟩, ?_⟩ <;>
      simp [initial, initialFrame, hk, Coro.rank, Coro.prev, Registered]
  | lazyTask =>
    refine ⟨⟨?_, ?_, ?_, ?_, ?_⟩, ⟨rfl, ?_, rfl, ?_⟩, fun _ => ⟨hk, rfl⟩⟩ <;>
      simp [initial, initialFrame, hk, Coro.rank, Coro.prev, Registered]

inductive Completes (body : Body V E) (f : Frame V E) : Frame V E → Signal → Prop where
  | suspend {k} (at_run : f.coro = .running (k + 1)) :
    Completes body f (f.goto (.suspended k)) .returns
  | wake {k} (at_run : f.coro = .suspended k) : Completes body f (f.goto (.running k)) .none
  | store (at_end : f.coro = .running 0) :
    Completes body f ({ f with m_data := body.result.data }.goto .stored) .none
  | finish (at_end : f.coro = .stored) :
    Completes body f ({ f with done := true }.goto .exchange) .none
  | exchange (at_exchange : f.coro = .exchange) :
    Completes body f ({ f.touch with m_awaiter := .sentinel }.goto (.storeReady f.m_awaiter)) .none
  | ready {prev} (at_store : f.coro = .storeReady prev) :
    Completes body f ({ f.touch with m_ready := true }.goto (.notifyAll prev)) .none
  | notify {prev} (at_notify : f.coro = .notifyAll prev) :
    Completes body f (f.touch.goto (.transfer prev)) .notified
  | noop (at_transfer : f.coro = .transfer .null) :
    Completes body f (f.goto .finalSuspended) .returns
  | handOff (at_transfer : f.coro = .transfer .consumer) :
    Completes body f (f.goto .finalSuspended) .resumes

theorem complete_cases {body : Body V E} {f g : Frame V E} {signal : Signal}
    (taken : f.complete body = some (g, signal)) : Completes body f g signal := by
  unfold Frame.complete at taken
  split at taken <;> cases taken
  · exact .suspend ‹_›
  · exact .wake ‹_›
  · exact .store ‹_›
  · exact .finish ‹_›
  · exact .exchange ‹_›
  · exact .ready ‹_›
  · exact .notify ‹_›
  · exact .noop ‹_›
  · exact .handOff ‹_›

theorem complete_frame {body : Body V E} {f g : Frame V E} {signal : Signal}
    (h : FrameOk body f) (step : Completes body f g signal) : FrameOk body g := by
  obtain ⟨hdata, hdone, hready, hsent, hprev⟩ := h
  cases step with
  | suspend at_run | wake at_run =>
    constructor <;> simp_all [Frame.goto, Coro.rank, Coro.prev]
  | store at_end | finish at_end =>
    constructor <;> simp_all [Frame.goto, Coro.rank, Coro.prev]
  | exchange at_step | ready at_step | notify at_step =>
    constructor <;> simp_all [Frame.goto, Frame.touch, Coro.rank, Coro.prev]
  | noop at_transfer | handOff at_transfer =>
    constructor <;> simp_all [Frame.goto, Coro.rank, Coro.prev]

theorem complete_keeps {body : Body V E} {f g : Frame V E} {signal : Signal}
    (step : Completes body f g signal) :
    g.alive = f.alive ∧ g.steal = f.steal ∧ f.coro.rank ≤ g.coro.rank ∧
      g.coro ≠ .initialSuspend ∧ f.coro ≠ .initialSuspend := by
  cases step <;> simp_all [Frame.goto, Frame.touch, Coro.rank]

theorem complete_registered {body : Body V E} {f g : Frame V E} {signal : Signal}
    (h : FrameOk body f) (step : Completes body f g signal) :
    (signal ≠ .resumes ∧ (Registered g ↔ Registered f)) ∨
      (signal = .resumes ∧ Registered f ∧ ¬ Registered g ∧ g.coro = .finalSuspended) := by
  have hsent := h.sentinel
  cases step with
  | suspend at_run | wake at_run | store at_run | finish at_run =>
    left
    simp [Registered, Frame.goto, Coro.prev, at_run]
  | exchange at_step | ready at_step | notify at_step =>
    left
    simp_all [Registered, Frame.goto, Frame.touch, Coro.prev, Coro.rank]
  | noop at_transfer =>
    left
    simp [Registered, Frame.goto, Coro.prev, at_transfer]
  | handOff at_transfer =>
    right
    simp_all [Registered, Frame.goto, Coro.prev, Coro.rank]

/-- Only the two ways of giving control back stop an inline run of the coroutine. -/
theorem complete_inline {body : Body V E} {f g : Frame V E} {signal : Signal}
    (step : Completes body f g signal) (quiet : signal ≠ .returns) (kept : signal ≠ .resumes) :
    (∀ k, g.coro ≠ .suspended k) ∧ g.coro ≠ .finalSuspended := by
  cases step <;> simp_all [Frame.goto]

theorem complete_unnotified {body : Body V E} {f g : Frame V E} {signal : Signal}
    (step : Completes body f g signal) (quiet : signal ≠ .notified) (before : f.coro.rank ≤ 5) :
    g.coro.rank ≤ 5 := by
  cases step <;> simp_all [Frame.goto, Frame.touch, Coro.rank]

theorem waits_ok {cfg : Config V E} {f : Frame V E} (alive : f.alive = true)
    (unregistered : ¬ Registered f) (steal : f.steal = decide (cfg.way = .get true))
    (way : cfg.way ≠ .coAwait) : ConsumerOk cfg f (cfg.way.waits : Consumer V E) := by
  cases hw : cfg.way with
  | get executor => exact ⟨alive, unregistered, steal, by simp [hw], fun h => absurd h way⟩
  | blockingGet => exact ⟨alive, unregistered, by simp [steal, hw], hw⟩
  | coAwait => exact absurd hw way

theorem complete_consumer {cfg : Config V E} {s : State V E} {g : Frame V E} {signal : Signal}
    (h : Inv cfg s) (step : Completes cfg.body s.frame g signal) :
    ConsumerOk cfg g (s.consumer.hear cfg.way signal) := by
  obtain ⟨alive, steal, forward, _, running⟩ := complete_keeps step
  have ok := h.consumer
  rcases complete_registered h.frame step with ⟨kept, same⟩ | ⟨rfl, reg, unreg, final⟩
  · cases hc : s.consumer with
    | start =>
      rw [hc] at ok
      have hear : (Consumer.start : Consumer V E).hear cfg.way signal = .start := by
        cases signal <;> rfl
      rw [hear]
      exact ⟨alive ▸ ok.1, same.not.mpr ok.2.1, steal ▸ ok.2.2.1,
        fun lz => absurd (ok.2.2.2 lz) running⟩
    | awaitReadyDone | awaitReadyFlag | awaitSuspend =>
      rw [hc] at ok
      cases signal <;> exact ⟨alive ▸ ok.1, same.not.mpr ok.2.1, steal ▸ ok.2.2.1, ok.2.2.2⟩
    | awaitStore | awaitTransfer | resume =>
      rw [hc] at ok
      exact absurd ok.2.2.2.2.2 running
    | awaiting =>
      rw [hc] at ok
      cases signal with
      | resumes => exact absurd rfl kept
      | _ => exact ⟨alive ▸ ok.1, same.mpr ok.2.1, steal ▸ ok.2.2.1, ok.2.2.2⟩
    | awaitResume via =>
      rw [hc] at ok
      cases signal <;> exact ⟨alive ▸ ok.1, same.not.mpr ok.2.1, steal ▸ ok.2.2.1, ok.2.2.2.1,
        Nat.le_trans ok.2.2.2.2 forward⟩
    | resuming =>
      rw [hc] at ok
      obtain ⟨live, unreg, fn, way, _⟩ := ok
      cases signal with
      | returns => exact waits_ok (alive ▸ live) (same.not.mpr unreg) (steal ▸ fn) way
      | resumes => exact absurd rfl kept
      | none | notified =>
        exact ⟨alive ▸ live, same.not.mpr unreg, steal ▸ fn, way,
          complete_inline step (by simp) (by simp)⟩
    | wait | steal =>
      rw [hc] at ok
      cases signal <;> exact ⟨alive ▸ ok.1, same.not.mpr ok.2.1, steal ▸ ok.2.2.1, ok.2.2.2.1,
        fun way => Nat.le_trans (ok.2.2.2.2 way) forward⟩
    | blockingWait =>
      rw [hc] at ok
      cases signal <;> exact ⟨alive ▸ ok.1, same.not.mpr ok.2.1, steal ▸ ok.2.2.1, ok.2.2.2⟩
    | blocked =>
      rw [hc] at ok
      obtain ⟨live, unreg, fn, way, before⟩ := ok
      cases signal with
      | notified => exact ⟨alive ▸ live, same.not.mpr unreg, steal ▸ fn, way⟩
      | resumes => exact absurd rfl kept
      | none | returns =>
        exact ⟨alive ▸ live, same.not.mpr unreg, steal ▸ fn, way,
          complete_unnotified step (by simp) before⟩
    | readData =>
      rw [hc] at ok
      cases signal <;> exact ⟨alive ▸ ok.1, same.not.mpr ok.2.1, Nat.le_trans ok.2.2 forward⟩
    | guardExit o | finished o =>
      rw [hc] at ok
      cases signal <;> exact ⟨alive ▸ ok.1, same.not.mpr ok.2⟩
  · -- the handle that completion resumes is the registered one
    cases hc : s.consumer with
    | awaiting =>
      rw [hc] at ok
      exact ⟨alive ▸ ok.1, unreg, steal ▸ ok.2.2.1, ok.2.2.2, by rw [final]; decide⟩
    | awaitTransfer =>
      rw [hc] at ok
      exact absurd ok.2.2.2.2.2 running
    | guardExit | finished =>
      rw [hc] at ok
      exact absurd reg ok.2
    | _ =>
      rw [hc] at ok
      exact absurd reg ok.2.1

/-- The steps of a consumer whose handle is good, by where it stands. The branches that find
the handle null, or the coroutine done or awaited twice, are not among them. -/
inductive Moves (cfg : Config V E) (f : Frame V E) :
    Consumer V E → Frame V E → Consumer V E → Prop where
  | get {executor} (kind : cfg.kind = .task) (way : cfg.way = .get executor) :
    Moves cfg f .start { f with steal := f.steal || executor } .wait
  | blockingGet (kind : cfg.kind = .task) (way : cfg.way = .blockingGet) :
    Moves cfg f .start f .blockingWait
  | coAwait (kind : cfg.kind = .task) (way : cfg.way = .coAwait) :
    Moves cfg f .start f .awaitReadyDone
  | getLazy {executor} (kind : cfg.kind = .lazyTask) (way : cfg.way = .get executor) :
    Moves cfg f .start { f with steal := f.steal || executor } .resume
  | blockingGetLazy (kind : cfg.kind = .lazyTask) (way : cfg.way = .blockingGet) :
    Moves cfg f .start f .resume
  | coAwaitLazy (kind : cfg.kind = .lazyTask) (way : cfg.way = .coAwait) :
    Moves cfg f .start f .awaitStore
  | seesDone (finished : f.done = true) : Moves cfg f .awaitReadyDone f (.awaitResume .awaitReady)
  | notDone : Moves cfg f .awaitReadyDone f .awaitReadyFlag
  | seesReady (ready : f.m_ready = true) :
    Moves cfg f .awaitReadyFlag f (.awaitResume .awaitReady)
  | notReady : Moves cfg f .awaitReadyFlag f .awaitSuspend
  | register (free : f.m_awaiter = .null) :
    Moves cfg f .awaitSuspend { f with m_awaiter := .consumer } .awaiting
  | tooLate (completed : f.m_awaiter = .sentinel) :
    Moves cfg f .awaitSuspend f (.awaitResume .awaitSuspendFalse)
  | store : Moves cfg f .awaitStore { f with m_awaiter := .consumer } .awaitTransfer
  | transfer : Moves cfg f .awaitTransfer (f.goto (.running cfg.body.suspensions)) .awaiting
  | enter {via} : Moves cfg f (.awaitResume via) f .wait
  | resume : Moves cfg f .resume (f.goto (.running cfg.body.suspensions)) .resuming
  | ready (ready : f.m_ready = true) : Moves cfg f .wait f .readData
  | loop (unready : f.m_ready = false) : Moves cfg f .wait f .steal
  | noSteal (fn : f.steal = false) : Moves cfg f .steal f (.guardExit (.threw .badFunctionCall))
  | unblocked (ready : f.m_ready = true) : Moves cfg f .blockingWait f .readData
  | block (unready : f.m_ready = false) : Moves cfg f .blockingWait f .blocked
  | read : Moves cfg f .readData f (.guardExit (readData cfg.body.isVoid f.m_data))
  | destroy {o} : Moves cfg f (.guardExit o) { f with alive := false } (.finished o)

theorem start_cases {cfg : Config V E} {f g : Frame V E} {c : Consumer V E} (live : f.alive = true)
    (unfinished : cfg.kind = .lazyTask → f.done = false)
    (taken : consume cfg f .start = some (g, c)) : Moves cfg f .start g c := by
  unfold consume at taken
  cases hk : cfg.kind with
  | task =>
    rw [hk] at taken
    cases hw : cfg.way with
    | get executor =>
      rw [hw] at taken
      simp only [startTask] at taken
      rw [if_pos live] at taken
      cases taken
      exact .get hk hw
    | blockingGet =>
      rw [hw] at taken
      simp only [startTask] at taken
      rw [if_pos live] at taken
      cases taken
      exact .blockingGet hk hw
    | coAwait =>
      rw [hw] at taken
      cases taken
      exact .coAwait hk hw
  | lazyTask =>
    rw [hk] at taken
    have good : (f.alive && !f.done) = true := by rw [live, unfinished hk]; rfl
    cases hw : cfg.way with
    | get executor =>
      rw [hw] at taken
      simp only [startLazy] at taken
      rw [if_pos good] at taken
      cases taken
      exact .getLazy hk hw
    | blockingGet =>
      rw [hw] at taken
      simp only [startLazy] at taken
      rw [if_pos good] at taken
      cases taken
      exact .blockingGetLazy hk hw
    | coAwait =>
      rw [hw] at taken
      cases taken
      exact .coAwaitLazy hk hw

theorem consume_cases {cfg : Config V E} {s : State V E} {g : Frame V E} {c : Consumer V E}
    (h : Inv cfg s) (taken : consume cfg s.frame s.consumer = some (g, c)) :
    Moves cfg s.frame s.consumer g c := by
  have ok := h.consumer
  have done_init : s.frame.coro = .initialSuspend → s.frame.done = false := fun hi => by
    rw [h.frame.done, hi]; rfl
  cases hc : s.consumer with
  | start =>
    rw [hc] at taken ok
    exact start_cases ok.1 (fun kind => done_init (ok.2.2.2 kind)) taken
  | awaitReadyDone =>
    rw [hc] at taken ok
    cases taken
    simp only [ok.1, Bool.not_true, Bool.false_or]
    split
    · exact .seesDone ‹_›
    · exact .notDone
  | awaitReadyFlag =>
    rw [hc] at taken
    cases taken
    split
    · exact .seesReady ‹_›
    · exact .notReady
  | awaitSuspend =>
    rw [hc] at taken ok
    simp only [consume] at taken
    rw [if_neg (by simp [ok.1])] at taken
    split at taken <;> cases taken
    · exact .register ‹_›
    · exact .tooLate ‹_›
    · exact absurd (.inl ‹_›) ok.2.1
  | awaitStore =>
    rw [hc] at taken ok
    simp only [consume] at taken
    rw [if_pos (by rw [ok.1, done_init ok.2.2.2.2.2]; rfl)] at taken
    cases taken
    exact .store
  | awaitTransfer => rw [hc] at taken; cases taken; exact .transfer
  | awaitResume via => rw [hc] at taken; cases taken; exact .enter
  | resume => rw [hc] at taken; cases taken; exact .resume
  | wait =>
    rw [hc] at taken
    cases taken
    split
    · exact .ready ‹_›
    · exact .loop (Bool.eq_false_iff.mpr ‹_›)
  | steal =>
    rw [hc] at taken
    simp only [consume] at taken
    split at taken <;> cases taken
    exact .noSteal (Bool.eq_false_iff.mpr ‹_›)
  | blockingWait =>
    rw [hc] at taken
    cases taken
    split
    · exact .unblocked ‹_›
    · exact .block (Bool.eq_false_iff.mpr ‹_›)
  | readData => rw [hc] at taken; cases taken; exact .read
  | guardExit o => rw [hc] at taken; cases taken; exact .destroy
  | awaiting | resuming | blocked | finished => rw [hc] at taken; cases taken

theorem FrameOk.launch {body : Body V E} {f : Frame V E} (h : FrameOk body f)
    (at_init : f.coro = .initialSuspend) (k : Nat) : FrameOk body (f.goto (.running k)) := by
  obtain ⟨hdata, hdone, hready, hsent, hprev⟩ := h
  constructor <;> simp_all [Frame.goto, Coro.rank, Coro.prev]

theorem FrameOk.await {body : Body V E} {f : Frame V E} (h : FrameOk body f)
    (early : f.coro.rank < 4) : FrameOk body { f with m_awaiter := .consumer } := by
  refine ⟨h.data, h.done, h.ready, ?_, h.prev⟩
  simp only [reduceCtorEq, false_iff, Nat.not_le]
  exact early

theorem rank_of_ready {body : Body V E} {f : Frame V E} (h : FrameOk body f)
    (ready : f.m_ready = true) : 5 ≤ f.coro.rank := by
  rwa [h.ready, decide_eq_true_iff] at ready

theorem rank_of_unready {body : Body V E} {f : Frame V E} (h : FrameOk body f)
    (unready : f.m_ready = false) : f.coro.rank < 5 := by
  rw [h.ready, decide_eq_false_iff_not] at unready
  omega

theorem consume_frame {cfg : Config V E} {s : State V E} {g : Frame V E} {c : Consumer V E}
    (h : Inv cfg s) (move : Moves cfg s.frame s.consumer g c) : FrameOk cfg.body g := by
  have ok := h.consumer
  have still : ∀ b a, FrameOk cfg.body { s.frame with steal := b, alive := a } := fun b a =>
    ⟨h.frame.data, h.frame.done, h.frame.ready, h.frame.sentinel, h.frame.prev⟩
  generalize s.consumer = c₀ at move ok
  cases move with
  | get | getLazy => exact still _ _
  | destroy => exact still _ _
  | register free =>
    apply h.frame.await
    by_contra late
    have taken := h.frame.sentinel.mpr (Nat.le_of_not_lt late)
    rw [free] at taken
    cases taken
  | store => exact h.frame.await (by rw [ok.2.2.2.2.2]; decide)
  | transfer => exact h.frame.launch ok.2.2.2.2.2 _
  | resume => exact h.frame.launch ok.2.2.2.2.2 _
  | _ => exact h.frame

theorem consume_consumer {cfg : Config V E} {s : State V E} {g : Frame V E} {c : Consumer V E}
    (h : Inv cfg s) (move : Moves cfg s.frame s.consumer g c) : ConsumerOk cfg g c := by
  have ok := h.consumer
  generalize s.consumer = c₀ at move ok
  cases move with
  | get kind way =>
    obtain ⟨live, unreg, fn, _⟩ := ok
    exact ⟨live, unreg, by simp [fn, way], by simp [way], by simp [way]⟩
  | blockingGet kind way => exact ⟨ok.1, ok.2.1, ok.2.2.1, way⟩
  | coAwait kind way => exact ⟨ok.1, ok.2.1, ok.2.2.1, way, kind⟩
  | getLazy kind way =>
    obtain ⟨live, unreg, fn, lz⟩ := ok
    exact ⟨live, unreg, by simp [fn, way], by simp [way], kind, lz kind⟩
  | blockingGetLazy kind way =>
    obtain ⟨live, unreg, fn, lz⟩ := ok
    exact ⟨live, unreg, by simp [fn, way], by simp [way], kind, lz kind⟩
  | coAwaitLazy kind way => exact ⟨ok.1, ok.2.1, ok.2.2.1, way, kind, ok.2.2.2 kind⟩
  | seesDone finished =>
    rw [h.frame.done, decide_eq_true_iff] at finished
    exact ⟨ok.1, ok.2.1, ok.2.2.1, ok.2.2.2.1, finished⟩
  | notDone | notReady => exact ok
  | seesReady ready =>
    have := rank_of_ready h.frame ready
    exact ⟨ok.1, ok.2.1, ok.2.2.1, ok.2.2.2.1, by omega⟩
  | register free => exact ⟨ok.1, .inl rfl, ok.2.2.1, ok.2.2.2.1⟩
  | tooLate completed =>
    have := h.frame.sentinel.mp completed
    exact ⟨ok.1, ok.2.1, ok.2.2.1, ok.2.2.2.1, by omega⟩
  | store => exact ⟨ok.1, .inl rfl, ok.2.2⟩
  | transfer =>
    obtain ⟨live, reg, fn, way, kind, at_init⟩ := ok
    refine ⟨live, ?_, fn, way⟩
    rcases reg with reg | reg
    · exact .inl reg
    · rw [at_init] at reg
      cases reg
  | enter =>
    obtain ⟨live, unreg, fn, way, late⟩ := ok
    exact ⟨live, unreg, by simp [fn, way], by simp [way], fun _ => late⟩
  | resume =>
    obtain ⟨live, unreg, fn, way, kind, at_init⟩ := ok
    refine ⟨live, ?_, fn, way, fun k => ?_, ?_⟩
    · rintro (reg | reg)
      · exact unreg (.inl reg)
      · cases reg
    · exact nofun
    · exact nofun
  | ready hr => exact ⟨ok.1, ok.2.1, rank_of_ready h.frame hr⟩
  | unblocked hr => exact ⟨ok.1, ok.2.1, rank_of_ready h.frame hr⟩
  | loop => exact ok
  | noSteal => exact ⟨ok.1, ok.2.1⟩
  | block unready =>
    have := rank_of_unready h.frame unready
    exact ⟨ok.1, ok.2.1, ok.2.2.1, ok.2.2.2, by omega⟩
  | read => exact ⟨ok.1, ok.2.1⟩
  | destroy => exact ⟨rfl, ok.2⟩

theorem consume_started {cfg : Config V E} {s : State V E} {g : Frame V E} {c : Consumer V E}
    (h : Inv cfg s) (move : Moves cfg s.frame s.consumer g c)
    (at_init : g.coro = .initialSuspend) : cfg.kind = .lazyTask ∧ c.unstarted = true := by
  have started := h.started
  generalize s.consumer = c₀ at move started
  cases move with
  | get kind => cases kind.symm.trans (started at_init).1
  | blockingGet kind => cases kind.symm.trans (started at_init).1
  | coAwait kind => cases kind.symm.trans (started at_init).1
  | getLazy kind => exact ⟨kind, rfl⟩
  | blockingGetLazy kind => exact ⟨kind, rfl⟩
  | coAwaitLazy kind => exact ⟨kind, rfl⟩
  | store => exact ⟨(started at_init).1, rfl⟩
  | transfer => cases at_init
  | resume => cases at_init
  | _ => cases (started at_init).2

inductive Steps (cfg : Config V E) (s : State V E) : Act E → State V E → Prop where
  | complete {g signal} (step : Completes cfg.body s.frame g signal) :
    Steps cfg s .complete ⟨g, s.consumer.hear cfg.way signal,
      if signal = .resumes then s.entries ++ (s.consumer.hear cfg.way signal).entering
      else s.entries⟩
  | consume {g c} (step : Moves cfg s.frame s.consumer g c) :
    Steps cfg s .consume ⟨g, c, s.entries ++ c.entering⟩
  | answer {b} (at_steal : s.consumer = .steal) (fn : s.frame.steal = true) :
    Steps cfg s (.steal (.answer b)) { s with consumer := .wait }
  | stolenThrew {e} (at_steal : s.consumer = .steal) (fn : s.frame.steal = true) :
    Steps cfg s (.steal (.threw e)) { s with consumer := .guardExit (.threw (.user e)) }
  | wake (at_block : s.consumer = .blocked) : Steps cfg s .wake { s with consumer := .blockingWait }

theorem step_cases {cfg : Config V E} {s t : State V E} {a : Act E} (h : Inv cfg s)
    (taken : step cfg s a = some t) : Steps cfg s a t := by
  cases a with
  | complete =>
    obtain ⟨⟨g, signal⟩, hstep, rfl⟩ := Option.map_eq_some_iff.mp taken
    exact .complete (complete_cases hstep)
  | consume =>
    obtain ⟨⟨g, c⟩, hstep, rfl⟩ := Option.map_eq_some_iff.mp taken
    exact .consume (consume_cases h hstep)
  | steal r =>
    obtain ⟨c, hstep, rfl⟩ := Option.map_eq_some_iff.mp taken
    cases hc : s.consumer with
    | steal =>
      simp only [hc, consumeSteal] at hstep
      split at hstep
      · rename_i fn
        cases r <;> cases hstep
        · exact .answer hc fn
        · exact .stolenThrew hc fn
      · cases hstep
    | _ => simp [hc, consumeSteal] at hstep
  | wake =>
    simp only [step] at taken
    split at taken <;> cases taken
    exact .wake ‹_›

theorem step_inv {cfg : Config V E} {s t : State V E} {a : Act E} (h : Inv cfg s)
    (taken : step cfg s a = some t) : Inv cfg t := by
  have ok := h.consumer
  have started := h.started
  cases step_cases h taken with
  | complete hstep =>
    exact ⟨complete_frame h.frame hstep, complete_consumer h hstep,
      fun hi => absurd hi (complete_keeps hstep).2.2.2.1⟩
  | consume move =>
    exact ⟨consume_frame h move, consume_consumer h move, consume_started h move⟩
  | answer at_steal fn =>
    rw [at_steal] at ok started
    exact ⟨h.frame, ok, fun hi => nomatch (started hi).2⟩
  | stolenThrew at_steal fn =>
    rw [at_steal] at ok started
    exact ⟨h.frame, ⟨ok.1, ok.2.1⟩, fun hi => nomatch (started hi).2⟩
  | wake at_block =>
    rw [at_block] at ok started
    exact ⟨h.frame, ⟨ok.1, ok.2.1, ok.2.2.1, ok.2.2.2.1⟩, fun hi => nomatch (started hi).2⟩

theorem reached_inv {cfg : Config V E} {s : State V E} (h : Reached (system cfg) s) : Inv cfg s :=
  Reached.invariant (I := Inv cfg) (fun s (eq : s = initial cfg) => eq ▸ initial_inv cfg)
    (fun _ _ _ hi taken => step_inv hi taken) h

end Pot.Task
