import Pot.AsyncLock
import Mathlib.Data.List.Range

/-! sync/async_lock.h on one thread. The coroutines are calls on its stack: one that suspends
returns to the call that started or resumed it, and one that unlock resumes runs inside that
unlock. -/
namespace Pot.AsyncLockThread
open Transition AsyncLock

/-- What a coroutine has left to do. -/
inductive Stmt where
  /-- auto guard = co_await lock.lock(nullptr) -/
  | lock
  | critical
  | start (worker : Nat)
  /-- the end of the guard's scope -/
  | unlock

structure Thread where
  lock : AsyncLock.State Nat
  code : Nat → List Stmt
  stack : List Nat
  sections : List Nat

/-- The next statement of the running coroutine. -/
def exec (t : Thread) (c : Nat) (callers : List Nat) : List Stmt → Option Thread
  | [] => some { t with stack := callers }
  | .lock :: rest =>
    (AsyncLock.step t.lock (.lock c false)).map fun l =>
      { t with code := Function.update t.code c rest, lock := l }
  | .critical :: rest =>
    some { t with code := Function.update t.code c rest, sections := t.sections ++ [c] }
  | .start worker :: rest =>
    some { t with code := Function.update t.code c rest, stack := worker :: t.stack }
  | .unlock :: rest =>
    (AsyncLock.step t.lock (.guard c (.destroy 0))).map fun l =>
      { t with code := Function.update t.code c rest, lock := l }

/-- The thread has no choice: the coroutine on top of its stack makes its next access of the lock
or its next statement. -/
def step (t : Thread) (_ : Unit) : Option Thread :=
  match t.stack with
  | [] => none
  | c :: callers =>
    match t.lock.pc c with
    | .inside _ => exec t c callers (t.code c)
    | .suspended _ => some { t with stack := callers }
    | .resume _ handle _ =>
      (AsyncLock.step t.lock (.go c)).map fun l => { t with lock := l, stack := handle :: t.stack }
    | _ => (AsyncLock.step t.lock (.go c)).map fun l => { t with lock := l }

def worker : List Stmt := [.lock, .critical, .unlock]

/-- The holder, 0, starts the workers 1..k one after another and then lets its guard go. -/
def driver (k : Nat) : List Stmt := .lock :: (List.range' 1 k).map .start ++ [.unlock]

def initial (k : Nat) : Thread where
  lock := AsyncLock.initial
  code c := if c = 0 then driver k else worker
  stack := [0]
  sections := []

def system (k : Nat) : System Thread Unit where
  start t := t = initial k
  step := step

/-- Every await_suspend of a worker returns, and the run ends with all critical sections run once
each in the order of arrival and a free lock. -/
def AcceptsAll (k : Nat) : Prop :=
  (∀ i, 1 ≤ i → i ≤ k → Leads (system k) (initial k) fun t => t.lock.pc i = .suspended []) ∧
  Leads (system k) (initial k) fun t =>
    t.stack = [] ∧ t.sections = List.range' 1 k ∧ t.lock.m_state = 0

example : Leads (system 2) (initial 2) fun t =>
    t.stack = [] ∧ t.sections = [1, 2] ∧ t.lock.m_state = 0 :=
  ⟨List.replicate 27 (), _, rfl, by decide, by decide, by decide⟩

theorem proceeds {k : Nat} {t u : Thread} {P : Thread → Prop} (hstep : step t () = some u)
    (after : Leads (system k) u P) : Leads (system k) t P :=
  Leads.next (a := ()) hstep after

section Steps

variable {t : Thread} {c : Nat} {callers : List Nat} {guards : List Bool} {rest : List Stmt}

theorem step_stmt (running : t.stack = c :: callers) (pc : t.lock.pc c = .inside guards) :
    step t () = exec t c callers (t.code c) := by
  simp only [step, running, pc]

theorem step_return (running : t.stack = c :: callers) (pc : t.lock.pc c = .inside guards)
    (done : t.code c = []) : step t () = some { t with stack := callers } := by
  rw [step_stmt running pc, done, exec]

theorem step_suspended (running : t.stack = c :: callers)
    (pc : t.lock.pc c = .suspended guards) : step t () = some { t with stack := callers } := by
  simp only [step, running, pc]

theorem step_lock (running : t.stack = c :: callers) (pc : t.lock.pc c = .inside [])
    (code : t.code c = .lock :: rest) :
    step t () = some { t with
      code := Function.update t.code c rest
      lock := t.lock.goto c (.fetchAdd [] false) } := by
  rw [step_stmt running pc, code, exec]
  simp only [AsyncLock.step, pc, List.not_mem_nil, if_false, Option.map_some]

theorem step_critical (running : t.stack = c :: callers) (pc : t.lock.pc c = .inside guards)
    (code : t.code c = .critical :: rest) :
    step t () = some { t with
      code := Function.update t.code c rest
      sections := t.sections ++ [c] } := by
  rw [step_stmt running pc, code, exec]

theorem step_start {worker : Nat} (running : t.stack = c :: callers)
    (pc : t.lock.pc c = .inside guards) (code : t.code c = .start worker :: rest) :
    step t () = some { t with
      code := Function.update t.code c rest
      stack := worker :: t.stack } := by
  rw [step_stmt running pc, code, exec]

theorem step_unlock (running : t.stack = c :: callers) (pc : t.lock.pc c = .inside [true])
    (code : t.code c = .unlock :: rest) :
    step t () = some { t with
      code := Function.update t.code c rest
      lock := t.lock.goto c (.fetchSub []) } := by
  rw [step_stmt running pc, code, exec]
  simp only [AsyncLock.step, pc, guardOp, release, List.getElem?_cons_zero, Option.map_some,
    if_true, List.eraseIdx_cons_zero]

theorem step_fetchAdd (running : t.stack = c :: callers) (pc : t.lock.pc c = .fetchAdd [] false) :
    step t () = some { t with
      lock := { t.lock with m_state := t.lock.m_state + 1 }.goto c
        (if t.lock.m_state = 0 then .inside [true] else .push [] false) } := by
  simp only [step, running, pc, AsyncLock.step, access, List.nil_append, Option.map_some]

theorem step_push (running : t.stack = c :: callers) (pc : t.lock.pc c = .push [] false)
    (room : t.lock.m_queue.length < capacity) :
    step t () = some { t with
      lock := { t.lock with
        m_queue := t.lock.m_queue ++ [(c, false)]
        pushed := t.lock.pushed ++ [c] }.goto c (.suspended []) } := by
  simp only [step, running, pc, AsyncLock.step, access, if_pos room, Option.map_some]

/-- The push that is retried on the thread that would have to pop. -/
theorem step_refused (running : t.stack = c :: callers) (pc : t.lock.pc c = .push [] false)
    (full : ¬ t.lock.m_queue.length < capacity) : step t () = some t := by
  simp only [step, running, pc, AsyncLock.step, access, if_neg full, Option.map_some]
  rw [← running]

theorem step_fetchSub (running : t.stack = c :: callers) (pc : t.lock.pc c = .fetchSub []) :
    step t () = some { t with
      lock := { t.lock with m_state := t.lock.m_state - 1 }.goto c
        (if t.lock.m_state = 1 then .inside [] else .pop []) } := by
  simp only [step, running, pc, AsyncLock.step, access, Option.map_some]

theorem step_pop {w : Nat} {waiters : List (Nat × Bool)} (running : t.stack = c :: callers)
    (pc : t.lock.pc c = .pop []) (queued : t.lock.m_queue = (w, false) :: waiters) :
    step t () = some { t with
      lock := { t.lock with m_queue := waiters }.goto c (.resume [] w false) } := by
  simp only [step, running, pc, AsyncLock.step, access, queued, Option.map_some]

theorem step_resume {w : Nat} (running : t.stack = c :: callers)
    (pc : t.lock.pc c = .resume [] w false) (waits : t.lock.pc w = .suspended []) :
    step t () = some { t with
      lock := ({ t.lock with resumed := t.lock.resumed ++ [w] }.goto w (.inside [true])).goto c
        (.inside [])
      stack := w :: t.stack } := by
  simp only [step, running, pc, AsyncLock.step, access, State.wake, waits, Bool.false_eq_true,
    if_false, Option.map_some, List.nil_append]

end Steps

/-- Workers 1..i wait, and the holder starts the others next. -/
structure Waiting (k i : Nat) (t : Thread) : Prop where
  stack : t.stack = [0]
  m_state : t.lock.m_state = 1 + i
  queue : t.lock.m_queue = (List.range' 1 i).map (·, false)
  holder : t.lock.pc 0 = .inside [true]
  driver : t.code 0 = (List.range' (i + 1) (k - i)).map .start ++ [.unlock]
  waits : ∀ c, 1 ≤ c → c ≤ i → t.lock.pc c = .suspended [] ∧ t.code c = [.critical, .unlock]
  fresh : ∀ c, i < c → t.lock.pc c = .inside [] ∧ t.code c = worker
  sections : t.sections = []

/-- Coroutine j holds the lock, inside the unlock calls of those before it, with `left` to do
and n critical sections behind it. -/
structure Holding (k j : Nat) (left : List Stmt) (n : Nat) (t : Thread) : Prop where
  stack : t.stack = (List.range (j + 1)).reverse
  m_state : t.lock.m_state = 1 + (k - j : Nat)
  queue : t.lock.m_queue = (List.range' (j + 1) (k - j)).map (·, false)
  holder : t.lock.pc j = .inside [true] ∧ t.code j = left
  returned : ∀ c < j, t.lock.pc c = .inside [] ∧ t.code c = []
  waits : ∀ c, j < c → c ≤ k → t.lock.pc c = .suspended [] ∧ t.code c = [.critical, .unlock]
  sections : t.sections = List.range' 1 n

/-- The lock is free and the calls of the first n coroutines return. -/
structure Returning (k n : Nat) (t : Thread) : Prop where
  stack : t.stack = (List.range n).reverse
  m_state : t.lock.m_state = 0
  returned : ∀ c < n, t.lock.pc c = .inside [] ∧ t.code c = []
  sections : t.sections = List.range' 1 k

theorem acquires (k : Nat) : Leads (system k) (initial k) (Waiting k 0) := by
  refine ⟨[(), ()], _, rfl, rfl, rfl, rfl, rfl, rfl, fun c lo hi => absurd lo (by omega), ?_, rfl⟩
  intro c positive
  have other : c ≠ 0 := by omega
  exact ⟨by simp [initial, AsyncLock.initial, State.goto, other, Function.update_of_ne],
    by simp [initial, other]⟩

theorem code_next {k i : Nat} (more : i < k) :
    (List.range' (i + 1) (k - i)).map Stmt.start ++ [.unlock] =
      .start (i + 1) :: ((List.range' (i + 1 + 1) (k - (i + 1))).map .start ++ [.unlock]) := by
  have : k - i = k - (i + 1) + 1 := by omega
  rw [this, List.range'_succ, List.map_cons, List.cons_append]

structure Arriving (k i : Nat) (t : Thread) : Prop where
  stack : t.stack = [i + 1, 0]
  m_state : t.lock.m_state = 1 + (i + 1 : Nat)
  queue : t.lock.m_queue = (List.range' 1 i).map (·, false)
  holder : t.lock.pc 0 = .inside [true]
  driver : t.code 0 = (List.range' (i + 1 + 1) (k - (i + 1))).map .start ++ [.unlock]
  waits : ∀ c, 1 ≤ c → c ≤ i → t.lock.pc c = .suspended [] ∧ t.code c = [.critical, .unlock]
  push : t.lock.pc (i + 1) = .push [] false ∧ t.code (i + 1) = [.critical, .unlock]
  fresh : ∀ c, i + 1 < c → t.lock.pc c = .inside [] ∧ t.code c = worker
  sections : t.sections = []

theorem Waiting.arrives {k i : Nat} {t : Thread} (h : Waiting k i t) (more : i < k) :
    Leads (system k) t (Arriving k i) := by
  have fresh := h.fresh (i + 1) (Nat.lt_succ_self i)
  have busy : ¬ t.lock.m_state = 0 := by have := h.m_state; omega
  have entry : Function.update t.code 0
      ((List.range' (i + 1 + 1) (k - (i + 1))).map .start ++ [.unlock]) (i + 1) = worker := by
    rw [Function.update_of_ne (Nat.succ_ne_zero i), fresh.2]
  refine proceeds (step_start h.stack h.holder (h.driver.trans (code_next more))) ?_
  refine proceeds (step_lock rfl fresh.1 entry) ?_
  refine proceeds (step_fetchAdd rfl (Function.update_self ..)) (.now ?_)
  refine ⟨by rw [h.stack], ?_, h.queue, ?_, ?_, ?_, ?_, ?_, h.sections⟩
  · have := h.m_state
    simp only [State.goto]
    omega
  · simpa [State.goto] using h.holder
  · simp
  · intro c lo hi
    have : c ≠ i + 1 := by omega
    have : c ≠ 0 := by omega
    simpa [State.goto, Function.update_of_ne, *] using h.waits c lo hi
  · simp [State.goto, busy]
  · intro c later
    have : c ≠ i + 1 := by omega
    have : c ≠ 0 := by omega
    simpa [State.goto, Function.update_of_ne, *] using h.fresh c (by omega)

theorem Arriving.waits_next {k i : Nat} {t : Thread} (h : Arriving k i t) (room : i < capacity) :
    Leads (system k) t (Waiting k (i + 1)) := by
  have short : t.lock.m_queue.length < capacity := by
    rw [h.queue, List.length_map, List.length_range']
    exact room
  refine proceeds (step_push h.stack h.push.1 short) ?_
  refine proceeds (step_suspended h.stack (Function.update_self ..)) (.now ?_)
  refine ⟨rfl, h.m_state, ?_, ?_, h.driver, ?_, ?_, h.sections⟩
  · simp only [State.goto]
    rw [h.queue, List.range'_concat, List.map_append, Nat.add_comm 1, Nat.one_mul]
    rfl
  · simpa [State.goto] using h.holder
  · intro c lo hi
    rcases Nat.lt_or_eq_of_le hi with earlier | rfl
    · have : c ≠ i + 1 := by omega
      simpa [State.goto, Function.update_of_ne, *] using h.waits c lo (by omega)
    · simpa [State.goto] using h.push.2
  · intro c later
    have : c ≠ i + 1 := by omega
    simpa [State.goto, Function.update_of_ne, *] using h.fresh c later

/-- As long as the ring has room, one worker after another comes to wait. -/
theorem waiting (k : Nat) {i : Nat} (started : i ≤ k) (room : i ≤ capacity) :
    Leads (system k) (initial k) (Waiting k i) := by
  induction i with
  | zero => exact acquires k
  | succ i ih =>
    refine (ih (by omega) (by omega)).trans fun t h => ?_
    exact (h.arrives started).trans fun u arrived => arrived.waits_next room

theorem Waiting.holding {k : Nat} {t : Thread} (h : Waiting k k t) :
    Holding k 0 [.unlock] 0 t := by
  refine ⟨h.stack, h.m_state, h.queue, ⟨h.holder, ?_⟩, fun c lo => absurd lo (Nat.not_lt_zero c),
    h.waits, h.sections⟩
  rw [h.driver, Nat.sub_self]
  rfl

theorem Holding.running {k j n : Nat} {left : List Stmt} {t : Thread} (h : Holding k j left n t) :
    t.stack = j :: (List.range j).reverse := by
  rw [h.stack, List.range_succ, List.reverse_append]
  rfl

theorem Holding.hands {k j n : Nat} {t : Thread} (h : Holding k j [.unlock] n t) (more : j < k) :
    Leads (system k) t (Holding k (j + 1) [.critical, .unlock] n) := by
  have remaining : k - j = k - (j + 1) + 1 := by omega
  have next := h.waits (j + 1) (Nat.lt_succ_self j) more
  have queue : t.lock.m_queue =
      (j + 1, false) :: (List.range' (j + 1 + 1) (k - (j + 1))).map (·, false) := by
    rw [h.queue, remaining, List.range'_succ, List.map_cons]
  have shared : ¬ t.lock.m_state = 1 := by have := h.m_state; omega
  have other : j + 1 ≠ j := Nat.succ_ne_self j
  refine proceeds (step_unlock h.running h.holder.1 h.holder.2) ?_
  refine proceeds (step_fetchSub h.running (Function.update_self ..)) ?_
  refine proceeds (step_pop h.running ?_ queue) ?_
  · simp [State.goto, shared]
  refine proceeds (step_resume h.running (Function.update_self ..) ?_) (.now ?_)
  · simpa [State.goto, Function.update_of_ne, other] using next.1
  refine ⟨?_, ?_, rfl, ?_, ?_, ?_, h.sections⟩
  · rw [List.range_succ, List.reverse_append, ← h.stack]
    rfl
  · have := h.m_state
    simp only [State.goto]
    omega
  · simpa [State.goto] using next.2
  · intro c earlier
    rcases Nat.lt_or_eq_of_le (Nat.lt_succ_iff.mp earlier) with before | rfl
    · have : c ≠ j + 1 := by omega
      have : c ≠ j := by omega
      simpa [State.goto, Function.update_of_ne, *] using h.returned c before
    · simp [State.goto]
  · intro c later hi
    have : c ≠ j + 1 := by omega
    have : c ≠ j := by omega
    simpa [State.goto, Function.update_of_ne, *] using h.waits c (by omega) hi

theorem Holding.section {k j : Nat} {t : Thread}
    (h : Holding k (j + 1) [.critical, .unlock] j t) :
    Leads (system k) t (Holding k (j + 1) [.unlock] (j + 1)) := by
  refine proceeds (step_critical h.running h.holder.1 h.holder.2) (.now ?_)
  refine ⟨h.stack, h.m_state, h.queue, ⟨h.holder.1, Function.update_self ..⟩, ?_, ?_, ?_⟩
  · intro c earlier
    have : c ≠ j + 1 := by omega
    simpa [Function.update_of_ne, *] using h.returned c earlier
  · intro c later hi
    have : c ≠ j + 1 := by omega
    simpa [Function.update_of_ne, *] using h.waits c later hi
  · simp only
    rw [h.sections, List.range'_concat, Nat.add_comm 1, Nat.one_mul]

theorem holding {k : Nat} (room : k ≤ capacity) {j : Nat} (handed : j ≤ k) :
    Leads (system k) (initial k) (Holding k j [.unlock] j) := by
  induction j with
  | zero => exact (waiting k (Nat.le_refl k) room).trans fun t h => .now h.holding
  | succ j ih =>
    refine (ih (by omega)).trans fun t h => ?_
    exact (h.hands handed).trans fun u entered => entered.section

theorem Holding.frees {k : Nat} {t : Thread} (h : Holding k k [.unlock] k t) :
    Leads (system k) t (Returning k (k + 1)) := by
  have alone : t.lock.m_state = 1 := by have := h.m_state; omega
  refine proceeds (step_unlock h.running h.holder.1 h.holder.2) ?_
  refine proceeds (step_fetchSub h.running (Function.update_self ..)) (.now ?_)
  refine ⟨h.stack, ?_, ?_, h.sections⟩
  · simp only [State.goto]
    omega
  · intro c started
    rcases Nat.lt_or_eq_of_le (Nat.lt_succ_iff.mp started) with before | rfl
    · have : c ≠ k := by omega
      simpa [State.goto, Function.update_of_ne, *] using h.returned c before
    · simp [State.goto, alone]

theorem Returning.ends {k n : Nat} {t : Thread} (h : Returning k n t) :
    Leads (system k) t (Returning k 0) := by
  induction n generalizing t with
  | zero => exact .now h
  | succ n ih =>
    have last := h.returned n (Nat.lt_succ_self n)
    have running : t.stack = n :: (List.range n).reverse := by
      rw [h.stack, List.range_succ, List.reverse_append]
      rfl
    refine proceeds (step_return running last.1 last.2) (ih ?_)
    exact ⟨rfl, h.m_state, fun c earlier => h.returned c (by omega), h.sections⟩

theorem accepts_of_room {k : Nat} (room : k ≤ capacity) : AcceptsAll k := by
  refine ⟨fun i lo hi => ?_, ?_⟩
  · exact (waiting k hi (by omega)).trans fun t h => .now (h.waits i lo (Nat.le_refl i)).1
  · refine (holding room (Nat.le_refl k)).trans fun t h => ?_
    refine h.frees.trans fun u freed => freed.ends.trans fun v ended => .now ?_
    exact ⟨ended.stack, ended.sections, ended.m_state⟩

/-- With the ring full the next worker retries its push for ever. -/
theorem livelock {k : Nat} (many : capacity < k) :
    Leads (system k) (initial k) fun t => step t () = some t := by
  refine (waiting k (by omega) (Nat.le_refl capacity)).trans fun t h => ?_
  refine (h.arrives many).trans fun u arrived => .now ?_
  refine step_refused arrived.stack arrived.push.1 ?_
  rw [arrived.queue, List.length_map, List.length_range']
  exact Nat.lt_irrefl capacity

theorem not_accepts {k : Nat} (many : capacity < k) : ¬ AcceptsAll k := by
  intro accepts
  obtain ⟨as, t, run, repeats⟩ := livelock many
  obtain ⟨bs, u, other, returned, -⟩ := accepts.2
  refine replay_livelock as bs run repeats other fun a => ?_
  change step u a = none
  simp only [step, returned]

theorem accepts_iff (k : Nat) : AcceptsAll k ↔ k ≤ capacity :=
  ⟨fun accepts => Nat.le_of_not_lt fun many => not_accepts many accepts, accepts_of_room⟩

theorem refuses_1025 : ¬ AcceptsAll 1025 := not_accepts (by decide)

end Pot.AsyncLockThread
