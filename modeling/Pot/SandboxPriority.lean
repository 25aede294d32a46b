import Mathlib.Algebra.Order.Ring.Nat
import Mathlib.Data.List.Perm.Basic
import Mathlib.Logic.Function.Basic
import Pot.Transition

/-! The queue of thread_pool_executor_gpq (sandbox/thread_pool_executor.h): derived_execute and the
part of worker_loop that takes a task, one access of shared state a step. How workers wait is in
Pot.Sandbox. std::priority_queue gives some maximal element of operator<. -/
namespace Pot.SandboxPriority
open Transition

def increment (v : Nat) : Nat := (v + 1) % 2 ^ 64

/-- `submission` counts the submissions without end; the code has its 64 low bits. -/
structure TaskItem (Func : Type) where
  func : Func
  priority : Nat
  sequence : Nat
  submission : Nat
  deriving DecidableEq

variable {Func Tid Wid : Type}

def TaskItem.less (x other : TaskItem Func) : Bool :=
  if x.priority = other.priority then x.sequence > other.sequence
  else x.priority > other.priority

/-- top() may give this element: no other is greater. -/
def Maximal (tasks : List (TaskItem Func)) (x : TaskItem Func) : Prop :=
  ∀ y ∈ tasks, x.less y = false

instance (tasks : List (TaskItem Func)) (x : TaskItem Func) : Decidable (Maximal tasks x) :=
  inferInstanceAs (Decidable (∀ y ∈ tasks, _))

inductive Call (Func : Type) where
  | idle
  | loadStop (func : Func) (run_count : Option Nat)
  | loadCount (func : Func) (run_count : Option Nat)
  | lock (func : Func) (priority : Nat)
  | push (func : Func) (priority : Nat)
  | unlock
  | threw

inductive Worker (Func : Type) where
  | lock
  | take
  | unlock (task : Option Func)
  | run (task : Func)

inductive Owner (Tid Wid : Type) where
  | call (i : Tid)
  | worker (w : Wid)

structure State (Func Tid Wid : Type) where
  m_stop : Bool
  tasks : List (TaskItem Func)
  mtx : Option (Owner Tid Wid)
  seq_counter : Nat
  call : Tid → Call Func
  worker : Wid → Worker Func
  /-- What has been pushed and what has been removed, in this order: for the statements only. -/
  submitted : List (TaskItem Func)
  removed : List (TaskItem Func)

inductive Act (Func Tid Wid : Type) where
  | execute (i : Tid) (func : Func) (run_count : Option Nat)
  | call (i : Tid)
  /-- `k`: the place of the element that top() gives -/
  | worker (w : Wid) (k : Nat)
  | stop

def initial (Func Tid Wid : Type) : State Func Tid Wid where
  m_stop := false
  tasks := []
  mtx := none
  seq_counter := 0
  call _ := .idle
  worker _ := .lock
  submitted := []
  removed := []

variable [DecidableEq Tid] [DecidableEq Wid]

def State.setCall (s : State Func Tid Wid) (i : Tid) (p : Call Func) : State Func Tid Wid :=
  { s with call := Function.update s.call i p }

def State.setWorker (s : State Func Tid Wid) (w : Wid) (p : Worker Func) : State Func Tid Wid :=
  { s with worker := Function.update s.worker w p }

def State.item (s : State Func Tid Wid) (func : Func) (priority : Nat) : TaskItem Func :=
  ⟨func, priority, s.seq_counter, s.submitted.length⟩

def callStep (s : State Func Tid Wid) (i : Tid) : Call Func → Option (State Func Tid Wid)
  | .idle | .threw => none
  | .loadStop func run_count =>
    some (s.setCall i (if s.m_stop then .threw else .loadCount func run_count))
  | .loadCount func run_count => some (s.setCall i (.lock func (run_count.getD 0)))
  | .lock func priority =>
    match s.mtx with
    | none => some ({ s with mtx := some (.call i) }.setCall i (.push func priority))
    | some _ => none
  | .push func priority =>
    some ({ s with
      tasks := s.tasks ++ [s.item func priority]
      seq_counter := increment s.seq_counter
      submitted := s.submitted ++ [s.item func priority] }.setCall i .unlock)
  | .unlock => some ({ s with mtx := none }.setCall i .idle)

def workerStep (s : State Func Tid Wid) (w : Wid) (k : Nat) :
    Worker Func → Option (State Func Tid Wid)
  | .lock =>
    match s.mtx with
    | none => some ({ s with mtx := some (.worker w) }.setWorker w .take)
    | some _ => none
  | .take =>
    if s.tasks.isEmpty then some (s.setWorker w (.unlock none))
    else match s.tasks[k]? with
      | some x =>
        if Maximal s.tasks x then
          some ({ s with
            tasks := s.tasks.eraseIdx k
            removed := s.removed ++ [x] }.setWorker w (.unlock (some x.func)))
        else none
      | none => none
  | .unlock (some task) => some ({ s with mtx := none }.setWorker w (.run task))
  | .unlock none => some ({ s with mtx := none }.setWorker w .lock)
  | .run _ => some (s.setWorker w .lock)

def step (s : State Func Tid Wid) : Act Func Tid Wid → Option (State Func Tid Wid)
  | .execute i func run_count =>
    match s.call i with
    | .idle => some (s.setCall i (.loadStop func run_count))
    | _ => none
  | .call i => callStep s i (s.call i)
  | .worker w k => workerStep s w k (s.worker w)
  | .stop => some { s with m_stop := true }

def system (Func Tid Wid : Type) [DecidableEq Tid] [DecidableEq Wid] :
    System (State Func Tid Wid) (Act Func Tid Wid) where
  start s := s = initial Func Tid Wid
  step := step

/-- The lexicographic order of run_count and submission number. -/
def TaskItem.Before (x y : TaskItem Func) : Prop :=
  x.priority < y.priority ∨ x.priority = y.priority ∧ x.submission < y.submission

/-- The counter has not wrapped between any two of the queued submissions. -/
def OneBlock (tasks : List (TaskItem Func)) : Prop :=
  ∀ x ∈ tasks, ∀ y ∈ tasks, x.submission / 2 ^ 64 = y.submission / 2 ^ 64

/-- Tasks are taken only out of such a queue. -/
def Orderly (s : State Func Tid Wid) : Act Func Tid Wid → Prop
  | .worker w _ => match s.worker w with
    | .take => OneBlock s.tasks
    | _ => True
  | _ => True

structure StrictTotal (tasks : List (TaskItem Func)) : Prop where
  irrefl : ∀ x ∈ tasks, x.less x = false
  trans : ∀ x ∈ tasks, ∀ y ∈ tasks, ∀ z ∈ tasks, x.less y = true → y.less z = true →
    x.less z = true
  total : ∀ x ∈ tasks, ∀ y ∈ tasks, x ≠ y → x.less y = true ∨ y.less x = true

def Removes (s : State Func Tid Wid) (x : TaskItem Func) : Prop :=
  ∃ w k t, step s (.worker w k) = some t ∧ t.removed = s.removed ++ [x]

/-- What a removal says of the queue it is from. -/
structure Dispatches (s : State Func Tid Wid) : Prop where
  least : ∀ x, Removes s x → x ∈ s.tasks ∧ ∀ y ∈ s.tasks, x.priority ≤ y.priority
  strict : OneBlock s.tasks → StrictTotal s.tasks
  first : OneBlock s.tasks → ∀ x, Removes s x → ∀ y ∈ s.tasks, y ≠ x → x.Before y
  soon : s.submitted.length ≤ 2 ^ 64 → OneBlock s.tasks

/-- Tasks of one run_count leave in the order of their submission. -/
structure InOrder (s : State Func Tid Wid) : Prop where
  removed : s.removed.Pairwise fun x y => x.priority = y.priority → x.submission < y.submission
  queued : ∀ x ∈ s.removed, ∀ y ∈ s.tasks, x.priority = y.priority → x.submission < y.submission

theorem less_irrefl (x : TaskItem Func) : x.less x = false := by simp [TaskItem.less]

theorem less_trans {x y z : TaskItem Func} (first : x.less y = true) (second : y.less z = true) :
    x.less z = true := by
  unfold TaskItem.less at *
  grind

/-- Sequence numbers of one block are in the order of the submissions. -/
theorem less_iff {x y : TaskItem Func} (block : x.submission / 2 ^ 64 = y.submission / 2 ^ 64)
    (left : x.sequence = x.submission % 2 ^ 64) (right : y.sequence = y.submission % 2 ^ 64) :
    x.less y = true ↔ y.Before x := by
  unfold TaskItem.less TaskItem.Before
  split
  · rw [decide_eq_true_eq]
    omega
  · rw [decide_eq_true_eq]
    omega

theorem least_priority {tasks : List (TaskItem Func)} {x y : TaskItem Func} (top : Maximal tasks x)
    (mem : y ∈ tasks) : x.priority ≤ y.priority := by
  have not_less := top y mem
  unfold TaskItem.less at not_less
  split at not_less
  · exact Nat.le_of_eq ‹_›
  · exact Nat.le_of_not_lt (of_decide_eq_false not_less)

/-- What is queued and what has been removed has been submitted, with its number. -/
structure Inv (s : State Func Tid Wid) : Prop where
  counter : s.seq_counter = s.submitted.length % 2 ^ 64
  numbers : ∀ k x, s.submitted[k]? = some x → x.submission = k ∧ x.sequence = k % 2 ^ 64
  kept : (s.tasks ++ s.removed).Perm s.submitted

theorem step_cases {s t : State Func Tid Wid} {a : Act Func Tid Wid} (taken : step s a = some t) :
    (t.tasks = s.tasks ∧ t.removed = s.removed ∧ t.submitted = s.submitted ∧
        t.seq_counter = s.seq_counter) ∨
      (∃ func priority, t.tasks = s.tasks ++ [s.item func priority] ∧ t.removed = s.removed ∧
        t.submitted = s.submitted ++ [s.item func priority] ∧
        t.seq_counter = increment s.seq_counter) ∨
      ∃ w k x, a = .worker w k ∧ s.worker w = .take ∧ s.tasks[k]? = some x ∧ Maximal s.tasks x ∧
        t.tasks = s.tasks.eraseIdx k ∧ t.removed = s.removed ++ [x] ∧ t.submitted = s.submitted ∧
        t.seq_counter = s.seq_counter := by
  cases a with
  | execute i func run_count =>
    simp only [step] at taken
    split at taken <;> cases taken
    exact .inl ⟨rfl, rfl, rfl, rfl⟩
  | call i =>
    simp only [step] at taken
    cases hc : s.call i with
    | idle | threw => rw [hc] at taken; cases taken
    | loadStop | loadCount | unlock =>
      rw [hc] at taken
      cases taken
      exact .inl ⟨rfl, rfl, rfl, rfl⟩
    | lock =>
      rw [hc] at taken
      simp only [callStep] at taken
      split at taken <;> cases taken
      exact .inl ⟨rfl, rfl, rfl, rfl⟩
    | push func priority =>
      rw [hc] at taken
      cases taken
      exact .inr (.inl ⟨func, priority, rfl, rfl, rfl, rfl⟩)
  | worker w k =>
    simp only [step] at taken
    cases hw : s.worker w with
    | lock =>
      rw [hw] at taken
      simp only [workerStep] at taken
      split at taken <;> cases taken
      exact .inl ⟨rfl, rfl, rfl, rfl⟩
    | take =>
      rw [hw] at taken
      simp only [workerStep] at taken
      split at taken
      · cases taken
        exact .inl ⟨rfl, rfl, rfl, rfl⟩
      · split at taken
        · split at taken <;> cases taken
          exact .inr (.inr ⟨w, k, _, rfl, hw, ‹_›, ‹_›, rfl, rfl, rfl, rfl⟩)
        · cases taken
    | unlock task =>
      rw [hw] at taken
      cases task <;> cases taken <;> exact .inl ⟨rfl, rfl, rfl, rfl⟩
    | run =>
      rw [hw] at taken
      cases taken
      exact .inl ⟨rfl, rfl, rfl, rfl⟩
  | stop =>
    cases taken
    exact .inl ⟨rfl, rfl, rfl, rfl⟩

theorem removed_perm {tasks : List (TaskItem Func)} {k : Nat} {x : TaskItem Func}
    (at_k : tasks[k]? = some x) : (x :: tasks.eraseIdx k).Perm tasks := by
  obtain ⟨inside, rfl⟩ := List.getElem?_eq_some_iff.mp at_k
  exact List.getElem_cons_eraseIdx_perm inside

theorem step_inv {s t : State Func Tid Wid} {a : Act Func Tid Wid} (h : Inv s)
    (taken : step s a = some t) : Inv t := by
  rcases step_cases taken with ⟨tasks, removed, submitted, counter⟩ |
    ⟨func, priority, tasks, removed, submitted, counter⟩ |
    ⟨w, k, x, -, -, at_k, -, tasks, removed, submitted, counter⟩
  · refine ⟨?_, ?_, ?_⟩
    · rw [counter, submitted]
      exact h.counter
    · rw [submitted]
      exact h.numbers
    · rw [tasks, removed, submitted]
      exact h.kept
  · refine ⟨?_, fun k x at_k => ?_, ?_⟩
    · rw [counter, submitted, h.counter, increment, List.length_append, List.length_singleton]
      omega
    · rw [submitted] at at_k
      rcases Nat.lt_or_ge k s.submitted.length with before | after
      · rw [List.getElem?_append_left before] at at_k
        exact h.numbers k x at_k
      · rw [List.getElem?_append_right after, List.getElem?_singleton] at at_k
        split at at_k
        · cases at_k
          have last : k = s.submitted.length := by omega
          exact ⟨last.symm, last ▸ h.counter⟩
        · cases at_k
    · rw [tasks, removed, submitted, List.append_assoc]
      refine (List.perm_append_comm.append_left _).trans ?_
      rw [← List.append_assoc]
      exact h.kept.append_right _
  · refine ⟨?_, ?_, ?_⟩
    · rw [counter, submitted]
      exact h.counter
    · rw [submitted]
      exact h.numbers
    · rw [tasks, removed, submitted]
      refine List.Perm.trans ?_ h.kept
      rw [← List.append_assoc]
      refine List.perm_append_comm.trans ?_
      rw [← List.append_assoc]
      exact (removed_perm at_k).append_right s.removed

theorem reached_inv {s : State Func Tid Wid} (reached : Reached (system Func Tid Wid) s) : Inv s :=
  reached.invariant (I := Inv)
    (fun s (eq : s = initial Func Tid Wid) => eq ▸ ⟨rfl, fun _ _ at_k => (by cases at_k), .refl _⟩)
    fun _ _ _ h taken => step_inv h taken

section Numbers
omit [DecidableEq Tid] [DecidableEq Wid]
variable {s : State Func Tid Wid} (h : Inv s)
include h

theorem Inv.number {x : TaskItem Func} (mem : x ∈ s.submitted) :
    x.submission < s.submitted.length ∧ x.sequence = x.submission % 2 ^ 64 := by
  obtain ⟨k, at_k⟩ := List.mem_iff_getElem?.mp mem
  obtain ⟨rfl, sequence⟩ := h.numbers k x at_k
  exact ⟨(List.getElem?_eq_some_iff.mp at_k).1, sequence⟩

theorem Inv.nodup : s.tasks.Nodup := by
  have distinct : s.submitted.Nodup := by
    rw [List.nodup_iff_pairwise_ne, List.pairwise_iff_getElem]
    intro i j inside inside' before same
    have left := (h.numbers i _ (List.getElem?_eq_getElem inside)).1
    have right := (h.numbers j _ (List.getElem?_eq_getElem inside')).1
    rw [same] at left
    omega
  exact (List.nodup_append.mp (h.kept.nodup_iff.mpr distinct)).1

theorem Inv.queued {x : TaskItem Func} (mem : x ∈ s.tasks) : x ∈ s.submitted :=
  h.kept.mem_iff.mp (List.mem_append_left _ mem)

theorem Inv.apart {x y : TaskItem Func} (mem : x ∈ s.tasks) (mem' : y ∈ s.tasks)
    (different : x ≠ y) : x.submission ≠ y.submission := by
  obtain ⟨i, at_i⟩ := List.mem_iff_getElem?.mp (h.queued mem)
  obtain ⟨j, at_j⟩ := List.mem_iff_getElem?.mp (h.queued mem')
  intro same
  have left := (h.numbers i x at_i).1
  have right := (h.numbers j y at_j).1
  have index : i = j := by omega
  rw [index, at_j] at at_i
  exact different (Option.some.inj at_i).symm

theorem Inv.less_iff (block : OneBlock s.tasks) {x y : TaskItem Func} (mem : x ∈ s.tasks)
    (mem' : y ∈ s.tasks) : x.less y = true ↔ y.Before x :=
  SandboxPriority.less_iff (block x mem y mem') (h.number (h.queued mem)).2
    (h.number (h.queued mem')).2

theorem Inv.strict (block : OneBlock s.tasks) : StrictTotal s.tasks where
  irrefl x _ := less_irrefl x
  trans _ _ _ _ _ _ := less_trans
  total x mem y mem' different := by
    have apart := h.apart mem mem' different
    rw [h.less_iff block mem mem', h.less_iff block mem' mem]
    unfold TaskItem.Before
    omega

theorem Inv.first (block : OneBlock s.tasks) {x y : TaskItem Func} (mem : x ∈ s.tasks)
    (top : Maximal s.tasks x) (mem' : y ∈ s.tasks) (different : y ≠ x) : x.Before y := by
  rcases (h.strict block).total x mem y mem' different.symm with greater | less
  · cases greater.symm.trans (top y mem')
  · exact (h.less_iff block mem' mem).mp less

theorem Inv.soon (few : s.submitted.length ≤ 2 ^ 64) : OneBlock s.tasks := by
  intro x mem y mem'
  have left := (h.number (h.queued mem)).1
  have right := (h.number (h.queued mem')).1
  rw [Nat.div_eq_of_lt (by omega), Nat.div_eq_of_lt (by omega)]

end Numbers

theorem removes_cases {s : State Func Tid Wid} {x : TaskItem Func} (removes : Removes s x) :
    x ∈ s.tasks ∧ Maximal s.tasks x := by
  obtain ⟨w, k, t, taken, mine⟩ := removes
  rcases step_cases taken with ⟨_, removed, _, _⟩ | ⟨_, _, _, removed, _, _⟩ |
    ⟨_, j, y, -, -, at_j, top, -, removed, _, _⟩
  · rw [removed] at mine
    exact absurd mine (by simp)
  · rw [removed] at mine
    exact absurd mine (by simp)
  · rw [removed] at mine
    obtain rfl := List.singleton_inj.mp (List.append_cancel_left mine)
    exact ⟨List.mem_of_getElem? at_j, top⟩

theorem dispatches {s : State Func Tid Wid} (h : Inv s) : Dispatches s where
  least x removes := by
    obtain ⟨mem, top⟩ := removes_cases removes
    exact ⟨mem, fun y => least_priority top⟩
  strict := h.strict
  first block x removes y mem different := by
    obtain ⟨mine, top⟩ := removes_cases removes
    exact h.first block mine top mem different
  soon := h.soon

theorem step_inOrder {s t : State Func Tid Wid} {a : Act Func Tid Wid} (h : Inv s)
    (ordered : InOrder s) (ok : Orderly s a) (taken : step s a = some t) : InOrder t := by
  rcases step_cases taken with ⟨tasks, removed, -, -⟩ | ⟨func, priority, tasks, removed, -, -⟩ |
    ⟨w, k, x, rfl, at_take, at_k, top, tasks, removed, -, -⟩
  · refine ⟨?_, ?_⟩
    · rw [removed]
      exact ordered.removed
    · rw [removed, tasks]
      exact ordered.queued
  · refine ⟨?_, fun x gone y mem same => ?_⟩
    · rw [removed]
      exact ordered.removed
    · rw [removed] at gone
      rw [tasks] at mem
      rcases List.mem_append.mp mem with before | last
      · exact ordered.queued x gone y before same
      · rw [List.mem_singleton.mp last]
        exact (h.number (h.kept.mem_iff.mp (List.mem_append_right _ gone))).1
  · simp only [Orderly, at_take] at ok
    have mine := List.mem_of_getElem? at_k
    have split := removed_perm at_k
    refine ⟨?_, fun z gone y mem same => ?_⟩
    · rw [removed]
      refine List.pairwise_append.mpr ⟨ordered.removed, List.pairwise_singleton _ _, ?_⟩
      intro z gone y last
      rw [List.mem_singleton.mp last]
      exact ordered.queued z gone x mine
    · rw [tasks] at mem
      have here := split.mem_iff.mp (List.mem_cons_of_mem x mem)
      rw [removed] at gone
      rcases List.mem_append.mp gone with before | last
      · exact ordered.queued z before y here same
      · rw [List.mem_singleton.mp last] at same ⊢
        have different : y ≠ x := fun again =>
          (List.nodup_cons.mp (split.nodup_iff.mpr h.nodup)).1 (again ▸ mem)
        rcases h.first ok mine top here different with less | ⟨-, before⟩
        · omega
        · exact before

/-- A removal takes a task of the least run_count, the one submitted first if the counter has not
wrapped in between; and in runs of such removals tasks of one run_count leave as they came. -/
theorem dispatch_order (Func Tid Wid : Type) [DecidableEq Tid] [DecidableEq Wid] :
    (∀ s, Reached (system Func Tid Wid) s → Dispatches s) ∧
      ∀ s, ReachedUnder (system Func Tid Wid) Orderly s → InOrder s := by
  refine ⟨fun s reached => dispatches (reached_inv reached), fun s reached => ?_⟩
  induction reached with
  | start eq =>
    cases eq
    exact ⟨List.Pairwise.nil, fun x gone => absurd gone List.not_mem_nil⟩
  | next before ok taken ih => exact step_inOrder (reached_inv before.reached) ih ok taken

/-- The worker has the lock, and three tasks are queued. -/
def threeQueued : State Nat Bool Unit :=
  (replay (system Nat Bool Unit) (initial Nat Bool Unit)
    ([(false, 1, some 5), (true, 2, none), (false, 3, some 0)].flatMap
      (fun (i, func, run_count) => .execute i func run_count :: List.replicate 5 (.call i)) ++
        [.worker () 0])).get (by decide)

theorem dispatch_order_three : ∀ x, Removes threeQueued x → x.func = 2 := by
  intro x removes
  have reached : Reached (system Nat Bool Unit) threeQueued :=
    (Reached.start rfl).replay _ (Option.some_get _).symm
  have dispatched := (dispatch_order Nat Bool Unit).1 threeQueued reached
  by_contra other
  have second : (⟨2, 0, 1, 1⟩ : TaskItem Nat) ∈ threeQueued.tasks := by decide
  have first := dispatched.first (dispatched.soon (by decide)) x removes _ second
    fun same => other (same ▸ rfl)
  have third : ∀ y ∈ threeQueued.tasks, ¬ y.Before ⟨2, 0, 1, 1⟩ := by
    unfold TaskItem.Before
    decide
  exact third x (dispatched.least x removes).1 first

def quiet (tasks submitted removed : List (TaskItem Unit)) : State Unit Unit Unit where
  m_stop := false
  tasks := tasks
  mtx := none
  seq_counter := submitted.length % 2 ^ 64
  call _ := .idle
  worker _ := .lock
  submitted := submitted
  removed := removed

def numbered (n : Nat) : TaskItem Unit := ⟨(), 0, n % 2 ^ 64, n⟩

theorem submit_run (tasks submitted removed : List (TaskItem Unit)) :
    replay (system Unit Unit Unit) (quiet tasks submitted removed)
      (.execute () () none :: List.replicate 5 (.call ())) =
        some (quiet (tasks ++ [numbered submitted.length])
          (submitted ++ [numbered submitted.length]) removed) := by
  have counted : increment (submitted.length % 2 ^ 64) = (submitted.length + 1) % 2 ^ 64 := by
    unfold increment
    omega
  simp only [replay, system, step, callStep, quiet, State.setCall, State.item, numbered,
    Function.update_eq_const_of_subsingleton, List.replicate, Option.bind_some, Function.const_apply,
    Bool.false_eq_true, ↓reduceIte, Option.getD_none, List.length_append, List.length_singleton,
    counted]
  rfl

theorem remove_run {tasks submitted removed : List (TaskItem Unit)} {k : Nat} {x : TaskItem Unit}
    (at_k : tasks[k]? = some x) (top : Maximal tasks x) :
    replay (system Unit Unit Unit) (quiet tasks submitted removed)
      (List.replicate 4 (.worker () k)) =
        some (quiet (tasks.eraseIdx k) submitted (removed ++ [x])) := by
  have busy : tasks ≠ [] := fun none_queued => by
    rw [none_queued] at at_k
    cases at_k
  simp [replay, system, step, workerStep, quiet, State.setWorker, at_k, top, busy,
    Function.update_eq_const_of_subsingleton, List.replicate]
  rfl

theorem quiet_reached (n : Nat) : ∃ submitted removed, submitted.length = n ∧
    Reached (system Unit Unit Unit) (quiet [] submitted removed) := by
  induction n with
  | zero => exact ⟨[], [], rfl, .start rfl⟩
  | succ n ih =>
    obtain ⟨submitted, removed, length, reached⟩ := ih
    have pushed := reached.replay _ (submit_run [] submitted removed)
    have taken := pushed.replay _ (remove_run (k := 0) (x := numbered submitted.length) rfl
      (fun y mem => List.mem_singleton.mp mem ▸ less_irrefl _))
    exact ⟨_, _, by rw [List.length_append, length, List.length_singleton], taken⟩

/-- The submission after 2 ^ 64 others has sequence 0 again, and goes before the one in front. -/
theorem later_submission_first :
    ¬ ∀ s, Reached (system Unit Unit Unit) s → ∀ x, Removes s x → ∀ y ∈ s.tasks, y ≠ x →
      x.Before y := by
  intro claim
  obtain ⟨submitted, removed, length, reached⟩ := quiet_reached (2 ^ 64 - 1)
  have one := reached.replay _ (submit_run [] submitted removed)
  have two := one.replay _ (submit_run ([] ++ [numbered submitted.length])
    (submitted ++ [numbered submitted.length]) removed)
  rw [List.length_append, length, List.length_singleton, List.nil_append] at two
  have locked := two.next (a := .worker () 0) rfl
  have before := claim _ locked (numbered (2 ^ 64 - 1 + 1)) ⟨(), 1, _, rfl, rfl⟩
    (numbered (2 ^ 64 - 1)) List.mem_cons_self (by decide)
  revert before
  unfold TaskItem.Before
  decide

end Pot.SandboxPriority
