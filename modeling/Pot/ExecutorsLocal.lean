import Pot.Executors

/-! executors/thread_pool_executor.h, the pools of threads with a queue each:
thread_pool_executor_lq on pot::thread and thread_pool_executor_lflq on pot::thread_lf. Modelled
are m_threads and who uses it, not what a thread does with its queue. Any number of
derived_execute and shutdown calls; a step is one access of shared state. -/
namespace Pot.ExecutorsLocal
open Transition

structure ThreadClass where
  Access : Type
  first : Access
  next : Access → Option Access
  /-- It may fail, and run() tries it again. -/
  fails : Access → Bool

def pot_thread : ThreadClass where
  Access := Thread.Call
  first := .lock
  next
    | .lock => some .emplace
    | .emplace => some .unlock
    | .unlock => some .notifyOne
    | .notifyOne | .idle | .returned => none
  fails _ := false

def pot_thread_lf : ThreadClass where
  Access := ThreadLf.Call
  first := .claim
  next
    | .claim => some .publish
    | .publish => some .storeTrue
    | .storeTrue => some .notifyOne
    | .notifyOne | .idle | .returned => none
  -- push answers false when the queue is full
  fails
    | .claim => true
    | _ => false

structure Config where
  cls : ThreadClass
  m_name : String

def thread_pool_executor_lq (name : String) : Config := ⟨pot_thread, name⟩
def thread_pool_executor_lflq (name : String) : Config := ⟨pot_thread_lf, name⟩

/-- derived_execute, by the access that comes next. -/
inductive Call (cls : ThreadClass) (n : Nat) where
  | idle
  | loadStop
  | index
  | run (idx : Fin n) (access : cls.Access)
  | returned
  | threw (what : String)
  | divisionByZero
  | dangling

/-- shutdown, by the access that comes next. -/
inductive Shutdown where
  | idle
  | exchange
  | requestStop (thread : Nat)
  | join (thread : Nat)
  | destroy (thread : Nat)
  | returned
  deriving DecidableEq

structure State (cls : ThreadClass) (Sid Kid : Type) (n : Nat) where
  m_stop : Bool
  size : Nat
  m_next_thread_idx : Nat
  alive : Fin n → Bool
  stop_requested : Fin n → Bool
  left : Fin n → Bool
  call : Sid → Call cls n
  shutdown : Kid → Shutdown

inductive Act (Sid Kid : Type) (n : Nat) where
  | execute (sid : Sid)
  | call (sid : Sid)
  /-- an access of run() that fails -/
  | fail (sid : Sid)
  | worker (i : Fin n)
  | shutdown (k : Kid)
  | stop (k : Kid)

variable {cls : ThreadClass} {Sid Kid : Type} {n : Nat}

def initial (cls : ThreadClass) (Sid Kid : Type) (n : Nat) : State cls Sid Kid n where
  m_stop := false
  size := n
  m_next_thread_idx := 0
  alive _ := true
  stop_requested _ := false
  left _ := false
  call _ := .idle
  shutdown _ := .idle

variable [DecidableEq Sid] [DecidableEq Kid] [NeZero n]

def State.setCall (s : State cls Sid Kid n) (sid : Sid) (p : Call cls n) : State cls Sid Kid n :=
  { s with call := Function.update s.call sid p }

def State.setShutdown (s : State cls Sid Kid n) (k : Kid) (p : Shutdown) : State cls Sid Kid n :=
  { s with shutdown := Function.update s.shutdown k p }

def Call.after (access : Option cls.Access) (idx : Fin n) : Call cls n :=
  match access with
  | some access => .run idx access
  | none => .returned

def callStep (cfg : Config) (s : State cfg.cls Sid Kid n) (sid : Sid) :
    Call cfg.cls n → Option (State cfg.cls Sid Kid n)
  | .loadStop =>
    some (s.setCall sid
      (if s.m_stop then .threw ("Executor " ++ cfg.m_name ++ " is stopped.") else .index))
  | .index =>
    some ({ s with m_next_thread_idx := s.m_next_thread_idx + 1 }.setCall sid
      (if s.size = 0 then .divisionByZero
       else .run (Fin.ofNat n (s.m_next_thread_idx % s.size)) cfg.cls.first))
  | .run idx access =>
    some (s.setCall sid (if s.alive idx then .after (cfg.cls.next access) idx else .dangling))
  | _ => none

def stopStep (s : State cls Sid Kid n) (k : Kid) : Shutdown → Option (State cls Sid Kid n)
  | .exchange =>
    some ({ s with m_stop := true }.setShutdown k (if s.m_stop then .returned else .requestStop 0))
  | .requestStop thread =>
    if h : thread < n then
      some ({ s with stop_requested := Function.update s.stop_requested ⟨thread, h⟩ true }.setShutdown
        k (.requestStop (thread + 1)))
    else some (s.setShutdown k (.join 0))
  | .join thread =>
    if h : thread < n then
      if s.left ⟨thread, h⟩ then some (s.setShutdown k (.join (thread + 1))) else none
    else some (s.setShutdown k (.destroy 0))
  | .destroy thread =>
    if h : thread < n then
      some ({ s with alive := Function.update s.alive ⟨thread, h⟩ false }.setShutdown k
        (.destroy (thread + 1)))
    else some ({ s with size := 0 }.setShutdown k .returned)
  | .idle | .returned => none

def step (cfg : Config) (s : State cfg.cls Sid Kid n) :
    Act Sid Kid n → Option (State cfg.cls Sid Kid n)
  | .execute sid =>
    match s.call sid with
    | .idle => some (s.setCall sid .loadStop)
    | _ => none
  | .call sid => callStep cfg s sid (s.call sid)
  | .fail sid =>
    match s.call sid with
    | .run idx access =>
      if cfg.cls.fails access then some (if s.alive idx then s else s.setCall sid .dangling) else none
    | _ => none
  | .worker i =>
    if s.stop_requested i then some { s with left := Function.update s.left i true } else none
  | .shutdown k =>
    match s.shutdown k with
    | .idle => some (s.setShutdown k .exchange)
    | _ => none
  | .stop k => stopStep s k (s.shutdown k)

def system (cfg : Config) (Sid Kid : Type) (n : Nat) [NeZero n] [DecidableEq Sid]
    [DecidableEq Kid] : System (State cfg.cls Sid Kid n) (Act Sid Kid n) where
  start s := s = initial cfg.cls Sid Kid n
  step := step cfg

inductive Steps (cfg : Config) (s : State cfg.cls Sid Kid n) :
    Act Sid Kid n → State cfg.cls Sid Kid n → Prop where
  | execute {sid} (at_pc : s.call sid = .idle) : Steps cfg s (.execute sid) (s.setCall sid .loadStop)
  | stopped {sid} (at_pc : s.call sid = .loadStop) (stop : s.m_stop = true) :
    Steps cfg s (.call sid) (s.setCall sid (.threw ("Executor " ++ cfg.m_name ++ " is stopped.")))
  | accepted {sid} (at_pc : s.call sid = .loadStop) (running : s.m_stop = false) :
    Steps cfg s (.call sid) (s.setCall sid .index)
  | divide {sid} (at_pc : s.call sid = .index) (none : s.size = 0) :
    Steps cfg s (.call sid)
      ({ s with m_next_thread_idx := s.m_next_thread_idx + 1 }.setCall sid .divisionByZero)
  | index {sid} (at_pc : s.call sid = .index) (some : s.size ≠ 0) :
    Steps cfg s (.call sid) ({ s with m_next_thread_idx := s.m_next_thread_idx + 1 }.setCall sid
      (.run (Fin.ofNat n (s.m_next_thread_idx % s.size)) cfg.cls.first))
  | run {sid idx access} (at_pc : s.call sid = .run idx access) (alive : s.alive idx = true) :
    Steps cfg s (.call sid) (s.setCall sid (.after (cfg.cls.next access) idx))
  | dangle {a sid idx access} (at_pc : s.call sid = .run idx access) (gone : s.alive idx = false) :
    Steps cfg s a (s.setCall sid .dangling)
  | fail {sid} : Steps cfg s (.fail sid) s
  | worker {i} (asked : s.stop_requested i = true) :
    Steps cfg s (.worker i) { s with left := Function.update s.left i true }
  | shutdown {k} (at_pc : s.shutdown k = .idle) : Steps cfg s (.shutdown k) (s.setShutdown k .exchange)
  | refused {k} (at_pc : s.shutdown k = .exchange) (stop : s.m_stop = true) :
    Steps cfg s (.stop k) (s.setShutdown k .returned)
  | exchange {k} (at_pc : s.shutdown k = .exchange) (running : s.m_stop = false) :
    Steps cfg s (.stop k) ({ s with m_stop := true }.setShutdown k (.requestStop 0))
  | request {k thread} (at_pc : s.shutdown k = .requestStop thread) (inside : thread < n) :
    Steps cfg s (.stop k)
      ({ s with stop_requested := Function.update s.stop_requested ⟨thread, inside⟩ true }.setShutdown
        k (.requestStop (thread + 1)))
  | requested {k thread} (at_pc : s.shutdown k = .requestStop thread) (outside : n ≤ thread) :
    Steps cfg s (.stop k) (s.setShutdown k (.join 0))
  | join {k thread} (at_pc : s.shutdown k = .join thread) (inside : thread < n)
    (left : s.left ⟨thread, inside⟩ = true) :
    Steps cfg s (.stop k) (s.setShutdown k (.join (thread + 1)))
  | joined {k thread} (at_pc : s.shutdown k = .join thread) (outside : n ≤ thread) :
    Steps cfg s (.stop k) (s.setShutdown k (.destroy 0))
  | destroy {k thread} (at_pc : s.shutdown k = .destroy thread) (inside : thread < n) :
    Steps cfg s (.stop k)
      ({ s with alive := Function.update s.alive ⟨thread, inside⟩ false }.setShutdown k
        (.destroy (thread + 1)))
  | cleared {k thread} (at_pc : s.shutdown k = .destroy thread) (outside : n ≤ thread) :
    Steps cfg s (.stop k) ({ s with size := 0 }.setShutdown k .returned)

theorem call_cases {cfg : Config} {s t : State cfg.cls Sid Kid n} {sid : Sid}
    (taken : callStep cfg s sid (s.call sid) = some t) : Steps cfg s (.call sid) t := by
  cases hc : s.call sid with
  | loadStop =>
    rw [hc] at taken
    cases taken
    split
    · exact .stopped hc ‹_›
    · exact .accepted hc (Bool.not_eq_true _ ▸ ‹_›)
  | index =>
    rw [hc] at taken
    cases taken
    split
    · exact .divide hc ‹_›
    · exact .index hc ‹_›
  | run idx access =>
    rw [hc] at taken
    cases taken
    split
    · exact .run hc ‹_›
    · exact .dangle hc (Bool.not_eq_true _ ▸ ‹_›)
  | idle | returned | threw | divisionByZero | dangling => rw [hc] at taken; cases taken

theorem stop_cases {cfg : Config} {s t : State cfg.cls Sid Kid n} {k : Kid}
    (taken : stopStep s k (s.shutdown k) = some t) : Steps cfg s (.stop k) t := by
  cases hs : s.shutdown k with
  | exchange =>
    rw [hs] at taken
    cases taken
    split
    · rename_i stop
      have same : ({ s with m_stop := true } : State cfg.cls Sid Kid n) = s := by rw [← stop]
      rw [same]
      exact .refused hs stop
    · exact .exchange hs (Bool.not_eq_true _ ▸ ‹_›)
  | requestStop thread =>
    rw [hs] at taken
    simp only [stopStep] at taken
    split at taken <;> cases taken
    · exact .request hs ‹_›
    · exact .requested hs (Nat.le_of_not_lt ‹_›)
  | join thread =>
    rw [hs] at taken
    simp only [stopStep] at taken
    split at taken
    · split at taken <;> cases taken
      exact .join hs ‹_› ‹_›
    · cases taken
      exact .joined hs (Nat.le_of_not_lt ‹_›)
  | destroy thread =>
    rw [hs] at taken
    simp only [stopStep] at taken
    split at taken <;> cases taken
    · exact .destroy hs ‹_›
    · exact .cleared hs (Nat.le_of_not_lt ‹_›)
  | idle | returned => rw [hs] at taken; cases taken

theorem step_cases {cfg : Config} {s t : State cfg.cls Sid Kid n} {a : Act Sid Kid n}
    (taken : step cfg s a = some t) : Steps cfg s a t := by
  cases a with
  | execute sid =>
    simp only [step] at taken
    split at taken <;> cases taken
    exact .execute ‹_›
  | call sid => exact call_cases taken
  | fail sid =>
    simp only [step] at taken
    split at taken
    · split at taken <;> cases taken
      split
      · exact .fail
      · exact .dangle ‹_› (eq_false_of_ne_true ‹_›)
    · cases taken
  | worker i =>
    simp only [step] at taken
    split at taken <;> cases taken
    exact .worker ‹_›
  | shutdown k =>
    simp only [step] at taken
    split at taken <;> cases taken
    exact .shutdown ‹_›
  | stop k => exact stop_cases taken

end Pot.ExecutorsLocal
