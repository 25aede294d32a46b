import Mathlib.Data.List.Induction
import Mathlib.Logic.Function.Basic
import Pot.Transition

/-! memory/coro_memory.h and the operators new and delete of basic_promise_type. Every function
reads or writes g_coro_memory_resource once, so that a history lists the calls of all threads in
the order of these accesses. -/
namespace Pot.CoroMemory
open Transition

structure Config (Resource : Type) where
  new_delete_resource : Resource
  STDCPP_DEFAULT_NEW_ALIGNMENT : Nat

/-- What a memory_resource is asked to allocate or to deallocate. -/
structure Request (Resource : Type) where
  resource : Resource
  size : Nat
  alignment : Nat
  deriving DecidableEq

/-- The arguments that operator new and the operator delete that goes with it are called with; the
alignment is that of the overloads with std::align_val_t. -/
structure Frame where
  size : Nat
  alignment : Option Nat
  deriving DecidableEq

inductive Op (Resource Ptr : Type) where
  | set_memory_resource (resource : Option Resource)
  | reset_memory_resource
  /-- with the pointer that the resource returns -/
  | operator_new (frame : Frame) (ptr : Ptr)
  | operator_delete (ptr : Option Ptr) (frame : Frame)
  deriving DecidableEq

structure State (Resource Ptr : Type) where
  g_coro_memory_resource : Resource
  /-- The frames that are alive, with the request that each block comes from. -/
  alive : Ptr → Option (Frame × Request Resource)
  /-- For the statements: each block that was deallocated, by the request it came from and the one
  it was given back with. -/
  released : List (Request Resource × Request Resource)

variable {Resource Ptr : Type}

def allocate (s : State Resource Ptr) (size alignment : Nat) : Request Resource :=
  ⟨s.g_coro_memory_resource, size, alignment⟩

def deallocate (s : State Resource Ptr) (size alignment : Nat) : Request Resource :=
  ⟨s.g_coro_memory_resource, size, alignment⟩

def operator_new (cfg : Config Resource) (s : State Resource Ptr) (frame : Frame) :
    Request Resource :=
  match frame.alignment with
  | none => allocate s frame.size cfg.STDCPP_DEFAULT_NEW_ALIGNMENT
  | some alignment => allocate s frame.size alignment

def operator_delete (cfg : Config Resource) (s : State Resource Ptr) (frame : Frame) :
    Request Resource :=
  match frame.alignment with
  | none => deallocate s frame.size cfg.STDCPP_DEFAULT_NEW_ALIGNMENT
  | some alignment => deallocate s frame.size alignment

variable [DecidableEq Ptr]

/-- No resource returns a block that is alive, and a frame is deleted once and with the arguments
it was made with. -/
def step (cfg : Config Resource) (s : State Resource Ptr) :
    Op Resource Ptr → Option (State Resource Ptr)
  | .set_memory_resource (some resource) => some { s with g_coro_memory_resource := resource }
  | .set_memory_resource none => some s
  | .reset_memory_resource => some { s with g_coro_memory_resource := cfg.new_delete_resource }
  | .operator_new frame ptr =>
    match s.alive ptr with
    | none =>
      some { s with alive := Function.update s.alive ptr (some (frame, operator_new cfg s frame)) }
    | some _ => none
  | .operator_delete none _ => some s
  | .operator_delete (some ptr) frame =>
    match s.alive ptr with
    | some (made, request) =>
      if made = frame then
        some { s with alive := Function.update s.alive ptr none,
                      released := s.released ++ [(request, operator_delete cfg s frame)] }
      else none
    | none => none

def initial (cfg : Config Resource) : State Resource Ptr := ⟨cfg.new_delete_resource, fun _ => none, []⟩

def system (cfg : Config Resource) (Ptr : Type) [DecidableEq Ptr] :
    System (State Resource Ptr) (Op Resource Ptr) where
  start s := s = initial cfg
  step := step cfg

omit [DecidableEq Ptr] in
/-- Which resource a call leaves installed. -/
def Op.installs (cfg : Config Resource) (resource : Resource) : Op Resource Ptr → Resource
  | .set_memory_resource new_resource => new_resource.getD resource
  | .reset_memory_resource => cfg.new_delete_resource
  | .operator_new _ _ | .operator_delete _ _ => resource

/-- The resource of the last call that installs one. -/
def inForce (cfg : Config Resource) (ops : List (Op Resource Ptr)) : Resource :=
  ops.foldl (Op.installs cfg) cfg.new_delete_resource

/-- The request of a frame that meets a resource. -/
def Frame.request (cfg : Config Resource) (frame : Frame) (resource : Resource) : Request Resource :=
  ⟨resource, frame.size, frame.alignment.getD cfg.STDCPP_DEFAULT_NEW_ALIGNMENT⟩

section Requests
omit [DecidableEq Ptr]

theorem new_request (cfg : Config Resource) (s : State Resource Ptr) (frame : Frame) :
    operator_new cfg s frame = frame.request cfg s.g_coro_memory_resource := by
  obtain ⟨size, alignment⟩ := frame
  cases alignment <;> rfl

theorem delete_request (cfg : Config Resource) (s : State Resource Ptr) (frame : Frame) :
    operator_delete cfg s frame = frame.request cfg s.g_coro_memory_resource := by
  obtain ⟨size, alignment⟩ := frame
  cases alignment <;> rfl

theorem request_inj {cfg : Config Resource} {frame : Frame} {r r' : Resource} :
    frame.request cfg r = frame.request cfg r' ↔ r = r' :=
  ⟨fun same => congrArg Request.resource same, fun same => congrArg (frame.request cfg) same⟩

theorem inForce_skip (cfg : Config Resource) (before between : List (Op Resource Ptr)) (frame : Frame)
    (ptr : Ptr) :
    inForce cfg (before ++ .operator_new frame ptr :: between) = inForce cfg (before ++ between) := by
  simp only [inForce, List.foldl_append, List.foldl_cons]
  rfl

end Requests

variable {cfg : Config Resource}

theorem new_cases {s t : State Resource Ptr} {frame : Frame} {ptr : Ptr}
    (taken : step cfg s (.operator_new frame ptr) = some t) : s.alive ptr = none ∧
      t = { s with alive := Function.update s.alive ptr
                     (some (frame, frame.request cfg s.g_coro_memory_resource)) } := by
  simp only [step] at taken
  split at taken <;> cases taken
  rw [new_request]
  exact ⟨‹_›, rfl⟩

theorem delete_cases {s t : State Resource Ptr} {frame : Frame} {ptr : Ptr}
    (taken : step cfg s (.operator_delete (some ptr) frame) = some t) :
    ∃ request, s.alive ptr = some (frame, request) ∧
      t = { s with alive := Function.update s.alive ptr none,
                   released := s.released ++
                     [(request, frame.request cfg s.g_coro_memory_resource)] } := by
  simp only [step] at taken
  split at taken
  · split at taken <;> cases taken
    rename_i request alive same
    rw [delete_request]
    exact ⟨request, same ▸ alive, rfl⟩
  · cases taken

theorem step_resource {s t : State Resource Ptr} {op : Op Resource Ptr}
    (taken : step cfg s op = some t) :
    t.g_coro_memory_resource = op.installs cfg s.g_coro_memory_resource := by
  cases op with
  | set_memory_resource resource => cases resource <;> cases taken <;> rfl
  | reset_memory_resource => cases taken; rfl
  | operator_new frame ptr => rw [(new_cases taken).2]; rfl
  | operator_delete ptr frame =>
    cases ptr with
    | none => cases taken; rfl
    | some ptr =>
      obtain ⟨_, _, rfl⟩ := delete_cases taken
      rfl

theorem run_resource {s t : State Resource Ptr} (ops : List (Op Resource Ptr))
    (run : replay (system cfg Ptr) s ops = some t) :
    t.g_coro_memory_resource = ops.foldl (Op.installs cfg) s.g_coro_memory_resource := by
  induction ops generalizing s with
  | nil => cases run; rfl
  | cons op ops ih =>
    simp only [replay, Option.bind_eq_some_iff] at run
    obtain ⟨u, taken, rest⟩ := run
    rw [ih rest, step_resource taken]
    rfl

theorem initial_resource {s : State Resource Ptr} {ops : List (Op Resource Ptr)}
    (run : replay (system cfg Ptr) (initial cfg) ops = some s) :
    s.g_coro_memory_resource = inForce cfg ops :=
  run_resource ops run

/-- A frame stays alive until it is deleted. -/
theorem step_alive {s t : State Resource Ptr} {op : Op Resource Ptr} {ptr : Ptr} {frame : Frame}
    {request : Request Resource} (alive : s.alive ptr = some (frame, request))
    (other : op ≠ .operator_delete (some ptr) frame) (taken : step cfg s op = some t) :
    t.alive ptr = some (frame, request) := by
  cases op with
  | set_memory_resource resource => cases resource <;> cases taken <;> exact alive
  | reset_memory_resource => cases taken; exact alive
  | operator_new made at_ptr =>
    obtain ⟨free, rfl⟩ := new_cases taken
    have apart : ptr ≠ at_ptr := fun same => by cases (same ▸ alive).symm.trans free
    exact (Function.update_of_ne apart ..).trans alive
  | operator_delete at_ptr made =>
    cases at_ptr with
    | none => cases taken; exact alive
    | some at_ptr =>
      obtain ⟨found, mine, rfl⟩ := delete_cases taken
      have apart : ptr ≠ at_ptr := by
        rintro rfl
        cases alive.symm.trans mine
        exact other rfl
      exact (Function.update_of_ne apart ..).trans alive

theorem run_alive {s t : State Resource Ptr} {ptr : Ptr} {frame : Frame}
    {request : Request Resource} (ops : List (Op Resource Ptr))
    (alive : s.alive ptr = some (frame, request)) (kept : .operator_delete (some ptr) frame ∉ ops)
    (run : replay (system cfg Ptr) s ops = some t) : t.alive ptr = some (frame, request) := by
  induction ops generalizing s with
  | nil => cases run; exact alive
  | cons op ops ih =>
    simp only [replay, Option.bind_eq_some_iff] at run
    obtain ⟨u, taken, rest⟩ := run
    rw [List.mem_cons, not_or] at kept
    exact ih (step_alive alive (Ne.symm kept.1) taken) kept.2 rest

theorem step_released {s t : State Resource Ptr} {op : Op Resource Ptr}
    (taken : step cfg s op = some t) : s.released ⊆ t.released := by
  cases op with
  | set_memory_resource resource => cases resource <;> cases taken <;> exact List.Subset.refl _
  | reset_memory_resource => cases taken; exact List.Subset.refl _
  | operator_new => rw [(new_cases taken).2]; exact List.Subset.refl _
  | operator_delete ptr =>
    cases ptr with
    | none => cases taken; exact List.Subset.refl _
    | some ptr =>
      obtain ⟨_, _, rfl⟩ := delete_cases taken
      exact List.subset_append_left _ _

theorem run_released {s t : State Resource Ptr} (ops : List (Op Resource Ptr))
    (run : replay (system cfg Ptr) s ops = some t) : s.released ⊆ t.released :=
  replay_invariant (I := fun t : State Resource Ptr => s.released ⊆ t.released)
    (fun _ _ _ kept taken => List.Subset.trans kept (step_released taken)) (List.Subset.refl _) ops run

theorem made_of_alive {s : State Resource Ptr} {ptr : Ptr} {frame : Frame}
    {request : Request Resource} (ops : List (Op Resource Ptr))
    (run : replay (system cfg Ptr) (initial cfg) ops = some s)
    (alive : s.alive ptr = some (frame, request)) :
    ∃ before between, ops = before ++ .operator_new frame ptr :: between ∧
      .operator_delete (some ptr) frame ∉ between ∧ request = frame.request cfg (inForce cfg before) := by
  induction ops using List.reverseRecOn generalizing s with
  | nil => cases run; cases alive
  | append_singleton ops op ih =>
    obtain ⟨u, first, taken⟩ := replay_snoc ops op run
    -- the last call leaves the frame alone, or makes it
    have older : op ≠ .operator_delete (some ptr) frame → u.alive ptr = some (frame, request) →
        ∃ before between, ops ++ [op] = before ++ .operator_new frame ptr :: between ∧
          .operator_delete (some ptr) frame ∉ between ∧
          request = frame.request cfg (inForce cfg before) := by
      intro other was
      obtain ⟨before, between, rfl, kept, made⟩ := ih first was
      refine ⟨before, between ++ [op], by simp, ?_, made⟩
      rw [List.mem_append, List.mem_singleton, not_or]
      exact ⟨kept, Ne.symm other⟩
    cases op with
    | set_memory_resource resource => cases resource <;> cases taken <;> exact older nofun alive
    | reset_memory_resource => cases taken; exact older nofun alive
    | operator_new made at_ptr =>
      obtain ⟨free, rfl⟩ := new_cases taken
      simp only [Function.update_apply] at alive
      split at alive
      · rename_i same
        cases alive
        rw [same, initial_resource first]
        exact ⟨ops, [], rfl, List.not_mem_nil, rfl⟩
      · exact older nofun alive
    | operator_delete at_ptr made =>
      cases at_ptr with
      | none => cases taken; exact older nofun alive
      | some at_ptr =>
        obtain ⟨_, _, rfl⟩ := delete_cases taken
        simp only [Function.update_apply] at alive
        split at alive
        · cases alive
        · rename_i other
          exact older (fun same => by cases same; exact other rfl) alive

theorem deleted_of_released {s : State Resource Ptr} {pair : Request Resource × Request Resource}
    (ops : List (Op Resource Ptr)) (run : replay (system cfg Ptr) (initial cfg) ops = some s)
    (released : pair ∈ s.released) :
    ∃ before between rest ptr frame, ops = before ++ .operator_new frame ptr :: (between ++
        .operator_delete (some ptr) frame :: rest) ∧
      .operator_delete (some ptr) frame ∉ between ∧
      pair = (frame.request cfg (inForce cfg before),
        frame.request cfg (inForce cfg (before ++ between))) := by
  induction ops using List.reverseRecOn generalizing s with
  | nil => cases run; cases released
  | append_singleton ops op ih =>
    obtain ⟨u, first, taken⟩ := replay_snoc ops op run
    have older : pair ∈ u.released → ∃ before between rest ptr frame, ops ++ [op] = before ++
        .operator_new frame ptr :: (between ++ .operator_delete (some ptr) frame :: rest) ∧
        .operator_delete (some ptr) frame ∉ between ∧
        pair = (frame.request cfg (inForce cfg before),
          frame.request cfg (inForce cfg (before ++ between))) := by
      intro was
      obtain ⟨before, between, rest, ptr, frame, rfl, kept, same⟩ := ih first was
      exact ⟨before, between, rest ++ [op], ptr, frame, by simp, kept, same⟩
    cases op with
    | set_memory_resource resource => cases resource <;> cases taken <;> exact older released
    | reset_memory_resource => cases taken; exact older released
    | operator_new =>
      rw [(new_cases taken).2] at released
      exact older released
    | operator_delete ptr frame =>
      cases ptr with
      | none => cases taken; exact older released
      | some ptr =>
        obtain ⟨request, alive, rfl⟩ := delete_cases taken
        rcases List.mem_append.mp released with old | new
        · exact older old
        · rw [List.mem_singleton.mp new]
          obtain ⟨before, between, rfl, kept, rfl⟩ := made_of_alive ops first alive
          refine ⟨before, between, [], ptr, frame, by simp, kept, ?_⟩
          rw [initial_resource first, inForce_skip]

/-- Every deallocation gives a block back with the request it came from exactly when each frame is
deleted while the resource is installed that was installed when it was made. -/
theorem returned_iff (cfg : Config Resource) (ops : List (Op Resource Ptr)) (s : State Resource Ptr)
    (run : replay (system cfg Ptr) (initial cfg) ops = some s) :
    (∀ pair ∈ s.released, pair.2 = pair.1) ↔
      ∀ before between rest ptr frame, ops = before ++ .operator_new frame ptr :: (between ++
          .operator_delete (some ptr) frame :: rest) →
        .operator_delete (some ptr) frame ∉ between →
        inForce cfg (before ++ between) = inForce cfg before := by
  constructor
  · rintro returned before between rest ptr frame rfl kept
    obtain ⟨u, first, run⟩ := replay_split before _ run
    simp only [replay, Option.bind_eq_some_iff] at run
    obtain ⟨v, made, run⟩ := run
    obtain ⟨w, middle, run⟩ := replay_split between _ run
    simp only [replay, Option.bind_eq_some_iff] at run
    obtain ⟨x, deleted, last⟩ := run
    obtain ⟨_, rfl⟩ := new_cases made
    have alive := run_alive between (Function.update_self ..) kept middle
    obtain ⟨request, found, rfl⟩ := delete_cases deleted
    cases alive.symm.trans found
    have same := returned _ (run_released rest last (List.mem_append_right _ List.mem_cons_self))
    rw [request_inj] at same
    have start := initial_resource first
    have now := run_resource between middle
    change _ = between.foldl (Op.installs cfg) u.g_coro_memory_resource at now
    calc inForce cfg (before ++ between) = between.foldl (Op.installs cfg) (inForce cfg before) :=
          List.foldl_append
      _ = w.g_coro_memory_resource := by rw [now, start]
      _ = u.g_coro_memory_resource := same
      _ = inForce cfg before := start
  · intro steady pair released
    obtain ⟨before, between, rest, ptr, frame, split, kept, rfl⟩ := deleted_of_released ops run released
    exact request_inj.mpr (steady before between rest ptr frame split kept)

def twoResources : Config Bool := ⟨false, 16⟩

def steadyRun : List (Op Bool Nat) :=
  [.set_memory_resource (some true), .operator_new ⟨64, none⟩ 1, .set_memory_resource none,
    .operator_delete (some 1) ⟨64, none⟩, .reset_memory_resource]

def steady : State Bool Nat :=
  (replay (system twoResources Nat) (initial twoResources) steadyRun).get rfl

theorem returned_iff_steady :
    steady.released = [(⟨true, 64, 16⟩, ⟨true, 64, 16⟩)] ∧
    ∀ before between rest ptr frame, steadyRun = before ++ .operator_new frame ptr :: (between ++
        .operator_delete (some ptr) frame :: rest) →
      .operator_delete (some ptr) frame ∉ between →
      inForce twoResources (before ++ between) = inForce twoResources before :=
  ⟨rfl, (returned_iff twoResources steadyRun steady (Option.some_get _).symm).mp (by decide)⟩

def resetRun : List (Op Bool Nat) :=
  [.set_memory_resource (some true), .operator_new ⟨64, none⟩ 1, .reset_memory_resource,
    .operator_delete (some 1) ⟨64, none⟩]

theorem not_returned :
    ¬ ∀ (ops : List (Op Bool Nat)) (s : State Bool Nat),
      replay (system twoResources Nat) (initial twoResources) ops = some s →
      ∀ pair ∈ s.released, pair.2 = pair.1 := by
  intro returned
  cases returned resetRun _ rfl _ List.mem_cons_self

end Pot.CoroMemory
