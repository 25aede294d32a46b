import Pot.SandboxTickets

/-! In which order a context of the pools gives its tasks out, over whole runs and whoever takes
them: workers of the context, workers that steal and external threads in get(). -/
namespace Pot.Sandbox
open Transition

variable {Sid Kid : Type} {n : Nat}

/-- What goes through a container: calls that come in and items that are taken. -/
inductive Traffic (Sid : Type) where
  | submitted (call : Sid)
  | taken (item : Item Sid)

def Traffic.comes : Traffic Sid → Option Sid
  | .submitted call => some call
  | .taken _ => none

def Traffic.goes : Traffic Sid → Option Sid
  | .submitted _ => none
  | .taken item => some item.call

/-- `a` came before `b`. -/
def Before (order : List Sid) (a b : Sid) : Prop := [a, b].Sublist order

/-- `x` is given out before `y`. The hot pools keep what has run at most ten times in front. -/
def Container.Ahead (order : List Sid) (x y : Item Sid) : Container → Prop
  | .queue | .lfqueue => Before order x.call y.call
  | .stack => Before order y.call x.call
  | .deque =>
    if x.runs ≤ 10 then y.runs ≤ 10 → Before order y.call x.call
    else 10 < y.runs ∧ Before order x.call y.call
  | .pqueue => True

theorem Before.append {order : List Sid} {a b : Sid} (h : Before order a b) (more : List Sid) :
    Before (order ++ more) a b := h.trans (List.sublist_append_left ..)

theorem before_last {order : List Sid} {a : Sid} (old : a ∈ order) (new : Sid) :
    Before (order ++ [new]) a new :=
  (List.singleton_sublist.mpr old).append (List.Sublist.refl [new])

theorem Container.Ahead.append {k : Container} {order : List Sid} {x y : Item Sid}
    (h : k.Ahead order x y) (more : List Sid) : k.Ahead (order ++ more) x y := by
  cases k with
  | queue | lfqueue | stack => exact Before.append h more
  | pqueue => trivial
  | deque =>
    simp only [Container.Ahead] at h ⊢
    split at h
    · rename_i hot
      rw [if_pos hot]
      exact fun hot' => (h hot').append more
    · rename_i cold
      rw [if_neg cold]
      exact ⟨h.1, h.2.append more⟩

theorem Container.Ahead.congr {k : Container} {order : List Sid} {x y x' y' : Item Sid}
    (h : k.Ahead order x y) (sameX : x'.call = x.call ∧ x'.runs = x.runs)
    (sameY : y'.call = y.call ∧ y'.runs = y.runs) : k.Ahead order x' y' := by
  cases k with
  | queue | lfqueue | stack | deque =>
    simp only [Container.Ahead, sameX.1, sameX.2, sameY.1, sameY.2] at h ⊢
    exact h
  | pqueue => trivial

theorem ahead_emplace {k : Container} {order : List Sid} {tasks : List (Item Sid)} {x : Item Sid}
    (old : ∀ y ∈ tasks, y.call ∈ order) (h : tasks.Pairwise (k.Ahead order)) :
    (k.emplace tasks x).Pairwise (k.Ahead (order ++ [x.call])) := by
  have kept := h.imp fun ahead => ahead.append [x.call]
  have last : ∀ y ∈ tasks, Before (order ++ [x.call]) y.call x.call :=
    fun y mem => before_last (old y mem) x.call
  have behind : (∀ y ∈ tasks, k.Ahead (order ++ [x.call]) y x) →
      (tasks ++ [x]).Pairwise (k.Ahead (order ++ [x.call])) := fun all => by
    apply List.pairwise_append.mpr
    refine ⟨kept, List.pairwise_singleton .., fun y mem z single => ?_⟩
    rw [List.mem_singleton.mp single]
    exact all y mem
  cases k with
  | queue | lfqueue => exact behind last
  | stack => exact List.pairwise_cons.mpr ⟨last, kept⟩
  | deque =>
    simp only [Container.emplace]
    split
    · rename_i hot
      apply List.pairwise_cons.mpr
      refine ⟨fun y mem => ?_, kept⟩
      simp only [Container.Ahead, if_pos hot]
      exact fun _ => last y mem
    · rename_i cold
      apply behind
      intro y mem
      simp only [Container.Ahead]
      split
      · exact fun hot => absurd hot cold
      · exact ⟨Nat.lt_of_not_le cold, last y mem⟩
  | pqueue => exact List.pairwise_of_forall fun _ _ => trivial

section Steps
variable [NeZero n] [DecidableEq Sid] [DecidableEq Kid] {cfg : Config} {s t : State Sid Kid n}
  {a : Act Sid Kid n}

def traffic (cfg : Config) (c : Fin n) (s : State Sid Kid n) (a : Act Sid Kid n) :
    Option (Traffic Sid) :=
  match step cfg s a, a with
  | none, _ => none
  | some t, a =>
    if (t.ctx c).tasks.length < (s.ctx c).tasks.length then (s.ctx c).tasks.head?.map .taken
    else if (s.ctx c).tasks.length < (t.ctx c).tasks.length then
      match a with
      | .call sid => some (.submitted sid)
      | _ => none
    else none

/-- Only its own step moves a call from the insertion on. -/
theorem insert_act {sid : Sid} {c : Fin n} {callable : Bool} {runs : Nat}
    (taken : step cfg s a = some t) (at_pc : s.call sid = .insert c callable runs)
    (after : t.call sid = .publish c ∨ t.call sid = .fetchAdd c) : a = .call sid := by
  have still : t.call sid ≠ s.call sid := fun same => by
    rw [same, at_pc] at after
    rcases after with no | no <;> cases no
  have mover : ∀ (sid' : Sid) (q : Call n), t.call = Function.update s.call sid' q → sid' = sid := by
    intro sid' q update
    by_contra other
    exact still (by rw [update, Function.update_of_ne (Ne.symm other)])
  cases step_cases taken with
  | submit start =>
    cases mover _ _ rfl
    rw [at_pc] at start
    cases start
  | @call sid' _ step =>
    have own : sid' = sid := by
      cases step with
      | full => exact absurd rfl still
      | _ => exact mover _ _ rfl
    rw [own]
  | notifyOne start =>
    cases mover _ _ rfl
    rw [at_pc] at start
    cases start
  | worker step =>
    cases step with
    | popOwn | steal => exact absurd (congrFun (take_keeps ..).1 sid) still
    | _ => exact absurd rfl still
  | thief step => cases step <;> exact absurd rfl still
  | stop step => cases step <;> exact absurd rfl still
  | _ => exact absurd rfl still

/-- One step of a context, with what it shows. -/
inductive Passes (cfg : Config) (s t : State Sid Kid n) (c : Fin n) : Option (Traffic Sid) → Prop where
  | keep (f : Item Sid → Item Sid) (same : ∀ x, (f x).call = x.call ∧ (f x).runs = x.runs)
    (tasks : (t.ctx c).tasks = (s.ctx c).tasks.map f) : Passes cfg s t c none
  | pop {task} (front : (s.ctx c).tasks = task :: (t.ctx c).tasks) :
    Passes cfg s t c (some (.taken task))
  | insert {sid x} (new : (s.call sid).accepted = false) (now : (t.call sid).accepted = true)
    (item : x.call = sid) (tasks : (t.ctx c).tasks = cfg.pool.container.emplace (s.ctx c).tasks x) :
    Passes cfg s t c (some (.submitted sid))

theorem step_passes (taken : step cfg s a = some t) (c : Fin n) :
    Passes cfg s t c (traffic cfg c s a) := by
  have same : (t.ctx c).tasks.length = (s.ctx c).tasks.length → traffic cfg c s a = none := by
    intro length
    simp only [traffic, taken, length, Nat.lt_irrefl, if_false]
  cases task_cases taken c with
  | keep tasks =>
    rw [same (congrArg _ tasks)]
    exact .keep id (fun _ => ⟨rfl, rfl⟩) (by rw [tasks, List.map_id])
  | publish _ tasks =>
    rw [same (by rw [tasks, publish, List.length_map])]
    refine .keep _ (fun x => ?_) tasks
    split <;> exact ⟨rfl, rfl⟩
  | @pop task popped =>
    have front := (pop_eq_some.mp popped).1
    have shows : traffic cfg c s a = some (.taken task) := by
      have shorter : (t.ctx c).tasks.length < (s.ctx c).tasks.length := by
        rw [front, List.length_cons]
        exact Nat.lt_succ_self _
      simp only [traffic, taken, if_pos shorter]
      rw [front]
      rfl
    rw [shows]
    exact .pop front
  | @insert sid callable runs at_pc _ tasks after =>
    have shows : traffic cfg c s a = some (.submitted sid) := by
      have longer : (s.ctx c).tasks.length < (t.ctx c).tasks.length := by
        rw [tasks, (emplace_perm ..).length_eq, List.length_cons]
        exact Nat.lt_succ_self _
      simp only [traffic, taken, if_neg (Nat.lt_asymm longer), if_pos longer]
      rw [insert_act taken at_pc after]
    rw [shows]
    refine .insert ?_ ?_ rfl tasks
    · rw [at_pc]
      rfl
    · rcases after with at_pc | at_pc <;> rw [at_pc] <;> rfl

/-- The container of `c` after what has come and gone. -/
structure Dispatched (cfg : Config) (c : Fin n) (s : State Sid Kid n) (log : List (Traffic Sid)) :
    Prop where
  once : (log.filterMap Traffic.comes).Nodup
  accepted : ∀ sid ∈ log.filterMap Traffic.comes, (s.call sid).accepted = true
  balance : (log.filterMap Traffic.comes).Perm
    (log.filterMap Traffic.goes ++ (s.ctx c).tasks.map Item.call)
  order : (s.ctx c).tasks.Pairwise (cfg.pool.container.Ahead (log.filterMap Traffic.comes))
  fifo : cfg.pool.container = .queue ∨ cfg.pool.container = .lfqueue →
    log.filterMap Traffic.comes = log.filterMap Traffic.goes ++ (s.ctx c).tasks.map Item.call

omit [NeZero n] [DecidableEq Sid] [DecidableEq Kid] in
theorem initial_dispatched (cfg : Config) (c : Fin n) :
    Dispatched cfg c (initial Sid Kid n) [] where
  once := List.nodup_nil
  accepted := fun _ no => nomatch no
  balance := List.Perm.refl _
  order := .nil
  fifo := fun _ => rfl

theorem step_dispatched {c : Fin n} {log : List (Traffic Sid)} (h : Dispatched cfg c s log)
    (taken : step cfg s a = some t) :
    Dispatched cfg c t (log ++ (traffic cfg c s a).toList) := by
  have later := fun sid mem => step_accepted taken (h.accepted sid mem)
  have passes := step_passes taken c
  generalize traffic cfg c s a = shows at passes ⊢
  cases passes with
  | keep f same tasks =>
    rw [Option.toList_none, List.append_nil]
    have calls : (t.ctx c).tasks.map Item.call = (s.ctx c).tasks.map Item.call := by
      rw [tasks, List.map_map]
      exact List.map_congr_left fun x _ => (same x).1
    refine ⟨h.once, later, calls ▸ h.balance, ?_, fun kind => calls ▸ h.fifo kind⟩
    rw [tasks]
    exact h.order.map f fun x y ahead => ahead.congr (same x) (same y)
  | @pop task front =>
    have comes : (log ++ [Traffic.taken task]).filterMap Traffic.comes =
        log.filterMap Traffic.comes := by
      rw [List.filterMap_append]
      exact List.append_nil _
    have goes : (log ++ [Traffic.taken task]).filterMap Traffic.goes =
        log.filterMap Traffic.goes ++ [task.call] := List.filterMap_append ..
    have calls : (s.ctx c).tasks.map Item.call = task.call :: (t.ctx c).tasks.map Item.call := by
      rw [front, List.map_cons]
    have balance := h.balance
    have order := h.order
    have fifo := h.fifo
    rw [calls, List.append_cons] at balance fifo
    rw [front] at order
    rw [Option.toList_some]
    refine ⟨?_, ?_, ?_, ?_, ?_⟩
    · rw [comes]
      exact h.once
    · rw [comes]
      exact later
    · rw [comes, goes]
      exact balance
    · rw [comes]
      exact (List.pairwise_cons.mp order).2
    · rw [comes, goes]
      exact fifo
  | @insert sid x new now item tasks =>
    have comes : (log ++ [Traffic.submitted sid]).filterMap Traffic.comes =
        log.filterMap Traffic.comes ++ [sid] := List.filterMap_append ..
    have goes : (log ++ [Traffic.submitted sid]).filterMap Traffic.goes =
        log.filterMap Traffic.goes := by
      rw [List.filterMap_append]
      exact List.append_nil _
    have absent : sid ∉ log.filterMap Traffic.comes := fun mem => by
      rw [h.accepted sid mem] at new
      cases new
    have held : ∀ y ∈ (s.ctx c).tasks, y.call ∈ log.filterMap Traffic.comes := fun y mem =>
      h.balance.mem_iff.mpr (List.mem_append_right _ (List.mem_map_of_mem mem))
    rw [Option.toList_some]
    refine ⟨?_, ?_, ?_, ?_, ?_⟩
    · rw [comes]
      apply List.nodup_append.mpr
      refine ⟨h.once, List.nodup_singleton sid, fun a mem b single same => ?_⟩
      rw [same, List.mem_singleton.mp single] at mem
      exact absent mem
    · rw [comes]
      intro call mem
      rcases List.mem_append.mp mem with old | own
      · exact later call old
      · rw [List.mem_singleton.mp own]
        exact now
    · rw [comes, goes, tasks]
      have placed := (emplace_perm cfg.pool.container (s.ctx c).tasks x).map Item.call
      rw [List.map_cons, item] at placed
      calc log.filterMap Traffic.comes ++ [sid]
          |>.Perm (sid :: log.filterMap Traffic.comes) := List.perm_append_singleton ..
        _ |>.Perm (sid :: (log.filterMap Traffic.goes ++ (s.ctx c).tasks.map Item.call)) :=
          h.balance.cons sid
        _ |>.Perm (log.filterMap Traffic.goes ++ (sid :: (s.ctx c).tasks.map Item.call)) :=
          List.perm_middle.symm
        _ |>.Perm _ := placed.symm.append_left _
    · rw [comes, tasks, ← item]
      exact ahead_emplace held h.order
    · intro kind
      have back : cfg.pool.container.emplace (s.ctx c).tasks x = (s.ctx c).tasks ++ [x] := by
        rcases kind with kind | kind <;> rw [kind] <;> rfl
      rw [comes, goes, tasks, back, List.map_append, h.fifo kind, List.append_assoc, ← item]
      rfl

/-- What a run has brought into context `c` and taken out of it. -/
def passed (cfg : Config) (c : Fin n) (as : List (Act Sid Kid n)) : List (Traffic Sid) :=
  shown (system cfg Sid Kid n) (traffic cfg c) (initial Sid Kid n) as

/-- Whatever comes into a context goes out of it once or is still there; what is taken is, of all
that is there, what the container gives first, so that a queue gives out in the order of the
submissions. -/
theorem dispatches_in_order (cfg : Config) (c : Fin n) (as : List (Act Sid Kid n))
    (run : replay (system cfg Sid Kid n) (initial Sid Kid n) as = some s) :
    ((passed cfg c as).filterMap Traffic.comes).Nodup ∧
      ((passed cfg c as).filterMap Traffic.comes).Perm
        ((passed cfg c as).filterMap Traffic.goes ++ (s.ctx c).tasks.map Item.call) ∧
      (cfg.pool.container = .queue ∨ cfg.pool.container = .lfqueue →
        (passed cfg c as).filterMap Traffic.goes <+: (passed cfg c as).filterMap Traffic.comes) ∧
      ∀ a t x, step cfg s a = some t → traffic cfg c s a = some (.taken x) →
        ∀ y ∈ (t.ctx c).tasks,
          cfg.pool.container.Ahead ((passed cfg c as).filterMap Traffic.comes) x y := by
  have h : Dispatched cfg c s (passed cfg c as) :=
    shown_invariant (I := Dispatched cfg c) (fun _ _ _ _ h taken => step_dispatched h taken)
      (initial_dispatched cfg c) as run
  refine ⟨h.once, h.balance, fun kind => ⟨_, (h.fifo kind).symm⟩, fun a t x taken takes => ?_⟩
  have passes := step_passes taken c
  rw [takes] at passes
  cases passes with
  | pop front =>
    have order := h.order
    rw [front] at order
    exact (List.pairwise_cons.mp order).1

end Steps

/-- Two submissions to a stack, and its worker up to the pop. -/
def lastFirst : List (Act Bool Empty 1) :=
  [.submit false true 0, .submit true true 0, .call false, .call false, .call true, .call true,
    .worker (Fin.last 0) false, .worker (Fin.last 0) false]

theorem dispatches_in_order_last : ∃ s t, ∃ x : Item Bool,
    replay (system ⟨.gs, "pool"⟩ Bool Empty 1) (initial Bool Empty 1) lastFirst = some s ∧
      step ⟨.gs, "pool"⟩ s (.worker 0 false) = some t ∧ x.call = true ∧ (t.ctx 0).tasks.length = 1 ∧
      ∀ y ∈ (t.ctx 0).tasks, Before [false, true] y.call x.call := by
  have run := (Option.some_get (x := replay (system ⟨.gs, "pool"⟩ Bool Empty 1)
    (initial Bool Empty 1) lastFirst) rfl).symm
  have ordered := (dispatches_in_order ⟨.gs, "pool"⟩ 0 lastFirst run).2.2.2
  exact ⟨_, _, ⟨true, true, 0, 0, true⟩, run, rfl, rfl, rfl, ordered (.worker 0 false) _ _ rfl rfl⟩

end Pot.Sandbox
