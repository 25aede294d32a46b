import Pot.SandboxLedger
import Pot.LfqueueRefinement

/-! The lock-free containers of the pools are the ticket queues that lfqueue has been shown to
be: their operations on the lists are those of the tickets, one for one. -/
namespace Pot.Sandbox
open Transition
open TicketQueue (Ticket)

variable {Sid Kid : Type} {n : Nat}

def tickets (tasks : List (Item Sid)) : List (Ticket Sid) :=
  tasks.map fun x => ⟨x.call, x.published⟩

theorem tickets_pop (tasks : List (Item Sid)) :
    (pop tasks).map (fun r => tickets r.2) = (TicketQueue.take (tickets tasks)).map Prod.snd := by
  cases tasks with
  | nil => rfl
  | cons x rest =>
    simp only [pop, tickets, List.map_cons, TicketQueue.take]
    split <;> rfl

theorem tickets_emplace (tasks : List (Item Sid)) (x : Item Sid) (unpublished : x.published = false) :
    tickets (Container.lfqueue.emplace tasks x) = tickets tasks ++ [⟨x.call, false⟩] := by
  simp only [Container.emplace, tickets, List.map_append, List.map_cons, List.map_nil, unpublished]

section Publish
variable [DecidableEq Sid] {sid : Sid}

theorem publish_absent {tasks : List (Item Sid)} (absent : sid ∉ tasks.map Item.call) :
    publish tasks sid = tasks := by
  have keep : ∀ x ∈ tasks, (if x.call = sid then { x with published := true } else x) = x :=
    fun x hx => if_neg fun same => absent (List.mem_map.mpr ⟨x, hx, same⟩)
  exact (List.map_congr_left keep).trans (List.map_id' tasks)

/-- A call that is queued once publishes its own ticket and no other. -/
theorem tickets_publish {tasks : List (Item Sid)} (once : (tasks.map Item.call).Nodup) :
    tickets (publish tasks sid) = tickets tasks ∨
      ∃ k, TicketQueue.publish (tickets tasks) k = some (tickets (publish tasks sid)) := by
  induction tasks with
  | nil => exact .inl rfl
  | cons x rest ih =>
    rw [List.map_cons, List.nodup_cons] at once
    by_cases here : x.call = sid
    · subst sid
      have first : publish (x :: rest) x.call = { x with published := true } :: rest := by
        change (if x.call = x.call then _ else x) :: publish rest x.call = _
        rw [if_pos rfl, publish_absent once.1]
      rw [first]
      exact .inr ⟨0, TicketQueue.publish_zero _ _⟩
    · have later : publish (x :: rest) sid = x :: publish rest sid := by
        change (if x.call = sid then _ else x) :: publish rest sid = _
        rw [if_neg here]
      rw [later]
      rcases ih once.2 with same | ⟨k, hk⟩
      · exact .inl (congrArg (_ :: ·) same)
      · exact .inr ⟨k + 1, by rw [tickets, List.map_cons, TicketQueue.publish_succ, ← tickets, hk]; rfl⟩

end Publish

/-- A call is in the container of `c` once at most, and only when it has been accepted. -/
structure Queued (s : State Sid Kid n) (c : Fin n) : Prop where
  once : ((s.ctx c).tasks.map Item.call).Nodup
  accepted : ∀ sid ∈ (s.ctx c).tasks.map Item.call, (s.call sid).accepted = true

variable [NeZero n] [DecidableEq Sid] [DecidableEq Kid] {cfg : Config} {s t : State Sid Kid n}
  {a : Act Sid Kid n}

theorem step_accepted (taken : step cfg s a = some t) {d : Sid}
    (h : (s.call d).accepted = true) : (t.call d).accepted = true := by
  have moved : ∀ {sid : Sid} {q : Call n}, ((s.call sid).accepted = true → q.accepted = true) →
      (Function.update s.call sid q d).accepted = true := by
    intro sid q keeps
    simp only [Function.update_apply]
    split
    · rename_i same
      exact keeps (same ▸ h)
    · exact h
  cases step_cases taken with
  | submit at_pc => exact moved fun accepted => by rw [at_pc] at accepted; cases accepted
  | call step =>
    cases step with
    | full => exact h
    | stopped at_pc | global at_pc | round at_pc | index at_pc | divide at_pc =>
      exact moved fun accepted => by rw [at_pc] at accepted; cases accepted
    | claim | emplace | publish | fetchAdd => exact moved fun _ => rfl
  | notifyOne => exact moved fun _ => rfl
  | worker step =>
    cases step with
    | popOwn | steal => rw [(take_keeps ..).1]; exact h
    | _ => exact h
  | thief step => cases step <;> exact h
  | stop step => cases step <;> exact h
  | _ => exact h

theorem step_queued {c : Fin n} (h : Queued s c) (taken : step cfg s a = some t) : Queued t c := by
  have later := fun sid hs => step_accepted taken (h.accepted sid hs)
  cases task_cases taken c with
  | keep tasks => exact ⟨tasks ▸ h.once, tasks ▸ later⟩
  | pop popped =>
    have front := (pop_eq_some.mp popped).1
    have once := h.once
    rw [front] at once later
    exact ⟨(List.nodup_cons.mp once).2, fun sid hs => later sid (List.mem_cons_of_mem _ hs)⟩
  | @insert sid callable runs at_pc _ tasks after =>
    have perm := (emplace_perm cfg.pool.container (s.ctx c).tasks
      ⟨sid, callable, runs, (s.ctx c).seq_counter, cfg.pool.container ≠ .lfqueue⟩).map Item.call
    have absent : sid ∉ (s.ctx c).tasks.map Item.call := fun hs => by
      have accepted := h.accepted sid hs
      rw [at_pc] at accepted
      cases accepted
    refine ⟨?_, fun d hd => ?_⟩
    · rw [tasks, perm.nodup_iff]
      exact List.nodup_cons.mpr ⟨absent, h.once⟩
    · rw [tasks, perm.mem_iff] at hd
      rcases List.mem_cons.mp hd with rfl | old
      · rcases after with at_pc | at_pc <;> rw [at_pc] <;> rfl
      · exact later d old
  | publish _ tasks =>
    have same := publish_calls (s.ctx c).tasks
    exact ⟨by rw [tasks, same]; exact h.once, by rw [tasks, same]; exact later⟩

theorem reached_queued (reached : Reached (system cfg Sid Kid n) s) (c : Fin n) : Queued s c :=
  Reached.invariant (I := fun s => Queued s c)
    (fun s (eq : s = initial Sid Kid n) => by
      rw [eq]; exact ⟨List.nodup_nil, fun _ h => nomatch h⟩)
    (fun _ _ _ h taken => step_queued h taken) reached

/-- Every run of a pool over lfqueue is, in each context, a run of the ticket queue. -/
theorem simulates_tickets (lockFree : cfg.pool.container = .lfqueue) (c : Fin n) :
    Simulates (system cfg Sid Kid n) (TicketQueue.system Sid Lfqueue.capacity)
      fun s => tickets (s.ctx c).tasks where
  start s eq := by
    cases (eq : s = initial Sid Kid n)
    rfl
  step s a t reached taken := by
    cases task_cases taken c with
    | keep tasks => exact .inl (by rw [tasks])
    | pop popped =>
      refine .inr ⟨.take, ?_⟩
      change (TicketQueue.take _).map Prod.snd = _
      rw [← tickets_pop, popped]
      rfl
    | @insert sid callable runs at_pc room tasks =>
      refine .inr ⟨.claim sid, ?_⟩
      have length : (tickets (s.ctx c).tasks).length < Lfqueue.capacity := by
        rw [tickets, List.length_map]
        exact room lockFree
      rw [tasks, lockFree, tickets_emplace _ _ rfl]
      exact if_pos length
    | publish _ tasks =>
      rw [tasks]
      exact (tickets_publish (reached_queued reached c).once).imp_right fun ⟨k, hk⟩ =>
        ⟨.publish k, hk⟩

/-- A context of such a pool is a ticket queue, and never holds more than its queue has cells. -/
theorem contexts_refine_lfqueue (lockFree : cfg.pool.container = .lfqueue) (c : Fin n) :
    Simulates (system cfg Sid Kid n) (TicketQueue.system Sid Lfqueue.capacity)
        (fun s => tickets (s.ctx c).tasks) ∧
      ∀ s, Reached (system cfg Sid Kid n) s → (s.ctx c).tasks.length ≤ Lfqueue.capacity := by
  have simulates : Simulates (system cfg Sid Kid n) (TicketQueue.system Sid Lfqueue.capacity)
      fun s => tickets (s.ctx c).tasks := simulates_tickets lockFree c
  refine ⟨simulates, fun s reached => ?_⟩
  have bound := TicketQueue.reached_length (simulates.reached reached)
  rwa [tickets, List.length_map] at bound

/-- The second call publishes its ticket, the first one has only claimed its own. -/
def overtaken : List (Act Bool Empty 2) :=
  [.submit false true 0, .call false, .call false, .submit true true 0, .call true, .call true,
    .call true]

theorem contexts_refine_lfqueue_claimed : ∃ s,
    replay (system ⟨.lfgq, "pool"⟩ Bool Empty 2) (initial Bool Empty 2) overtaken = some s ∧
      (s.ctx 0).tasks.map Item.published = [false, true] ∧
      (s.ctx 0).tasks.length ≤ Lfqueue.capacity := by
  have run := (Option.some_get (x := replay (system ⟨.lfgq, "pool"⟩ Bool Empty 2)
    (initial Bool Empty 2) overtaken) rfl).symm
  have reached : Reached (system ⟨.lfgq, "pool"⟩ Bool Empty 2) _ := (Reached.start rfl).replay _ run
  exact ⟨_, run, rfl, (contexts_refine_lfqueue rfl 0).2 _ reached⟩

end Pot.Sandbox
