import Mathlib.Data.List.Basic
import Pot.Transition

/-! Bounded queues that hand out tickets. A producer claims the next ticket and publishes it
later, in any order with the others; the consumers take the tickets in the order of the claims,
and the oldest one holds the others up until it is published. -/
namespace TicketQueue
open Transition

structure Ticket (α : Type*) where
  value : α
  published : Bool

inductive Op (α : Type*) where
  | claim (value : α)
  /-- the k-th of the tickets that are queued -/
  | publish (k : Nat)
  | take

variable {α : Type*}

def publish (queue : List (Ticket α)) (k : Nat) : Option (List (Ticket α)) :=
  queue[k]?.map fun x => queue.set k { x with published := true }

def take : List (Ticket α) → Option (Ticket α × List (Ticket α))
  | [] => none
  | x :: rest => if x.published then some (x, rest) else none

def step (capacity : Nat) (queue : List (Ticket α)) : Op α → Option (List (Ticket α))
  | .claim value => if queue.length < capacity then some (queue ++ [⟨value, false⟩]) else none
  | .publish k => publish queue k
  | .take => (take queue).map Prod.snd

def system (α : Type*) (capacity : Nat) : System (List (Ticket α)) (Op α) where
  start queue := queue = []
  step := step capacity

theorem publish_zero (x : Ticket α) (rest : List (Ticket α)) :
    publish (x :: rest) 0 = some ({ x with published := true } :: rest) := rfl

theorem publish_succ (x : Ticket α) (rest : List (Ticket α)) (k : Nat) :
    publish (x :: rest) (k + 1) = (publish rest k).map (x :: ·) := by
  simp only [publish, List.getElem?_cons_succ, List.set_cons_succ, Option.map_map]
  rfl

theorem take_eq_some {queue rest : List (Ticket α)} {x : Ticket α} :
    take queue = some (x, rest) ↔ queue = x :: rest ∧ x.published = true := by
  cases queue with
  | nil => simp [take]
  | cons y ys =>
    simp only [take, Option.ite_none_right_eq_some, Option.some.injEq, Prod.mk.injEq,
      List.cons.injEq]
    constructor
    · rintro ⟨published, rfl, rfl⟩
      exact ⟨⟨rfl, rfl⟩, published⟩
    · rintro ⟨⟨rfl, rfl⟩, published⟩
      exact ⟨published, rfl, rfl⟩

theorem take_eq_none {queue : List (Ticket α)} :
    take queue = none ↔ ∀ x, queue.head? = some x → x.published = false := by
  cases queue with
  | nil => simp [take]
  | cons y ys => simp [take]

theorem step_length {capacity : Nat} {queue after : List (Ticket α)} {op : Op α}
    (h : queue.length ≤ capacity) (taken : step capacity queue op = some after) :
    after.length ≤ capacity := by
  cases op with
  | claim value =>
    simp only [step, Option.ite_none_right_eq_some, Option.some.injEq] at taken
    obtain ⟨room, rfl⟩ := taken
    rw [List.length_append]
    exact room
  | publish k =>
    simp only [step, publish, Option.map_eq_some_iff] at taken
    obtain ⟨x, _, rfl⟩ := taken
    rw [List.length_set]
    exact h
  | take =>
    simp only [step, Option.map_eq_some_iff] at taken
    obtain ⟨⟨x, rest⟩, took, rfl⟩ := taken
    rw [(take_eq_some.mp took).1] at h
    exact Nat.le_of_succ_le h

theorem reached_length {capacity : Nat} {queue : List (Ticket α)}
    (h : Reached (system α capacity) queue) : queue.length ≤ capacity :=
  Reached.invariant (I := fun queue => queue.length ≤ capacity)
    (fun _ eq => eq ▸ Nat.zero_le _) (fun _ _ _ h taken => step_length h taken) h

def window (log : List α) (ready : Nat → Bool) (first : Nat) : List (Ticket α) :=
  (log.drop first).mapIdx fun k value => ⟨value, ready (first + k)⟩

section Window

variable {log : List α} {ready : Nat → Bool} {first : Nat}

theorem window_getElem? (log : List α) (ready : Nat → Bool) (first k : Nat) :
    (window log ready first)[k]? = log[first + k]?.map fun value => ⟨value, ready (first + k)⟩ := by
  rw [window, List.getElem?_mapIdx, List.getElem?_drop]

theorem window_length (log : List α) (ready : Nat → Bool) (first : Nat) :
    (window log ready first).length = log.length - first := by
  rw [window, List.length_mapIdx, List.length_drop]

theorem window_congr {ready' : Nat → Bool}
    (same : ∀ p, first ≤ p → p < log.length → ready p = ready' p) :
    window log ready first = window log ready' first := by
  apply List.ext_getElem?
  intro k
  rw [window_getElem?, window_getElem?]
  cases queued : log[first + k]? with
  | none => rfl
  | some value =>
    have inside := (List.getElem?_eq_some_iff.mp queued).1
    rw [same _ (Nat.le_add_right _ _) inside]

theorem window_claim (value : α) (within : first ≤ log.length)
    (unpublished : ready log.length = false) :
    window (log ++ [value]) ready first = window log ready first ++ [⟨value, false⟩] := by
  have last : first + (log.drop first).length = log.length := by
    rw [List.length_drop]
    omega
  rw [window, List.drop_append_of_le_length within, List.mapIdx_concat, last, unpublished]
  rfl

theorem window_take (published : ready first = true) (queued : first < log.length) :
    take (window log ready first) = some (⟨log[first], true⟩, window log ready (first + 1)) := by
  apply take_eq_some.mpr
  refine ⟨?_, rfl⟩
  rw [window, List.drop_eq_getElem_cons queued, List.mapIdx_cons, Nat.add_zero, published]
  congr 1
  apply List.mapIdx_eq_mapIdx_iff.mpr
  intro k _
  rw [Nat.add_right_comm first 1 k, ← Nat.add_assoc first k 1]

theorem window_publish {ready' : Nat → Bool} {pos : Nat} (from_first : first ≤ pos)
    (queued : pos < log.length) (here : ready' pos = true)
    (others : ∀ p, first ≤ p → p < log.length → p ≠ pos → ready' p = ready p) :
    publish (window log ready first) (pos - first) = some (window log ready' first) := by
  have back : first + (pos - first) = pos := Nat.add_sub_cancel' from_first
  rw [publish, window_getElem?, back, List.getElem?_eq_getElem queued, Option.map_some,
    Option.map_some, Option.some_inj]
  apply List.ext_getElem?
  intro k
  rw [List.getElem?_set, window_getElem?, window_getElem?]
  split
  · rename_i same
    subst k
    rw [if_pos (by rw [window_length]; omega), back, List.getElem?_eq_getElem queued,
      Option.map_some, here]
  · cases queued' : log[first + k]? with
    | none => rfl
    | some value =>
      have inside := (List.getElem?_eq_some_iff.mp queued').1
      rw [Option.map_some, Option.map_some, others _ (Nat.le_add_right _ _) inside (by omega)]

end Window

end TicketQueue
