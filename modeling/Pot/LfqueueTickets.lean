import Pot.LfqueueInvariant

/-! What the queue is for, read off its invariant: every ticket is served once, in order, and
the cell behind it belongs to one thread at a time. -/
namespace Pot.Lfqueue
open Transition

variable {Tid T : Type}

/-- The value of the successful pop with dequeue ticket `t`: returned already, moved out of
its cell, or about to be moved out. -/
def PopValue (s : State Tid T) (t : Nat) (v : T) : Prop :=
  (t, some v) ∈ s.popped ∨ (∃ i, s.pc i = .popStoreSeq t (some v)) ∨
    ∃ i, s.pc i = .popData t ∧ s.dataAt t = some v

def cellOf (s : State Tid T) (i : Tid) : Option Nat := (s.pc i).ticket.map slot

theorem popValue_iff {s : State Tid T} (h : Inv s) (t : Nat) (v : T) :
    PopValue s t v ↔ (s.pushed.take s.dequeuePos)[t]? = some v := by
  have inside : t < s.dequeuePos → (s.pushed.take s.dequeuePos)[t]? = s.pushed[t]? := fun ht => by
    rw [List.getElem?_take, if_pos ht]
  constructor
  · rintro (done | ⟨i, hi⟩ | ⟨i, hi, value⟩)
    · have result := h.results t (some v) done
      rw [inside result.1, result.2]
    · have ok := h.threads i
      rw [hi] at ok
      rw [inside ok.1]
      exact ok.2.2.symm
    · have ok := h.threads i
      rw [hi] at ok
      rw [inside ok.1]
      exact ok.2.2.symm.trans value
  · intro value
    have ht : t < s.dequeuePos := by
      have := (List.getElem?_eq_some_iff.mp value).1
      simp at this
      omega
    rw [inside ht] at value
    rcases h.taken t ht with done | ⟨i, hi⟩
    · obtain ⟨⟨t', w⟩, mem, eq⟩ := List.mem_map.mp done
      cases eq
      exact .inl (value ▸ (h.results _ w mem).2 ▸ mem)
    · have ok := h.threads i
      cases hpc : s.pc i with
      | popData p =>
        rw [hpc] at hi ok
        cases hi
        exact .inr (.inr ⟨i, hpc, ok.2.2.trans value⟩)
      | popStoreSeq p r =>
        rw [hpc] at hi ok
        cases hi
        exact .inr (.inl ⟨i, by rw [hpc, ok.2.2, value]⟩)
      | _ => rw [hpc] at hi; cases hi

variable [DecidableEq Tid]

/-- Any number of threads, any interleaving. The values of the successful pops in ticket order
are a prefix of the pushed ones, each ticket is returned once, no two threads are at one cell,
and the ring never holds more than its capacity. -/
theorem fifo_by_ticket {s : State Tid T} (reached : Reached (system Tid T) s) :
    (∃ values : List T, values.length = s.dequeuePos ∧
      (∀ t v, PopValue s t v ↔ values[t]? = some v) ∧ values <+: s.pushed) ∧
    s.pushed.length = s.enqueuePos ∧
    (∀ r ∈ s.popped, ∃ v, r.2 = some v) ∧ (s.popped.map Prod.fst).Nodup ∧
    (∀ i j c, cellOf s i = some c → cellOf s j = some c → i = j) ∧
    s.dequeuePos ≤ s.enqueuePos ∧ s.enqueuePos ≤ s.dequeuePos + 1024 := by
  have h := reached_inv reached
  have hlen := h.tickets
  have horder := h.order
  refine ⟨⟨s.pushed.take s.dequeuePos, ?_, popValue_iff h, List.take_prefix _ _⟩, hlen, ?_, h.once,
    ?_, horder, h.ring⟩
  · rw [List.length_take]
    omega
  · intro r hr
    obtain ⟨before, value⟩ := h.results r.1 r.2 hr
    exact ⟨s.pushed[r.1], value.trans (List.getElem?_eq_getElem (by omega))⟩
  · intro i j c hi hj
    obtain ⟨p, hp, rfl⟩ := Option.map_eq_some_iff.mp hi
    obtain ⟨q, hq, same⟩ := Option.map_eq_some_iff.mp hj
    exact h.exclusive i j p q hp hq same.symm

/-- Two producers race for a ticket, the loser takes the next one, and one value is popped. -/
def race : List (Bool × Act Nat) :=
  [(true, .push 7), (false, .push 8), (true, .go false), (false, .go false), (true, .go false),
    (false, .go false), (true, .go false), (false, .go false), (true, .go false), (true, .go false),
    (true, .pop), (true, .go false), (true, .go false), (true, .go true), (true, .go false),
    (true, .go false), (true, .go false), (true, .go false)]

def raced : State Bool Nat := (replay (system Bool Nat) initial race).get rfl

theorem raced_reached : Reached (system Bool Nat) raced :=
  (Reached.start rfl).replay race (Option.some_get _).symm

theorem fifo_by_ticket_raced :
    raced.popped = [(0, some 7)] ∧ raced.pushed = [7] ∧ PopValue raced 0 7 ∧
      raced.enqueuePos ≤ raced.dequeuePos + 1024 := by
  have h := fifo_by_ticket raced_reached
  exact ⟨rfl, rfl, .inl List.mem_cons_self, h.2.2.2.2.2.2⟩

end Pot.Lfqueue
