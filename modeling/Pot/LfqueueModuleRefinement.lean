import Pot.LfqueueModuleCalls
import Pot.LfqueueModuleNarrowing
import Pot.TicketQueue

/-! The queue of the modules as a bounded queue of tickets, for every size the constructor takes:
push_back claims a ticket at its exchange and publishes it at its sequence store, pop takes the
oldest one at its exchange. What pop returns, and what a refusal says of the tickets. -/
namespace Pot.LfqueueModule
open Transition
open TicketQueue (Ticket Op window)

variable {Tid T : Type} {size : Nat}

def State.ready (size : Nat) (s : State Tid T) (pos : Nat) : Bool := s.seqAt size pos = pos + 1

def State.tickets (size : Nat) (s : State Tid T) : List (Ticket T) :=
  window s.pushed (s.ready size) s.dpos

/-- What the next access of a thread does to the tickets. -/
def effect (s : State Tid T) (spurious : Bool) : Pc T → Option (Op T)
  | .pushCas data pos => if s.epos = pos ∧ spurious = false then some (.claim data) else none
  | .pushStoreSeq pos => some (.publish (pos - s.dpos))
  | .popCas pos => if s.dpos = pos ∧ spurious = false then some .take else none
  | _ => none

def Performs (size : Nat) (s t : State Tid T) : Option (Op T) → Prop
  | some op => TicketQueue.step size (s.tickets size) op = some (t.tickets size)
  | none => t.tickets size = s.tickets size

theorem tickets_length {s : State Tid T} (h : Inv size s) :
    (s.tickets size).length = s.epos - s.dpos := by
  rw [State.tickets, TicketQueue.window_length, h.tickets]

theorem ready_setCell (s : State Tid T) (pos q : Nat) (c : Cell T) :
    (s.setCell size pos c).ready size q =
      if slot size q = slot size pos then decide (c.m_sequence = q + 1) else s.ready size q := by
  simp only [State.ready, seqAt_setCell]
  split <;> rfl

theorem tickets_data (s : State Tid T) (pos : Nat) (data : Option T) :
    (s.setCell size pos { s.buffer (slot size pos) with m_data := data }).tickets size =
      s.tickets size := by
  apply TicketQueue.window_congr
  intro p _ _
  rw [ready_setCell]
  split
  · rename_i same
    rw [State.ready, State.seqAt, same]
  · rfl

theorem tickets_claim {s : State Tid T} (h : Inv size s) (data : T) (free : s.seqAt size s.epos = s.epos) :
    ({ s with epos := s.epos + 1, pushed := s.pushed ++ [data] }).tickets size =
      s.tickets size ++ [⟨data, false⟩] := by
  apply TicketQueue.window_claim
  · rw [h.tickets]
    exact h.order
  · rw [h.tickets]
    change decide (s.seqAt size s.epos = s.epos + 1) = false
    exact decide_eq_false (by omega)

variable (accepted : Accepted size) {s : State Tid T} (h : Inv size s)
include accepted h

theorem tickets_publish {pos : Nat} {c : Cell T} (from_dpos : s.dpos ≤ pos) (before : pos < s.epos)
    (next : c.m_sequence = pos + 1) :
    TicketQueue.publish (s.tickets size) (pos - s.dpos) =
      some ((s.setCell size pos c).tickets size) := by
  have ring := h.ring
  apply TicketQueue.window_publish from_dpos
  · rw [h.tickets]
    exact before
  · rw [ready_setCell, if_pos rfl]
    exact decide_eq_true next
  · intro p queued inside other
    rw [h.tickets] at inside
    have far : slot size p ≠ slot size pos := fun same =>
      other (accepted.round_unique same queued (by omega) from_dpos (by omega))
    rw [ready_setCell, if_neg far]

theorem released_beyond {i : Tid} {pos q : Nat} (mine : (s.pc i).popTicket = some pos)
    (same : slot size q = slot size pos) (from_dpos : s.dpos ≤ q) (below : q < s.dpos + size) :
    s.epos ≤ q ∧ q = pos + size := by
  have small := accepted.small
  obtain ⟨taken, pin⟩ := pop_ok (h.threads i) mine
  have next := Residues.next_round (accepted.slot_eq same).symm (Nat.lt_of_lt_of_le taken from_dpos)
  have seq := seqAt_congr s same
  rcases h.cells q from_dpos below with ⟨_, _, _⟩ | free | ⟨_, _⟩ <;> omega

theorem tickets_release {i : Tid} {pos : Nat} (mine : (s.pc i).popTicket = some pos) (c : Cell T) :
    (s.setCell size pos c).tickets size = s.tickets size := by
  have ring := h.ring
  apply TicketQueue.window_congr
  intro p queued inside
  change p < s.pushed.length at inside
  rw [h.tickets] at inside
  have far : slot size p ≠ slot size pos := by
    intro same
    have beyond := (released_beyond accepted h mine same queued (by omega)).1
    omega
  rw [ready_setCell, if_neg far]

variable [DecidableEq Tid]

omit accepted h in
theorem tickets_goto (s : State Tid T) (i : Tid) (p : Pc T) :
    (s.goto i p).tickets size = s.tickets size := rfl

theorem access_performs {t : State Tid T} {i : Tid} {spurious : Bool}
    (taken : access size s i spurious (s.pc i) = some t) :
    Performs size s t (effect s spurious (s.pc i)) := by
  have ok := h.threads i
  have after := access_inv accepted h taken
  cases hpc : s.pc i with
  | idle | returned => rw [hpc] at taken; cases taken
  | pushLoadPos | popLoadPos | spaceEpos | sizeEpos | spaceDpos | sizeDpos =>
    rw [hpc] at taken
    cases taken
    exact tickets_goto s i _
  | pushLoadSeq data pos | popLoadSeq pos =>
    rw [hpc] at taken
    simp only [access] at taken
    split at taken
    · cases taken
      exact tickets_goto s i _
    · split at taken <;> cases taken <;> exact tickets_goto s i _
  | pushCas data pos =>
    rw [hpc] at taken ok
    simp only [access] at taken
    split at taken
    · rename_i won
      rw [effect, if_pos won]
      cases taken
      obtain ⟨rfl, _⟩ := won
      have room : s.epos + 1 ≤ s.dpos + size := after.ring
      have order := h.order
      have length := tickets_length h
      simp only [Performs, TicketQueue.step]
      rw [if_pos (by omega), tickets_goto, tickets_claim h data (ok.2 rfl)]
    · rename_i lost
      rw [effect, if_neg lost]
      cases taken
      exact tickets_goto s i _
  | pushData data pos =>
    rw [hpc] at taken
    cases taken
    exact tickets_data s pos _
  | pushStoreSeq pos =>
    rw [hpc] at taken ok
    cases taken
    exact tickets_publish accepted h ok.1 ok.2.1 rfl
  | popCas pos =>
    rw [hpc] at taken ok
    simp only [access] at taken
    split at taken
    · rename_i won
      rw [effect, if_pos won]
      cases taken
      obtain ⟨rfl, _⟩ := won
      have published := ok.2 rfl
      have ready : s.ready size s.dpos = true := decide_eq_true published
      have more := ((seq_dpos accepted h).2.2 published).1
      have front := TicketQueue.window_take ready (h.tickets.symm ▸ more)
      simp only [Performs, TicketQueue.step, State.tickets]
      rw [front]
      rfl
    · rename_i lost
      rw [effect, if_neg lost]
      cases taken
      exact tickets_goto s i _
  | popData pos =>
    rw [hpc] at taken
    cases taken
    exact tickets_data s pos _
  | popStoreSeq pos data =>
    rw [hpc] at taken
    cases taken
    exact tickets_release accepted h (by rw [hpc]; rfl) _
  | emptyEpos loaded | emptyDpos loaded =>
    rw [hpc] at taken
    cases loaded <;> cases taken <;> exact tickets_goto s i _

theorem step_performs {t : State Tid T} {i : Tid} {a : Act T} (taken : step size s (i, a) = some t) :
    ∃ op, Performs size s t op ∧ ∀ spurious, a = .go spurious → op = effect s spurious (s.pc i) := by
  cases a with
  | call c =>
    obtain ⟨-, rfl⟩ := call_iff.mp taken
    exact ⟨none, tickets_goto s i _, fun _ eq => by cases eq⟩
  | go spurious =>
    exact ⟨effect s spurious (s.pc i), access_performs accepted h taken, fun _ eq => by cases eq; rfl⟩

omit accepted h in
/-- Every run of the queue is one of the ticket queue of its size. -/
theorem simulates_ticket_queue :
    Simulates (system Tid T size) (TicketQueue.system T size) (State.tickets size) where
  start s begin := by
    obtain ⟨-, rfl⟩ := lfqueue_eq_ok.mp begin
    rfl
  step s a t reached taken := by
    obtain ⟨accepted, h⟩ := reached_inv reached
    obtain ⟨op, performs, _⟩ := step_performs accepted h taken
    cases op with
    | none => exact .inl performs
    | some op => exact .inr ⟨op, performs⟩

end Pot.LfqueueModule
