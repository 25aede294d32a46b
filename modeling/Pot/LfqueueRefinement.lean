import Pot.LfqueueInvariant
import Pot.TicketQueue

/-! The lock-free queue as a bounded queue of tickets: push takes effect at its exchange and,
for the consumers, at its sequence store, pop at its exchange. The models of the pools use the
tickets in the place of the cells. -/
namespace Pot.Lfqueue
open Transition
open TicketQueue (Ticket Op)

variable {Tid T : Type}

def State.tickets (s : State Tid T) : List (Ticket T) :=
  (s.pushed.drop s.dequeuePos).mapIdx fun k msg =>
    ⟨msg, s.seqAt (s.dequeuePos + k) = s.dequeuePos + k + 1⟩

/-- What the next access of a thread does to the tickets. -/
def effect (s : State Tid T) (spurious : Bool) : Pc T → Option (Op T)
  | .pushCas msg pos => if s.enqueuePos = pos ∧ spurious = false then some (.claim msg) else none
  | .pushStoreSeq pos => some (.publish (pos - s.dequeuePos))
  | .popCas pos => if s.dequeuePos = pos ∧ spurious = false then some .take else none
  | _ => none

theorem tickets_getElem? (s : State Tid T) (k : Nat) : s.tickets[k]? =
    s.pushed[s.dequeuePos + k]?.map fun msg =>
      ⟨msg, s.seqAt (s.dequeuePos + k) = s.dequeuePos + k + 1⟩ := by
  rw [State.tickets, List.getElem?_mapIdx, List.getElem?_drop]

theorem tickets_length {s : State Tid T} (h : Inv s) :
    s.tickets.length + s.dequeuePos = s.enqueuePos := by
  have hlen := h.tickets
  have horder := h.order
  rw [State.tickets, List.length_mapIdx, List.length_drop]
  omega

theorem tickets_setCell {s : State Tid T} {pos : Nat} {c : Cell T}
    (keeps : ∀ q, s.dequeuePos ≤ q → q < s.pushed.length → slot q = slot pos →
      c.sequence = s.seqAt q) : (s.setCell pos c).tickets = s.tickets := by
  apply List.ext_getElem?
  intro k
  rw [tickets_getElem?, tickets_getElem?]
  change s.pushed[s.dequeuePos + k]?.map (fun msg =>
    Ticket.mk msg ((s.setCell pos c).seqAt (s.dequeuePos + k) = s.dequeuePos + k + 1)) = _
  cases hk : s.pushed[s.dequeuePos + k]? with
  | none => rfl
  | some msg =>
    have inside := (List.getElem?_eq_some_iff.mp hk).1
    rw [seqAt_setCell]
    split
    · rename_i same
      rw [keeps _ (Nat.le_add_right _ _) inside same]
    · rfl

theorem tickets_claim {s : State Tid T} (h : Inv s) (msg : T)
    (free : s.seqAt s.enqueuePos = s.enqueuePos) :
    ({ s with enqueuePos := s.enqueuePos + 1, pushed := s.pushed ++ [msg] }).tickets =
      s.tickets ++ [⟨msg, false⟩] := by
  have hlen := h.tickets
  have horder := h.order
  have last : s.dequeuePos + (s.pushed.drop s.dequeuePos).length = s.enqueuePos := by
    rw [List.length_drop]
    omega
  change ((s.pushed ++ [msg]).drop s.dequeuePos).mapIdx (fun k msg =>
    Ticket.mk msg (s.seqAt (s.dequeuePos + k) = s.dequeuePos + k + 1)) = _
  rw [List.drop_append_of_le_length (by omega), List.mapIdx_concat, last, decide_eq_false (by omega)]
  rfl

theorem tickets_take {s : State Tid T} (h : Inv s) (more : s.dequeuePos < s.enqueuePos)
    (ready : s.seqAt s.dequeuePos = s.dequeuePos + 1) :
    ∃ msg, s.pushed[s.dequeuePos]? = some msg ∧
      s.tickets = ⟨msg, true⟩ :: ({ s with dequeuePos := s.dequeuePos + 1 }).tickets := by
  have hlen := h.tickets
  have inside : s.dequeuePos < s.pushed.length := by omega
  refine ⟨s.pushed[s.dequeuePos], List.getElem?_eq_getElem inside, ?_⟩
  simp only [State.tickets]
  rw [List.drop_eq_getElem_cons inside, List.mapIdx_cons, Nat.add_zero, decide_eq_true ready]
  congr 1
  apply List.mapIdx_eq_mapIdx_iff.mpr
  intro k _
  change Ticket.mk _ (decide (s.seqAt (s.dequeuePos + (k + 1)) = s.dequeuePos + (k + 1) + 1)) =
    ⟨_, decide (s.seqAt (s.dequeuePos + 1 + k) = s.dequeuePos + 1 + k + 1)⟩
  rw [Nat.add_right_comm s.dequeuePos 1 k, ← Nat.add_assoc s.dequeuePos k 1]

theorem tickets_publish {s : State Tid T} (h : Inv s) {pos : Nat} {c : Cell T}
    (lo : s.dequeuePos ≤ pos) (hi : pos < s.enqueuePos) (next : c.sequence = pos + 1) :
    TicketQueue.publish s.tickets (pos - s.dequeuePos) = some (s.setCell pos c).tickets := by
  have hc : capacity = 1024 := rfl
  have hring := h.ring
  have hlen := h.tickets
  have inside : pos < s.pushed.length := by omega
  have back : s.dequeuePos + (pos - s.dequeuePos) = pos := by omega
  rw [TicketQueue.publish, tickets_getElem?, back, List.getElem?_eq_getElem inside, Option.map_some,
    Option.map_some, Option.some_inj]
  apply List.ext_getElem?
  intro k
  rw [List.getElem?_set, tickets_getElem?, tickets_getElem?]
  change _ = s.pushed[s.dequeuePos + k]?.map fun msg =>
    Ticket.mk msg ((s.setCell pos c).seqAt (s.dequeuePos + k) = s.dequeuePos + k + 1)
  split
  · rename_i here
    subst k
    rw [if_pos (by have := tickets_length h; omega), back, List.getElem?_eq_getElem inside,
      Option.map_some, seqAt_setCell, if_pos rfl, decide_eq_true next]
  · cases hk : s.pushed[s.dequeuePos + k]? with
    | none => rfl
    | some msg =>
      have bound := (List.getElem?_eq_some_iff.mp hk).1
      have far : slot (s.dequeuePos + k) ≠ slot pos := by
        simp only [slot_mod]
        omega
      rw [seqAt_setCell, if_neg far]

theorem tickets_data (s : State Tid T) (pos : Nat) (data : Option T) :
    (s.setCell pos { s.buffer (slot pos) with data := data }).tickets = s.tickets :=
  tickets_setCell fun q _ _ same => by simp only [State.seqAt, same]

/-- The cell of a taken ticket is no queued ticket's. -/
theorem tickets_release {s : State Tid T} (h : Inv s) {i : Tid} {pos : Nat}
    (own : (s.pc i).popTicket = some pos) (c : Cell T) :
    (s.setCell pos c).tickets = s.tickets := by
  apply tickets_setCell
  intro q lo hi same
  have hlen := h.tickets
  have hring := h.ring
  have vacant := (popped_cell h own same lo (by omega)).2
  omega

theorem seq_of_taken {s : State Tid T} (h : Inv s) {q : Nat} (taken : q < s.dequeuePos) :
    q + 1 ≤ s.seqAt q := by
  have hc : capacity = 1024 := rfl
  -- the ticket of the present lap at the cell of `q`
  obtain ⟨p, lo, hi, lap, same⟩ : ∃ p, s.dequeuePos ≤ p ∧ p < s.dequeuePos + capacity ∧
      q + capacity ≤ p ∧ slot p = slot q := by
    refine ⟨q + 1024 * ((s.dequeuePos - q + 1023) / 1024), ?_, ?_, ?_, ?_⟩
    · omega
    · omega
    · omega
    · simp only [slot_mod]
      omega
  have eq : s.seqAt p = s.seqAt q := by simp only [State.seqAt, same]
  by_cases inside : p < s.enqueuePos
  · rcases h.filled p lo inside with ⟨hf, _⟩ | hf <;> omega
  · rcases h.vacant p (Nat.le_of_not_lt inside) hi with hv | hv <;> omega

theorem seqAt_grows {s : State Tid T} {pos : Nat} {c : Cell T} (grows : s.seqAt pos ≤ c.sequence)
    (q : Nat) : s.seqAt q ≤ (s.setCell pos c).seqAt q := by
  rw [seqAt_setCell]
  split
  · rename_i same
    simp only [State.seqAt, same]
    exact grows
  · exact Nat.le_refl _

/-- How far the sequence numbers have come: those of the pops that have returned are in the
next lap. -/
structure Released (s : State Tid T) : Prop where
  first : ∀ q, slot q ≤ s.seqAt q
  next : ∀ r ∈ s.popped, r.1 + capacity ≤ s.seqAt r.1

theorem Released.grow {s t : State Tid T} (h : Released s) (popped : t.popped = s.popped)
    (grows : ∀ q, s.seqAt q ≤ t.seqAt q) : Released t := by
  refine ⟨fun q => Nat.le_trans (h.first q) (grows q), fun r hr => ?_⟩
  rw [popped] at hr
  exact Nat.le_trans (h.next r hr) (grows r.1)

/-- The tickets go from `s` to `t` by one operation, or stay. -/
def Performs (s t : State Tid T) : Option (Op T) → Prop
  | some op => TicketQueue.step capacity s.tickets op = some t.tickets
  | none => t.tickets = s.tickets

variable [DecidableEq Tid]

theorem tickets_goto (s : State Tid T) (i : Tid) (p : Pc T) : (s.goto i p).tickets = s.tickets := rfl

theorem push_performs {s t : State Tid T} {i : Tid} {spurious : Bool} (h : Inv s)
    (taken : push s i spurious (s.pc i) = some t) : Performs s t (effect s spurious (s.pc i)) := by
  have ok := h.threads i
  have after := push_inv h taken
  cases hpc : s.pc i with
  | pushLoadPos msg =>
    rw [hpc] at taken
    cases taken
    exact tickets_goto s i _
  | pushLoadSeq msg pos =>
    rw [hpc] at taken
    simp only [push] at taken
    split at taken
    · cases taken
      exact tickets_goto s i _
    · split at taken <;> cases taken <;> exact tickets_goto s i _
  | pushCas msg pos =>
    rw [hpc] at taken ok
    simp only [push] at taken
    split at taken
    · rename_i won
      rw [effect, if_pos won]
      cases taken
      obtain ⟨rfl, _⟩ := won
      have room : s.enqueuePos + 1 ≤ s.dequeuePos + capacity := after.ring
      have length := tickets_length h
      simp only [Performs, TicketQueue.step]
      rw [if_pos (by omega), tickets_goto, tickets_claim h msg (ok.2 rfl)]
    · rename_i lost
      rw [effect, if_neg lost]
      cases taken
      exact tickets_goto s i _
  | pushData msg pos =>
    rw [hpc] at taken
    cases taken
    exact tickets_data s pos _
  | pushStoreSeq pos =>
    rw [hpc] at taken ok
    cases taken
    exact tickets_publish h ok.1 ok.2.1 rfl
  | _ => rw [hpc] at taken; cases taken

theorem pop_performs {s t : State Tid T} {i : Tid} {spurious : Bool} (h : Inv s)
    (taken : pop s i spurious (s.pc i) = some t) : Performs s t (effect s spurious (s.pc i)) := by
  have ok := h.threads i
  cases hpc : s.pc i with
  | popLoadPos =>
    rw [hpc] at taken
    cases taken
    exact tickets_goto s i _
  | popLoadSeq pos =>
    rw [hpc] at taken
    simp only [pop] at taken
    split at taken
    · cases taken
      exact tickets_goto s i _
    · split at taken <;> cases taken <;> exact tickets_goto s i _
  | popCas pos =>
    rw [hpc] at taken ok
    simp only [pop] at taken
    split at taken
    · rename_i won
      rw [effect, if_pos won]
      cases taken
      obtain ⟨rfl, _⟩ := won
      obtain ⟨more, ready⟩ := ok.2 rfl
      obtain ⟨msg, _, front⟩ := tickets_take h more ready
      simp only [Performs, TicketQueue.step]
      rw [front]
      rfl
    · rename_i lost
      rw [effect, if_neg lost]
      cases taken
      exact tickets_goto s i _
  | popData pos =>
    rw [hpc] at taken
    cases taken
    exact tickets_data s pos _
  | popStoreSeq pos r =>
    rw [hpc] at taken
    cases taken
    exact tickets_release h (by rw [hpc]; rfl) _
  | _ => rw [hpc] at taken; cases taken

theorem step_performs {s t : State Tid T} {i : Tid} {a : Act T} (h : Inv s)
    (taken : step s (i, a) = some t) :
    ∃ op, Performs s t op ∧ ∀ spurious, a = .go spurious → op = effect s spurious (s.pc i) := by
  cases a with
  | push msg | pop =>
    simp only [step] at taken
    split at taken <;> cases taken
    exact ⟨none, tickets_goto s i _, fun _ eq => by cases eq⟩
  | go spurious =>
    refine ⟨effect s spurious (s.pc i), ?_, fun _ eq => by cases eq; rfl⟩
    simp only [step, Option.or_eq_some_iff] at taken
    rcases taken with pushed | ⟨_, popped⟩
    · exact push_performs h pushed
    · exact pop_performs h popped

/-- Every run of the queue is one of the ticket queue of its capacity. -/
theorem refines_ticket_queue : Simulates (system Tid T) (TicketQueue.system T capacity)
    State.tickets where
  start s eq := by subst s; rfl
  step s a t reached taken := by
    obtain ⟨op, performs, _⟩ := step_performs (reached_inv reached) taken
    cases op with
    | none => exact .inl performs
    | some op => exact .inr ⟨op, performs⟩

theorem push_released {s t : State Tid T} {i : Tid} {spurious : Bool} (h : Inv s)
    (released : Released s) (taken : push s i spurious (s.pc i) = some t) : Released t := by
  have ok := h.threads i
  cases hpc : s.pc i with
  | pushLoadPos | pushLoadSeq | pushCas =>
    rw [hpc] at taken
    simp only [push] at taken
    repeat' split at taken
    all_goals cases taken; exact released.grow rfl fun q => Nat.le_refl _
  | pushData msg pos =>
    rw [hpc] at taken
    cases taken
    exact released.grow rfl (seqAt_grows (Nat.le_refl _))
  | pushStoreSeq pos =>
    rw [hpc] at taken ok
    cases taken
    have seq : s.seqAt pos = pos := ok.2.2.1
    exact released.grow rfl (seqAt_grows (Nat.le_succ_of_le (Nat.le_of_eq seq)))
  | _ => rw [hpc] at taken; cases taken

theorem pop_released {s t : State Tid T} {i : Tid} {spurious : Bool} (h : Inv s)
    (released : Released s) (taken : pop s i spurious (s.pc i) = some t) : Released t := by
  have ok := h.threads i
  cases hpc : s.pc i with
  | popLoadPos | popLoadSeq | popCas =>
    rw [hpc] at taken
    simp only [pop] at taken
    repeat' split at taken
    all_goals cases taken; exact released.grow rfl fun q => Nat.le_refl _
  | popData pos =>
    rw [hpc] at taken
    cases taken
    exact released.grow rfl (seqAt_grows (Nat.le_refl _))
  | popStoreSeq pos result =>
    rw [hpc] at taken ok
    cases taken
    have seq : s.seqAt pos = pos + 1 := ok.2.1
    have old : Released (s.setCell pos ⟨pos + mask + 1, s.dataAt pos⟩) := by
      refine released.grow rfl (seqAt_grows ?_)
      change s.seqAt pos ≤ pos + mask + 1
      omega
    refine ⟨old.first, fun r hr => ?_⟩
    rcases List.mem_append.mp hr with before | last
    · exact old.next r before
    · cases List.mem_singleton.mp last
      rw [seqAt_goto]
      change _ ≤ (s.setCell pos _).seqAt pos
      rw [seqAt_setCell, if_pos rfl]
      exact Nat.le_refl _
  | _ => rw [hpc] at taken; cases taken

theorem step_released {s t : State Tid T} {a : Tid × Act T} (h : Inv s) (released : Released s)
    (taken : step s a = some t) : Released t := by
  obtain ⟨i, act⟩ := a
  cases act with
  | push msg | pop =>
    simp only [step] at taken
    split at taken <;> cases taken
    exact released.grow rfl fun q => Nat.le_refl _
  | go spurious =>
    simp only [step, Option.or_eq_some_iff] at taken
    rcases taken with pushed | ⟨_, popped⟩
    · exact push_released h released pushed
    · exact pop_released h released popped

theorem reached_released {s : State Tid T} (h : Reached (system Tid T) s) : Released s := by
  induction h with
  | start eq =>
    cases eq
    exact ⟨fun q => Nat.le_refl _, fun r hr => absurd hr List.not_mem_nil⟩
  | next before _ taken ih => exact step_released (reached_inv before) ih taken

/-- push answers false only while the queue is full or a pop has not given its cell back. -/
theorem push_false {s t : State Tid T} {i : Tid} {spurious : Bool} {msg : T} {pos : Nat}
    (reached : Reached (system Tid T) s) (at_pc : s.pc i = .pushLoadSeq msg pos)
    (taken : push s i spurious (s.pc i) = some t) (back : t.pc i = .idle) :
    s.tickets.length = capacity ∨
      ∃ j p, (s.pc j).popTicket = some p ∧ p + capacity = s.enqueuePos := by
  have h := reached_inv reached
  have released := reached_released reached
  have ok := h.threads i
  rw [at_pc] at taken ok
  have behind : s.seqAt pos < pos := by
    simp only [push] at taken
    split at taken
    · cases taken
      rw [goto_self] at back
      cases back
    · split at taken
      · unfold State.seqAt
        omega
      · cases taken
        rw [goto_self] at back
        cases back
  have hc : capacity = 1024 := rfl
  have length := tickets_length h
  have hring := h.ring
  have here : pos = s.enqueuePos := by
    by_contra different
    by_cases gone : pos < s.dequeuePos
    · have := seq_of_taken h gone
      omega
    · change pos ≤ s.enqueuePos at ok
      rcases h.filled pos (by omega) (by omega) with ⟨hf, _⟩ | hf <;> omega
  by_cases room : s.enqueuePos < s.dequeuePos + capacity
  · right
    rcases h.vacant pos (by omega) (by omega) with hv | hv
    · omega
    · -- the cell still has the number of the ticket one lap before
      have first := released.first pos
      rw [slot_mod] at first
      have lap : s.seqAt (pos - capacity) = s.seqAt pos := by
        have same : slot (pos - capacity) = slot pos := by
          simp only [slot_mod]
          omega
        simp only [State.seqAt, same]
      rcases h.taken (pos - capacity) (by omega) with done | ⟨j, hj⟩
      · obtain ⟨r, hr, eq⟩ := List.mem_map.mp done
        have gone := released.next r hr
        rw [eq] at gone
        omega
      · exact ⟨j, pos - capacity, hj, by omega⟩
  · left
    omega

def alone (msg : T) : List (Unit × Act T) := ((), .push msg) :: List.replicate 5 ((), .go false)

theorem push_alone {s : State Unit T} (idle : s.pc () = .idle)
    (free : (s.buffer (slot s.enqueuePos)).sequence = s.enqueuePos) (msg : T) :
    ∃ t, replay (system Unit T) s (alone msg) = some t ∧ t.pc () = .idle ∧
      t.enqueuePos = s.enqueuePos + 1 ∧
      t.buffer = Function.update s.buffer (slot s.enqueuePos) ⟨s.enqueuePos + 1, some msg⟩ := by
  have none_between : ((s.buffer (slot s.enqueuePos)).sequence : Int) - s.enqueuePos = 0 := by
    rw [free, Int.sub_self]
  refine ⟨({ s.setCell s.enqueuePos ⟨s.enqueuePos + 1, some msg⟩ with
    enqueuePos := s.enqueuePos + 1, pushed := s.pushed ++ [msg] }).goto () .idle, ?_, goto_self ..,
    rfl, rfl⟩
  simp only [alone, List.replicate, replay, system, step, push, idle, State.goto, State.setCell,
    none_between, Function.update_self, Function.update_idem, Option.bind_some, Option.some_or,
    ↓reduceIte, and_true]

/-- The first tickets of a new queue, each pushed to its end. -/
theorem filled_reached (k : Nat) (few : k ≤ capacity) : ∃ s : State Unit Unit,
    Reached (system Unit Unit) s ∧ s.pc () = .idle ∧ s.enqueuePos = k ∧
      ∀ q, q < capacity → (s.buffer q).sequence = if q < k then q + 1 else q := by
  induction k with
  | zero => exact ⟨initial, .start rfl, rfl, rfl, fun q _ => rfl⟩
  | succ k ih =>
    obtain ⟨s, reached, idle, pos, cells⟩ := ih (Nat.le_of_succ_le few)
    subst pos
    have here : slot s.enqueuePos = s.enqueuePos := by
      rw [slot_mod]
      exact Nat.mod_eq_of_lt few
    have free : (s.buffer (slot s.enqueuePos)).sequence = s.enqueuePos := by
      rw [here, cells _ few, if_neg (Nat.lt_irrefl _)]
    obtain ⟨t, run, back, pos, buffer⟩ := push_alone idle free ()
    refine ⟨t, reached.replay _ run, back, pos, fun q below => ?_⟩
    rw [buffer, here]
    by_cases same : q = s.enqueuePos
    · rw [same, Function.update_self, if_pos (Nat.lt_succ_self _)]
    · rw [Function.update_of_ne same, cells q below]
      split <;> split <;> omega

/-- The push after as many as there are cells. -/
theorem push_false_filled : ∃ s t : State Unit Unit, Reached (system Unit Unit) s ∧
    s.pc () = .pushLoadSeq () capacity ∧ push s () false (s.pc ()) = some t ∧ t.pc () = .idle ∧
      (s.tickets.length = capacity ∨
        ∃ j p, (s.pc j).popTicket = some p ∧ p + capacity = s.enqueuePos) := by
  obtain ⟨s, reached, idle, pos, cells⟩ := filled_reached capacity (Nat.le_refl _)
  have called : (system Unit Unit).step s ((), .push ()) = some (s.goto () (.pushLoadPos ())) := by
    simp only [system, step, idle]
  have loaded : (system Unit Unit).step (s.goto () (.pushLoadPos ())) ((), .go false) =
      some ((s.goto () (.pushLoadPos ())).goto () (.pushLoadSeq () capacity)) := by
    simp only [system, step, goto_self, push, Option.some_or, ← pos]
    rfl
  have at_pc := goto_self (s.goto () (.pushLoadPos ())) () (.pushLoadSeq () capacity)
  have first : (s.buffer (slot capacity)).sequence = 1 := cells 0 (by decide)
  have behind : ((s.buffer (slot capacity)).sequence : Int) - (capacity : Nat) = -1023 := by
    rw [first]
    rfl
  have refused : push ((s.goto () (.pushLoadPos ())).goto () (.pushLoadSeq () capacity)) () false
      (.pushLoadSeq () capacity) =
      some (((s.goto () (.pushLoadPos ())).goto () (.pushLoadSeq () capacity)).goto () .idle) := by
    simp only [push, State.goto, behind]
    rfl
  have taken := refused
  rw [← at_pc] at taken
  have reached_load := (reached.next called).next loaded
  exact ⟨_, _, reached_load, at_pc, taken, goto_self .., push_false reached_load at_pc taken
    (goto_self ..)⟩

end Pot.Lfqueue
