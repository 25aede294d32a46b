import Pot.Histories
import Pot.Residues

/-! lfqueue (algorithms/lfqueue.h) when its calls come one after the other, with size_t as it is:
positions and sequence numbers of 64 bits that wrap. -/
namespace Pot.LfqueueWrapping
open Histories Residues

def MPSC_QUEUE_CAPACITY : Nat := 1024

def capacity : BitVec 64 := BitVec.ofNat 64 MPSC_QUEUE_CAPACITY

def mask : BitVec 64 := capacity - 1

/-- `pos & mask` -/
def slot (pos : BitVec 64) : Nat := (pos &&& mask).toNat

structure Cell (T : Type) where
  sequence : BitVec 64
  data : T

structure Lfqueue (T : Type) where
  buffer : Nat → Cell T
  enqueuePos : BitVec 64
  dequeuePos : BitVec 64

variable {T : Type}

/-- lfqueue::lfqueue; the data of a new cell is a default value. -/
def lfqueue [Inhabited T] : Lfqueue T where
  buffer i := ⟨BitVec.ofNat 64 i, default⟩
  enqueuePos := 0
  dequeuePos := 0

def Lfqueue.setCell (s : Lfqueue T) (pos : BitVec 64) (c : Cell T) : Lfqueue T :=
  { s with buffer := Function.update s.buffer (slot pos) c }

/-- The loop of push, from a position on. The list says of each pass whether the weak
compare-exchange fails although the values agree; there is no answer when it ends too early. -/
def push (s : Lfqueue T) (msg : T) (pos : BitVec 64) : List Bool → Option (Lfqueue T × Bool)
  | [] => none
  | spurious :: passes =>
    let cell := s.buffer (slot pos)
    let dif := (cell.sequence - pos).toInt
    if dif = 0 then
      if s.enqueuePos = pos ∧ spurious = false then
        some ({ s.setCell pos ⟨pos + 1, msg⟩ with enqueuePos := pos + 1 }, true)
      else push s msg s.enqueuePos passes
    else if dif < 0 then some (s, false)
    else push s msg s.enqueuePos passes

/-- The loop of pop; `moved` is what the move out of a cell leaves there. -/
def pop (moved : T → T) (s : Lfqueue T) (pos : BitVec 64) :
    List Bool → Option (Lfqueue T × Option T)
  | [] => none
  | spurious :: passes =>
    let cell := s.buffer (slot pos)
    let dif := (cell.sequence - (pos + 1)).toInt
    if dif = 0 then
      if s.dequeuePos = pos ∧ spurious = false then
        some ({ s.setCell pos ⟨pos + mask + 1, moved cell.data⟩ with dequeuePos := pos + 1 },
          some cell.data)
      else pop moved s s.dequeuePos passes
    else if dif < 0 then some (s, none)
    else pop moved s s.dequeuePos passes

inductive Call (T : Type) where
  | push (msg : T)
  | pop

inductive Answer (T : Type) where
  | pushed (done : Bool)
  | popped (result : Option T)

/-- One call with the passes its loop makes. -/
def call (moved : T → T) (s : Lfqueue T) (passes : List Bool) :
    Call T → Option (Lfqueue T × Answer T)
  | .push msg => (push s msg s.enqueuePos passes).map fun (u, done) => (u, .pushed done)
  | .pop => (pop moved s s.dequeuePos passes).map fun (u, result) => (u, .popped result)

def Calls (moved : T → T) (s : Lfqueue T) (c : Call T) (answer : Answer T) (u : Lfqueue T) : Prop :=
  ∃ passes, call moved s passes c = some (u, answer)

/-- A queue of at most 1024 elements. -/
def fifo (items : List T) : Call T → List T × Answer T
  | .push msg =>
    if items.length = 1024 then (items, .pushed false) else (items ++ [msg], .pushed true)
  | .pop => match items with
    | [] => ([], .popped none)
    | first :: rest => (rest, .popped (some first))

theorem slot_ofNat (p : Nat) : slot (BitVec.ofNat 64 p) = p % 1024 :=
  toNat_and_mask (by decide : 10 ≤ 64) p

theorem dif_ofNat {a b : Nat} (near : a ≤ b + 1024) (near' : b ≤ a + 1024) :
    (BitVec.ofNat 64 a - BitVec.ofNat 64 b).toInt = (a : Int) - b :=
  toInt_sub (by omega) (by omega) (by decide)

/-- The elements are at the positions from `d` on; the other slots wait for the next round. -/
structure Stands (s : Lfqueue T) (d : Nat) (items : List T) : Prop where
  bound : items.length ≤ 1024
  dequeue : s.dequeuePos = BitVec.ofNat 64 d
  enqueue : s.enqueuePos = BitVec.ofNat 64 (d + items.length)
  stored : ∀ i (inside : i < items.length),
    s.buffer ((d + i) % 1024) = ⟨BitVec.ofNat 64 (d + i + 1), items[i]⟩
  free : ∀ i, items.length ≤ i → i < 1024 →
    (s.buffer ((d + i) % 1024)).sequence = BitVec.ofNat 64 (d + i)

theorem initial_stands [Inhabited T] : Stands (lfqueue : Lfqueue T) 0 [] where
  bound := Nat.zero_le _
  dequeue := rfl
  enqueue := rfl
  stored _ inside := absurd inside (Nat.not_lt_zero _)
  free i _ inside := by
    rw [Nat.zero_add, Nat.mod_eq_of_lt inside]
    rfl

def Lfqueue.pushed (s : Lfqueue T) (msg : T) : Lfqueue T :=
  { s.setCell s.enqueuePos ⟨s.enqueuePos + 1, msg⟩ with enqueuePos := s.enqueuePos + 1 }

def Lfqueue.popped (moved : T → T) (s : Lfqueue T) : Lfqueue T :=
  { s.setCell s.dequeuePos ⟨s.dequeuePos + mask + 1, moved (s.buffer (slot s.dequeuePos)).data⟩ with
    dequeuePos := s.dequeuePos + 1 }

section Stood

variable {s : Lfqueue T} {d : Nat} {items : List T} (h : Stands s d items)

include h

theorem Stands.push_full (full : items.length = 1024) (msg : T) (passes : List Bool) :
    push s msg s.enqueuePos passes = if passes = [] then none else some (s, false) := by
  cases passes with
  | nil => rfl
  | cons spurious passes =>
    have here : (s.buffer (slot s.enqueuePos)).sequence = BitVec.ofNat 64 (d + 1) := by
      rw [h.enqueue, slot_ofNat, full, Nat.add_mod_right]
      exact congrArg Cell.sequence (h.stored 0 (by omega))
    have dif : ((s.buffer (slot s.enqueuePos)).sequence - s.enqueuePos).toInt = -1023 := by
      rw [here, h.enqueue, full, dif_ofNat (by omega) (by omega)]
      omega
    unfold push
    simp only [dif]
    rfl

theorem Stands.push_room (room : items.length < 1024) (msg : T) (passes : List Bool) :
    push s msg s.enqueuePos passes = if false ∈ passes then some (s.pushed msg, true) else none := by
  induction passes with
  | nil => rfl
  | cons spurious passes ih =>
    have here : (s.buffer (slot s.enqueuePos)).sequence = s.enqueuePos := by
      rw [h.enqueue, slot_ofNat]
      exact h.free items.length (Nat.le_refl _) room
    unfold push
    simp only [here, BitVec.sub_self, BitVec.toInt_zero, if_true, true_and]
    cases spurious with
    | false => simp [Lfqueue.pushed]
    | true => simpa using ih

theorem Stands.pop_empty (none_stored : items = []) (moved : T → T) (passes : List Bool) :
    pop moved s s.dequeuePos passes = if passes = [] then none else some (s, none) := by
  subst none_stored
  cases passes with
  | nil => rfl
  | cons spurious passes =>
    have here : (s.buffer (slot s.dequeuePos)).sequence = BitVec.ofNat 64 d := by
      rw [h.dequeue, slot_ofNat]
      exact h.free 0 (Nat.le_refl _) (by decide)
    have dif : ((s.buffer (slot s.dequeuePos)).sequence - (s.dequeuePos + 1)).toInt = -1 := by
      rw [here, h.dequeue, show (1 : BitVec 64) = BitVec.ofNat 64 1 from rfl, ofNat_add,
        dif_ofNat (by omega) (by omega)]
      omega
    unfold pop
    simp only [dif]
    rfl

theorem Stands.pop_stored {first : T} {rest : List T} (some_stored : items = first :: rest)
    (moved : T → T) (passes : List Bool) :
    pop moved s s.dequeuePos passes =
      if false ∈ passes then some (s.popped moved, some first) else none := by
  subst some_stored
  induction passes with
  | nil => rfl
  | cons spurious passes ih =>
    have here : s.buffer (slot s.dequeuePos) = ⟨s.dequeuePos + 1, first⟩ := by
      rw [h.dequeue, slot_ofNat, show (1 : BitVec 64) = BitVec.ofNat 64 1 from rfl, ofNat_add]
      exact h.stored 0 (Nat.succ_pos _)
    unfold pop
    simp only [here, BitVec.sub_self, BitVec.toInt_zero, if_true, true_and]
    cases spurious with
    | false => simp [Lfqueue.popped, here]
    | true => simpa using ih

theorem Stands.pushed (room : items.length < 1024) (msg : T) :
    Stands (s.pushed msg) d (items ++ [msg]) := by
  have cells : (s.pushed msg).buffer = Function.update s.buffer ((d + items.length) % 1024)
      ⟨BitVec.ofNat 64 (d + items.length + 1), msg⟩ := by
    have at_slot : slot s.enqueuePos = (d + items.length) % 1024 := by rw [h.enqueue, slot_ofNat]
    rw [← at_slot, ← ofNat_add, ← h.enqueue]
    rfl
  refine ⟨?_, h.dequeue, ?_, fun i inside => ?_, fun i outside inside => ?_⟩
  · rw [List.length_append]
    exact room
  · rw [List.length_append, ← Nat.add_assoc, ← ofNat_add, ← h.enqueue]
    rfl
  · rw [List.length_append, List.length_singleton] at inside
    rw [cells]
    by_cases last : i = items.length
    · subst last
      rw [Function.update_self, List.getElem_concat_length rfl]
    · have before : i < items.length := by omega
      rw [Function.update_of_ne (by omega), h.stored i before, List.getElem_append_left before]
  · rw [List.length_append, List.length_singleton] at outside
    rw [cells, Function.update_of_ne (by omega)]
    exact h.free i (by omega) inside

theorem Stands.popped {first : T} {rest : List T} (some_stored : items = first :: rest)
    (moved : T → T) : Stands (s.popped moved) (d + 1) rest := by
  subst some_stored
  have bound : rest.length + 1 ≤ 1024 := h.bound
  have cells : (s.popped moved).buffer = Function.update s.buffer (d % 1024)
      ⟨BitVec.ofNat 64 (d + 1024), moved first⟩ := by
    have at_slot : slot s.dequeuePos = d % 1024 := by rw [h.dequeue, slot_ofNat]
    have here : s.buffer (d % 1024) = ⟨BitVec.ofNat 64 (d + 1), first⟩ := h.stored 0 (Nat.succ_pos _)
    have next : s.dequeuePos + mask + 1 = BitVec.ofNat 64 (d + 1024) := by
      rw [h.dequeue, BitVec.add_assoc, ← ofNat_add]
      rfl
    rw [← next, ← at_slot]
    rw [← at_slot] at here
    have data : first = (s.buffer (slot s.dequeuePos)).data := by rw [here]
    rw [data]
    rfl
  refine ⟨by omega, ?_, ?_, fun i inside => ?_, fun i outside inside => ?_⟩
  · rw [← ofNat_add, ← h.dequeue]
    rfl
  · change s.enqueuePos = _
    rw [h.enqueue, List.length_cons]
    congr 1
    omega
  · rw [cells, Function.update_of_ne (by omega)]
    have here := h.stored (i + 1) (Nat.succ_lt_succ inside)
    rw [show d + 1 + i = d + (i + 1) by omega, here]
    rfl
  · rw [cells]
    by_cases last : i = 1023
    · subst last
      rw [show (d + 1 + 1023) % 1024 = d % 1024 by omega, Function.update_self]
    · rw [Function.update_of_ne (by omega), show d + 1 + i = d + (i + 1) by omega]
      exact h.free (i + 1) (Nat.succ_le_succ outside) (by omega)

end Stood

/-- What a call answers, what it leaves, and that it ends with the first pass that does not fail
without need. -/
structure Answers (moved : T → T) (s : Lfqueue T) (items : List T) (c : Call T) : Prop where
  specified : ∀ answer u, Calls moved s c answer u →
    answer = (fifo items c).2 ∧ ∃ d, Stands u d (fifo items c).1
  unchanged : ∀ answer u, Calls moved s c answer u →
    answer = .pushed false ∨ answer = .popped none → u = s
  returns : ∀ n, (call moved s (List.replicate n true ++ [false]) c).isSome

theorem push_answers (moved : T → T) {s : Lfqueue T} {d : Nat} {items : List T}
    (h : Stands s d items) (msg : T) : Answers moved s items (.push msg) := by
  by_cases full : items.length = 1024
  · have spec : fifo items (.push msg) = (items, .pushed false) := if_pos full
    have result := h.push_full full msg
    refine ⟨fun answer u calls => ?_, fun answer u calls _ => ?_, fun n => ?_⟩
    · obtain ⟨passes, taken⟩ := calls
      rw [call, result] at taken
      split at taken <;> cases taken
      exact ⟨by rw [spec], d, by rw [spec]; exact h⟩
    · obtain ⟨passes, taken⟩ := calls
      rw [call, result] at taken
      split at taken <;> cases taken
      rfl
    · rw [call, result]
      simp
  · have room : items.length < 1024 := Nat.lt_of_le_of_ne h.bound full
    have spec : fifo items (.push msg) = (items ++ [msg], .pushed true) := if_neg full
    have result := h.push_room room msg
    refine ⟨fun answer u calls => ?_, fun answer u calls refused => ?_, fun n => ?_⟩
    · obtain ⟨passes, taken⟩ := calls
      rw [call, result] at taken
      split at taken <;> cases taken
      exact ⟨by rw [spec], d, by rw [spec]; exact h.pushed room msg⟩
    · obtain ⟨passes, taken⟩ := calls
      rw [call, result] at taken
      split at taken <;> cases taken
      rcases refused with none | none <;> cases none
    · rw [call, result]
      simp

theorem pop_answers (moved : T → T) {s : Lfqueue T} {d : Nat} {items : List T}
    (h : Stands s d items) : Answers moved s items .pop := by
  cases hi : items with
  | nil =>
    have result := h.pop_empty hi moved
    subst hi
    refine ⟨fun answer u calls => ?_, fun answer u calls _ => ?_, fun n => ?_⟩
    · obtain ⟨passes, taken⟩ := calls
      rw [call, result] at taken
      split at taken <;> cases taken
      exact ⟨rfl, d, h⟩
    · obtain ⟨passes, taken⟩ := calls
      rw [call, result] at taken
      split at taken <;> cases taken
      rfl
    · rw [call, result]
      simp
  | cons first rest =>
    have result := h.pop_stored hi moved
    refine ⟨fun answer u calls => ?_, fun answer u calls refused => ?_, fun n => ?_⟩
    · obtain ⟨passes, taken⟩ := calls
      rw [call, result] at taken
      split at taken <;> cases taken
      exact ⟨rfl, d + 1, h.popped hi moved⟩
    · obtain ⟨passes, taken⟩ := calls
      rw [call, result] at taken
      split at taken <;> cases taken
      rcases refused with none | none <;> cases none
    · rw [call, result]
      simp

theorem stands_answers (moved : T → T) {s : Lfqueue T} {d : Nat} {items : List T}
    (h : Stands s d items) (c : Call T) : Answers moved s items c := by
  cases c with
  | push msg => exact push_answers moved h msg
  | pop => exact pop_answers moved h

/-- Every history of calls one after the other, however long: the answers are those of a first-in
first-out list of at most 1024 elements, though the positions wrap; a refused push and a pop
without result change nothing; and every call returns. -/
theorem wrapping_fifo [Inhabited T] (moved : T → T) {h : List (Call T × Answer T)} {s : Lfqueue T}
    (history : History (fun s => s = lfqueue) (Calls moved) h s) :
    h.map Prod.snd = answers fifo [] (h.map Prod.fst) ∧
    (∀ c answer u, Calls moved s c answer u →
      answer = .pushed false ∨ answer = .popped none → u = s) ∧
    ∀ c n, (call moved s (List.replicate n true ++ [false]) c).isSome := by
  obtain ⟨same, d, stands⟩ := history.refines (fun s items => ∃ d, Stands s d items)
    (fun s start => ⟨0, start ▸ initial_stands⟩) fun _ _ c answer u before calls => by
      obtain ⟨_, stands⟩ := before
      exact (stands_answers moved stands c).specified answer u calls
  exact ⟨same, fun c => (stands_answers moved stands c).unchanged,
    fun c => (stands_answers moved stands c).returns⟩

def oneStored : Lfqueue Nat := (lfqueue : Lfqueue Nat).pushed 7

def takenOut : Lfqueue Nat := oneStored.popped id

/-- A compare-exchange of the push fails once without need. -/
theorem wrapping_fifo_one :
    [.pushed true, .popped (some 7), .popped none] = answers fifo [] [.push 7, .pop, .pop] := by
  have first : Calls id (lfqueue : Lfqueue Nat) (.push 7) (.pushed true) oneStored :=
    ⟨[true, false], rfl⟩
  have second : Calls id oneStored .pop (.popped (some 7)) takenOut := ⟨[false], rfl⟩
  have third : Calls id takenOut .pop (.popped none) takenOut := ⟨[false], rfl⟩
  have start : History (fun s => s = (lfqueue : Lfqueue Nat)) (Calls id) [] lfqueue := .nil rfl
  have history : History (fun s => s = (lfqueue : Lfqueue Nat)) (Calls id)
      [(.push 7, .pushed true), (.pop, .popped (some 7)), (.pop, .popped none)] takenOut :=
    .snoc (.snoc (.snoc start first) second) third
  exact (wrapping_fifo id history).1

end Pot.LfqueueWrapping
