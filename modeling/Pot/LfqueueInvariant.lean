import Pot.Lfqueue

/-! The inductive invariant of the queue. A cell's sequence number is tied to the two
counters through the one ticket of the current lap that maps to the cell; a thread that owns
a ticket pins that number. Everything else follows from residues modulo the capacity. -/
namespace Pot.Lfqueue
open Transition

variable {Tid T : Type}

/-- The ticket of a push between its successful exchange and its sequence store. -/
def Pc.pushTicket : Pc T → Option Nat
  | .pushData _ pos | .pushStoreSeq pos => some pos
  | _ => none

def Pc.popTicket : Pc T → Option Nat
  | .popData pos | .popStoreSeq pos _ => some pos
  | _ => none

def Pc.ticket : Pc T → Option Nat
  | .pushData _ pos | .pushStoreSeq pos | .popData pos | .popStoreSeq pos _ => some pos
  | _ => none

def State.seqAt (s : State Tid T) (pos : Nat) : Nat := (s.buffer (slot pos)).sequence
def State.dataAt (s : State Tid T) (pos : Nat) : Option T := (s.buffer (slot pos)).data

def ThreadOk (s : State Tid T) : Pc T → Prop
  | .idle | .pushLoadPos _ | .popLoadPos => True
  | .pushLoadSeq _ pos => pos ≤ s.enqueuePos
  | .pushCas _ pos => pos ≤ s.enqueuePos ∧ (pos = s.enqueuePos → s.seqAt pos = pos)
  | .pushData msg pos =>
    s.dequeuePos ≤ pos ∧ pos < s.enqueuePos ∧ s.seqAt pos = pos ∧ s.pushed[pos]? = some msg
  | .pushStoreSeq pos =>
    s.dequeuePos ≤ pos ∧ pos < s.enqueuePos ∧ s.seqAt pos = pos ∧ s.dataAt pos = s.pushed[pos]?
  | .popLoadSeq pos => pos ≤ s.dequeuePos
  | .popCas pos =>
    pos ≤ s.dequeuePos ∧ (pos = s.dequeuePos → pos < s.enqueuePos ∧ s.seqAt pos = pos + 1)
  | .popData pos => pos < s.dequeuePos ∧ s.seqAt pos = pos + 1 ∧ s.dataAt pos = s.pushed[pos]?
  | .popStoreSeq pos result =>
    pos < s.dequeuePos ∧ s.seqAt pos = pos + 1 ∧ result = s.pushed[pos]?

structure Inv (s : State Tid T) : Prop where
  order : s.dequeuePos ≤ s.enqueuePos
  ring : s.enqueuePos ≤ s.dequeuePos + capacity
  tickets : s.pushed.length = s.enqueuePos
  filled : ∀ p, s.dequeuePos ≤ p → p < s.enqueuePos →
    (s.seqAt p = p + 1 ∧ s.dataAt p = s.pushed[p]?) ∨ s.seqAt p = p
  vacant : ∀ p, s.enqueuePos ≤ p → p < s.dequeuePos + capacity →
    s.seqAt p = p ∨ s.seqAt p + capacity = p + 1
  threads : ∀ i, ThreadOk s (s.pc i)
  exclusive : ∀ i j p q, (s.pc i).ticket = some p → (s.pc j).ticket = some q →
    slot p = slot q → i = j
  results : ∀ t v, (t, v) ∈ s.popped → t < s.dequeuePos ∧ v = s.pushed[t]?
  once : (s.popped.map Prod.fst).Nodup
  taken : ∀ t, t < s.dequeuePos →
    t ∈ s.popped.map Prod.fst ∨ ∃ i, (s.pc i).popTicket = some t
  pending : ∀ i t, (s.pc i).popTicket = some t → t ∉ s.popped.map Prod.fst

theorem seqAt_setCell (s : State Tid T) (pos q : Nat) (c : Cell T) :
    (s.setCell pos c).seqAt q = if slot q = slot pos then c.sequence else s.seqAt q := by
  simp only [State.seqAt, State.setCell, Function.update_apply]
  split <;> rfl

theorem dataAt_setCell (s : State Tid T) (pos q : Nat) (c : Cell T) :
    (s.setCell pos c).dataAt q = if slot q = slot pos then c.data else s.dataAt q := by
  simp only [State.dataAt, State.setCell, Function.update_apply]
  split <;> rfl

theorem ticket_of_push {p : Pc T} {t : Nat} (h : p.pushTicket = some t) : p.ticket = some t := by
  cases p <;> first | exact h | cases h

theorem no_pop_of_push {p : Pc T} {t : Nat} (h : p.pushTicket = some t) : p.popTicket = none := by
  cases p <;> first | rfl | cases h

theorem no_pop_of_free {p : Pc T} (h : p.ticket = none) : p.popTicket = none := by
  cases p <;> first | rfl | cases h

theorem push_ticket_ok {s : State Tid T} {p : Pc T} (ok : ThreadOk s p) {t : Nat}
    (h : p.pushTicket = some t) : s.dequeuePos ≤ t ∧ t < s.enqueuePos ∧ s.seqAt t = t := by
  cases p with
  | pushData | pushStoreSeq => cases h; exact ⟨ok.1, ok.2.1, ok.2.2.1⟩
  | _ => cases h

theorem pop_ticket_ok {s : State Tid T} {p : Pc T} (ok : ThreadOk s p) {t : Nat}
    (h : p.popTicket = some t) : t < s.dequeuePos ∧ s.seqAt t = t + 1 := by
  cases p with
  | popData | popStoreSeq => cases h; exact ⟨ok.1, ok.2.1⟩
  | _ => cases h

theorem ticket_of_pop {p : Pc T} {t : Nat} (h : p.popTicket = some t) : p.ticket = some t := by
  cases p <;> first | exact h | cases h

/-- The owner of a ticket pins the sequence number of its cell. -/
theorem ticket_cases {s : State Tid T} {p : Pc T} (ok : ThreadOk s p) {t : Nat}
    (h : p.ticket = some t) :
    (s.dequeuePos ≤ t ∧ t < s.enqueuePos ∧ s.seqAt t = t) ∨
      (t < s.dequeuePos ∧ s.seqAt t = t + 1) := by
  cases p with
  | pushData | pushStoreSeq => cases h; exact .inl ⟨ok.1, ok.2.1, ok.2.2.1⟩
  | popData | popStoreSeq => cases h; exact .inr ⟨ok.1, ok.2.1⟩
  | _ => cases h

theorem initial_inv : Inv (initial : State Tid T) := by
  constructor
  · exact Nat.le_refl _
  · exact Nat.zero_le _
  · rfl
  · intro p _ hp; cases hp
  · intro p _ hp
    left
    simp only [initial, capacity] at hp
    simp only [State.seqAt, initial, slot_mod]
    omega
  · exact fun i => trivial
  · intro i j p q h; cases h
  · intro t v h; cases h
  · exact List.nodup_nil
  · intro t h; cases h
  · intro i t h; cases h

theorem ThreadOk.grow {s : State Tid T} {p : Pc T} {msg : T} (ok : ThreadOk s p)
    (order : s.dequeuePos ≤ s.enqueuePos)
    (old : ∀ t, t < s.enqueuePos → (s.pushed ++ [msg])[t]? = s.pushed[t]?) :
    ThreadOk { s with enqueuePos := s.enqueuePos + 1, pushed := s.pushed ++ [msg] } p := by
  cases p with
  | idle | pushLoadPos | popLoadPos => trivial
  | pushLoadSeq msg pos => exact Nat.le_succ_of_le ok
  | pushCas msg pos =>
    refine ⟨Nat.le_succ_of_le ok.1, fun eq => ?_⟩
    have hp := ok.1
    change pos = s.enqueuePos + 1 at eq
    omega
  | pushData m pos =>
    exact ⟨ok.1, Nat.lt_succ_of_lt ok.2.1, ok.2.2.1, (old pos ok.2.1).trans ok.2.2.2⟩
  | pushStoreSeq pos =>
    exact ⟨ok.1, Nat.lt_succ_of_lt ok.2.1, ok.2.2.1, ok.2.2.2.trans (old pos ok.2.1).symm⟩
  | popLoadSeq pos => exact ok
  | popCas pos => exact ⟨ok.1, fun eq => ⟨Nat.lt_succ_of_lt (ok.2 eq).1, (ok.2 eq).2⟩⟩
  | popData pos =>
    exact ⟨ok.1, ok.2.1, ok.2.2.trans (old pos (Nat.lt_of_lt_of_le ok.1 order)).symm⟩
  | popStoreSeq pos r =>
    exact ⟨ok.1, ok.2.1, ok.2.2.trans (old pos (Nat.lt_of_lt_of_le ok.1 order)).symm⟩

/-- Whatever the owner of a ticket does to its cell, no other thread relies on that cell. -/
theorem threads_elsewhere {s : State Tid T} (h : Inv s) {i : Tid} {pos : Nat}
    (mine : (s.pc i).ticket = some pos) (c : Cell T) (j : Tid) (other : j ≠ i) :
    ThreadOk (s.setCell pos c) (s.pc j) := by
  have hc : capacity = 1024 := rfl
  have owner := ticket_cases (h.threads i) mine
  have ok := h.threads j
  have apart : ∀ q, (s.pc j).ticket = some q → slot q ≠ slot pos := fun q hq hs =>
    other (h.exclusive j i q pos hq mine hs)
  have seqs : ∀ q, slot q ≠ slot pos → (s.setCell pos c).seqAt q = s.seqAt q := fun q hq => by
    rw [seqAt_setCell, if_neg hq]
  have datas : ∀ q, slot q ≠ slot pos → (s.setCell pos c).dataAt q = s.dataAt q := fun q hq => by
    rw [dataAt_setCell, if_neg hq]
  have seq_same : ∀ q, slot q = slot pos → s.seqAt q = s.seqAt pos := fun q hq => by
    simp only [State.seqAt, hq]
  cases hpc : s.pc j with
  | idle | pushLoadPos | popLoadPos => trivial
  | pushLoadSeq => rw [hpc] at ok; exact ok
  | popLoadSeq => rw [hpc] at ok; exact ok
  | pushCas msg q =>
    rw [hpc] at ok
    refine ⟨ok.1, fun eq => (seqs q ?_).trans (ok.2 eq)⟩
    intro hs
    have free := ok.2 eq
    have same := seq_same q hs
    change q = s.enqueuePos at eq
    simp only [slot_mod] at hs
    omega
  | popCas q =>
    rw [hpc] at ok
    refine ⟨ok.1, fun eq => ⟨(ok.2 eq).1, (seqs q ?_).trans (ok.2 eq).2⟩⟩
    intro hs
    have ready := (ok.2 eq).2
    have same := seq_same q hs
    change q = s.dequeuePos at eq
    simp only [slot_mod] at hs
    omega
  | pushData msg q =>
    rw [hpc] at ok
    exact ⟨ok.1, ok.2.1, (seqs q (apart q (by rw [hpc]; rfl))).trans ok.2.2.1, ok.2.2.2⟩
  | pushStoreSeq q =>
    rw [hpc] at ok
    have far := apart q (by rw [hpc]; rfl)
    exact ⟨ok.1, ok.2.1, (seqs q far).trans ok.2.2.1, (datas q far).trans ok.2.2.2⟩
  | popData q =>
    rw [hpc] at ok
    have far := apart q (by rw [hpc]; rfl)
    exact ⟨ok.1, (seqs q far).trans ok.2.1, (datas q far).trans ok.2.2⟩
  | popStoreSeq q r =>
    rw [hpc] at ok
    exact ⟨ok.1, (seqs q (apart q (by rw [hpc]; rfl))).trans ok.2.1, ok.2.2⟩

theorem filled_elsewhere {s : State Tid T} (h : Inv s) {pos : Nat} (c : Cell T) (q : Nat)
    (lo : s.dequeuePos ≤ q) (hi : q < s.enqueuePos) (far : slot q ≠ slot pos) :
    ((s.setCell pos c).seqAt q = q + 1 ∧ (s.setCell pos c).dataAt q = s.pushed[q]?) ∨
      (s.setCell pos c).seqAt q = q := by
  rw [seqAt_setCell, dataAt_setCell, if_neg far, if_neg far]
  exact h.filled q lo hi

theorem vacant_elsewhere {s : State Tid T} (h : Inv s) {pos : Nat} (c : Cell T) (q : Nat)
    (lo : s.enqueuePos ≤ q) (hi : q < s.dequeuePos + capacity) (far : slot q ≠ slot pos) :
    (s.setCell pos c).seqAt q = q ∨ (s.setCell pos c).seqAt q + capacity = q + 1 := by
  rw [seqAt_setCell, if_neg far]
  exact h.vacant q lo hi

theorem popped_cell {s : State Tid T} (h : Inv s) {i : Tid} {pos q : Nat}
    (own : (s.pc i).popTicket = some pos) (hs : slot q = slot pos) (lo : s.dequeuePos ≤ q)
    (hi : q < s.dequeuePos + capacity) : q = pos + capacity ∧ s.enqueuePos ≤ q := by
  have hc : capacity = 1024 := rfl
  obtain ⟨taken, seq⟩ := pop_ticket_ok (h.threads i) own
  have same : s.seqAt q = s.seqAt pos := by simp only [State.seqAt, hs]
  simp only [slot_mod] at hs
  by_cases inside : q < s.enqueuePos
  · rcases h.filled q lo inside with ⟨hf, _⟩ | hf <;> omega
  · rcases h.vacant q (by omega) hi with hv | hv <;> omega

theorem filled_popped {s : State Tid T} (h : Inv s) {i : Tid} {pos : Nat}
    (own : (s.pc i).popTicket = some pos) (c : Cell T) (q : Nat) (lo : s.dequeuePos ≤ q)
    (hi : q < s.enqueuePos) :
    ((s.setCell pos c).seqAt q = q + 1 ∧ (s.setCell pos c).dataAt q = s.pushed[q]?) ∨
      (s.setCell pos c).seqAt q = q := by
  apply filled_elsewhere h c q lo hi
  intro hs
  have hring := h.ring
  have lap := popped_cell h own hs lo (by omega)
  omega

theorem vacant_popped {s : State Tid T} (h : Inv s) {i : Tid} {pos : Nat}
    (own : (s.pc i).popTicket = some pos) {c : Cell T}
    (next : c.sequence = pos + capacity ∨ c.sequence = pos + 1) (q : Nat) (lo : s.enqueuePos ≤ q)
    (hi : q < s.dequeuePos + capacity) :
    (s.setCell pos c).seqAt q = q ∨ (s.setCell pos c).seqAt q + capacity = q + 1 := by
  by_cases hs : slot q = slot pos
  · have horder := h.order
    have lap := popped_cell h own hs (by omega) hi
    rw [seqAt_setCell, if_pos hs]
    omega
  · exact vacant_elsewhere h c q lo hi hs

theorem ThreadOk.advance {s : State Tid T} {p : Pc T} (ok : ThreadOk s p)
    (ready : s.seqAt s.dequeuePos = s.dequeuePos + 1) :
    ThreadOk { s with dequeuePos := s.dequeuePos + 1 } p := by
  have unpublished : ∀ pos, s.seqAt pos = pos → s.dequeuePos ≤ pos → s.dequeuePos + 1 ≤ pos := by
    intro pos hq lo
    rcases Nat.eq_or_lt_of_le lo with eq | lt
    · rw [← eq] at hq; omega
    · exact lt
  cases p with
  | idle | pushLoadPos | popLoadPos => trivial
  | pushLoadSeq msg pos => exact ok
  | pushCas msg pos => exact ok
  | pushData m pos => exact ⟨unpublished pos ok.2.2.1 ok.1, ok.2⟩
  | pushStoreSeq pos => exact ⟨unpublished pos ok.2.2.1 ok.1, ok.2⟩
  | popLoadSeq pos => exact Nat.le_succ_of_le ok
  | popCas pos =>
    refine ⟨Nat.le_succ_of_le ok.1, fun eq => ?_⟩
    have := ok.1
    change pos = s.dequeuePos + 1 at eq
    omega
  | popData pos => exact ⟨Nat.lt_succ_of_lt ok.1, ok.2⟩
  | popStoreSeq pos r => exact ⟨Nat.lt_succ_of_lt ok.1, ok.2⟩

variable [DecidableEq Tid]

@[simp] theorem seqAt_goto (s : State Tid T) (i : Tid) (p : Pc T) (q : Nat) :
    (s.goto i p).seqAt q = s.seqAt q := rfl

@[simp] theorem dataAt_goto (s : State Tid T) (i : Tid) (p : Pc T) (q : Nat) :
    (s.goto i p).dataAt q = s.dataAt q := rfl

theorem goto_self (s : State Tid T) (i : Tid) (p : Pc T) : (s.goto i p).pc i = p := by
  simp [State.goto]

theorem goto_other (s : State Tid T) {i j : Tid} (p : Pc T) (h : j ≠ i) :
    (s.goto i p).pc j = s.pc j := by
  simp [State.goto, h]

theorem popTicket_goto (s : State Tid T) {i : Tid} {p : Pc T}
    (same : p.popTicket = (s.pc i).popTicket) (j : Tid) :
    ((s.goto i p).pc j).popTicket = (s.pc j).popTicket := by
  by_cases hji : j = i
  · subst j; rw [goto_self, same]
  · rw [goto_other s p hji]

theorem threads_goto {s : State Tid T} {t : State Tid T} {i : Tid} {p : Pc T} (self : ThreadOk t p)
    (others : ∀ j, j ≠ i → ThreadOk t (s.pc j)) (j : Tid) : ThreadOk t ((s.goto i p).pc j) := by
  by_cases hji : j = i
  · subst j; rw [goto_self]; exact self
  · rw [goto_other s p hji]; exact others j hji

theorem exclusive_keep {s : State Tid T} (h : Inv s) {i : Tid} {p : Pc T}
    (keeps : ∀ a, p.ticket = some a → (s.pc i).ticket = some a) (j k : Tid) (a b : Nat)
    (hj : ((s.goto i p).pc j).ticket = some a) (hk : ((s.goto i p).pc k).ticket = some b)
    (hs : slot a = slot b) : j = k := by
  have back : ∀ l q, ((s.goto i p).pc l).ticket = some q → (s.pc l).ticket = some q := by
    intro l q hl
    by_cases hli : l = i
    · subst l; rw [goto_self] at hl; exact keeps q hl
    · rw [goto_other s p hli] at hl; exact hl
  exact h.exclusive j k a b (back j a hj) (back k b hk) hs

theorem taken_goto {s : State Tid T} (h : Inv s) {i : Tid} {p : Pc T}
    (same : p.popTicket = (s.pc i).popTicket) (t : Nat) (ht : t < s.dequeuePos) :
    t ∈ s.popped.map Prod.fst ∨ ∃ j, ((s.goto i p).pc j).popTicket = some t := by
  simp only [popTicket_goto s same]
  exact h.taken t ht

theorem pending_goto {s : State Tid T} (h : Inv s) {i : Tid} {p : Pc T}
    (same : p.popTicket = (s.pc i).popTicket) (j : Tid) (t : Nat)
    (hj : ((s.goto i p).pc j).popTicket = some t) : t ∉ s.popped.map Prod.fst := by
  rw [popTicket_goto s same] at hj
  exact h.pending j t hj

theorem exclusive_goto {s : State Tid T} (h : Inv s) {i : Tid} {p : Pc T} {pos : Nat}
    (mine : p.ticket = some pos) (nobody : ∀ j t, (s.pc j).ticket = some t → slot t ≠ slot pos)
    (j k : Tid) (a b : Nat) (hj : ((s.goto i p).pc j).ticket = some a)
    (hk : ((s.goto i p).pc k).ticket = some b) (hs : slot a = slot b) : j = k := by
  by_cases hji : j = i
  · subst j
    by_cases hki : k = i
    · exact hki.symm
    · rw [goto_self, mine] at hj
      rw [goto_other s p hki] at hk
      cases hj
      exact absurd hs.symm (nobody k b hk)
  · rw [goto_other s p hji] at hj
    by_cases hki : k = i
    · subst k
      rw [goto_self, mine] at hk
      cases hk
      exact absurd hs (nobody j a hj)
    · rw [goto_other s p hki] at hk
      exact h.exclusive j k a b hj hk hs

theorem Inv.goto {s : State Tid T} (h : Inv s) {i : Tid} {p : Pc T}
    (free : (s.pc i).popTicket = none) (still : p.ticket = none) (ok : ThreadOk s p) :
    Inv (s.goto i p) := by
  have samePop : p.popTicket = (s.pc i).popTicket := (no_pop_of_free still).trans free.symm
  have keeps : ∀ a, p.ticket = some a → (s.pc i).ticket = some a := fun a ha => by
    rw [still] at ha; cases ha
  refine ⟨h.order, h.ring, h.tickets, h.filled, h.vacant, ?_, ?_, h.results, h.once, ?_, ?_⟩
  · exact threads_goto ok (fun j _ => h.threads j)
  · exact exclusive_keep h keeps
  · exact taken_goto h samePop
  · exact pending_goto h samePop

theorem Inv.pushCas {s : State Tid T} (h : Inv s) {i : Tid} {msg : T}
    (at_cas : s.pc i = .pushCas msg s.enqueuePos) :
    Inv ({ s with enqueuePos := s.enqueuePos + 1, pushed := s.pushed ++ [msg] }.goto i
      (.pushData msg s.enqueuePos)) := by
  have hc : capacity = 1024 := rfl
  have horder := h.order
  have hring := h.ring
  have hlen := h.tickets
  have ok := h.threads i
  rw [at_cas] at ok
  have free : s.seqAt s.enqueuePos = s.enqueuePos := ok.2 rfl
  have old : ∀ q, q < s.enqueuePos → (s.pushed ++ [msg])[q]? = s.pushed[q]? := fun q hq =>
    List.getElem?_append_left (by omega)
  have room : s.enqueuePos < s.dequeuePos + capacity := by
    by_contra full
    have eq : s.seqAt s.dequeuePos = s.seqAt s.enqueuePos := by
      have hs : slot s.dequeuePos = slot s.enqueuePos := by
        simp only [slot_mod]
        omega
      simp only [State.seqAt, hs]
    rcases h.filled s.dequeuePos (Nat.le_refl _) (by omega) with ⟨hf, _⟩ | hf <;> omega
  have nobody : ∀ j t, (s.pc j).ticket = some t → slot t ≠ slot s.enqueuePos := by
    intro j t hj hs
    have same : s.seqAt t = s.seqAt s.enqueuePos := by simp only [State.seqAt, hs]
    simp only [slot_mod] at hs
    rcases ticket_cases (h.threads j) hj with ⟨_, _, hq⟩ | ⟨_, hq⟩ <;> omega
  have noPop : (Pc.pushData msg s.enqueuePos).popTicket = (s.pc i).popTicket := by rw [at_cas]; rfl
  refine ⟨Nat.le_succ_of_le horder, room, ?_, ?_, ?_, ?_, ?_, ?_, h.once, ?_, ?_⟩
  · simp [State.goto, hlen]
  · intro q lo hi
    change (s.seqAt q = q + 1 ∧ s.dataAt q = (s.pushed ++ [msg])[q]?) ∨ s.seqAt q = q
    rcases Nat.lt_succ_iff_lt_or_eq.mp hi with before | rfl
    · rw [old q before]
      exact h.filled q lo before
    · exact .inr free
  · intro q lo hi
    exact h.vacant q (Nat.le_of_succ_le lo) hi
  · refine threads_goto ⟨horder, Nat.lt_succ_self _, free, ?_⟩
      (fun j _ => (h.threads j).grow horder old)
    change (s.pushed ++ [msg])[s.enqueuePos]? = some msg
    rw [← hlen]
    exact List.getElem?_concat_length
  · exact exclusive_goto h rfl nobody
  · intro t v hm
    have result := h.results t v hm
    refine ⟨result.1, result.2.trans (old t ?_).symm⟩
    omega
  · exact taken_goto h noPop
  · exact pending_goto h noPop

theorem Inv.pushCell {s : State Tid T} (h : Inv s) {i : Tid} {p : Pc T} {pos : Nat} {c : Cell T}
    (own : (s.pc i).pushTicket = some pos)
    (keeps : ∀ a, p.ticket = some a → a = pos) (noPop : p.popTicket = none)
    (ready : (c.sequence = pos + 1 ∧ c.data = s.pushed[pos]?) ∨ c.sequence = pos)
    (self : ThreadOk (s.setCell pos c) p) : Inv ((s.setCell pos c).goto i p) := by
  have hc : capacity = 1024 := rfl
  have hring := h.ring
  have mine := ticket_of_push own
  have same : p.popTicket = (s.pc i).popTicket := noPop.trans (no_pop_of_push own).symm
  have range : s.dequeuePos ≤ pos ∧ pos < s.enqueuePos ∧ s.seqAt pos = pos := by
    exact push_ticket_ok (h.threads i) own
  refine ⟨h.order, h.ring, h.tickets, fun q lo hi => ?_, fun q lo hi => ?_,
    threads_goto self (threads_elsewhere h mine c),
    exclusive_keep h (fun a ha => keeps a ha ▸ mine), h.results, h.once,
    taken_goto h same, pending_goto h same⟩
  · by_cases hs : slot q = slot pos
    · have eq : q = pos := by
        change q < s.enqueuePos at hi
        change s.dequeuePos ≤ q at lo
        simp only [slot_mod] at hs
        omega
      subst q
      rw [seqAt_goto, dataAt_goto, seqAt_setCell, dataAt_setCell, if_pos rfl, if_pos rfl]
      exact ready
    · exact filled_elsewhere h c q lo hi hs
  · apply vacant_elsewhere h c q lo hi
    intro hs
    change s.enqueuePos ≤ q at lo
    change q < s.dequeuePos + capacity at hi
    simp only [slot_mod] at hs
    omega

theorem Inv.popCas {s : State Tid T} (h : Inv s) {i : Tid}
    (at_cas : s.pc i = .popCas s.dequeuePos) :
    Inv ({ s with dequeuePos := s.dequeuePos + 1 }.goto i (.popData s.dequeuePos)) := by
  have hc : capacity = 1024 := rfl
  have hring := h.ring
  have ok := h.threads i
  rw [at_cas] at ok
  obtain ⟨more, ready⟩ := ok.2 rfl
  have value : s.dataAt s.dequeuePos = s.pushed[s.dequeuePos]? := by
    rcases h.filled s.dequeuePos (Nat.le_refl _) more with ⟨_, hd⟩ | hf
    · exact hd
    · omega
  have nobody : ∀ j t, (s.pc j).ticket = some t → slot t ≠ slot s.dequeuePos := by
    intro j t hj hs
    have same : s.seqAt t = s.seqAt s.dequeuePos := by simp only [State.seqAt, hs]
    simp only [slot_mod] at hs
    rcases ticket_cases (h.threads j) hj with ⟨_, _, hq⟩ | ⟨_, hq⟩ <;> omega
  refine ⟨more, ?_, h.tickets, fun q lo hi => ?_, fun q lo hi => ?_, ?_, exclusive_goto h rfl nobody,
    fun t v hm => ?_, h.once, fun t ht => ?_, fun j t hj => ?_⟩
  · change s.enqueuePos ≤ s.dequeuePos + 1 + capacity
    omega
  · exact h.filled q (Nat.le_of_succ_le lo) hi
  · change s.enqueuePos ≤ q at lo
    change q < s.dequeuePos + 1 + capacity at hi
    by_cases inside : q < s.dequeuePos + capacity
    · exact h.vacant q lo inside
    · -- the lap's new last ticket: its cell is the one just taken, still to be released
      have hs : slot q = slot s.dequeuePos := by simp only [slot_mod]; omega
      have same : s.seqAt q = s.seqAt s.dequeuePos := by simp only [State.seqAt, hs]
      right
      change s.seqAt q + capacity = q + 1
      omega
  · refine threads_goto ⟨Nat.lt_succ_self _, ready, value⟩ (fun j hj => ?_)
    exact (h.threads j).advance ready
  · have result := h.results t v hm
    exact ⟨Nat.lt_succ_of_lt result.1, result.2⟩
  · rcases Nat.lt_succ_iff_lt_or_eq.mp ht with before | rfl
    · rcases h.taken t before with done | ⟨j, hj⟩
      · exact .inl done
      · refine .inr ⟨j, ?_⟩
        have hji : j ≠ i := by rintro rfl; rw [at_cas] at hj; cases hj
        exact (congrArg Pc.popTicket (goto_other s _ hji)).trans hj
    · exact .inr ⟨i, congrArg Pc.popTicket (goto_self s i _)⟩
  · by_cases hji : j = i
    · subst j
      have eq : (Pc.popData s.dequeuePos : Pc T).popTicket = some t :=
        (congrArg Pc.popTicket (goto_self s i _)).symm.trans hj
      cases eq
      intro hm
      obtain ⟨r, hmem, eq⟩ := List.mem_map.mp hm
      have := (h.results r.1 r.2 hmem).1
      omega
    · exact h.pending j t ((congrArg Pc.popTicket (goto_other s _ hji)).symm.trans hj)

theorem Inv.popData {s : State Tid T} (h : Inv s) {i : Tid} {pos : Nat} {c : Cell T}
    (at_data : s.pc i = .popData pos) (keepsSeq : c.sequence = pos + 1) :
    Inv ((s.setCell pos c).goto i (.popStoreSeq pos (s.dataAt pos))) := by
  have ok := h.threads i
  rw [at_data] at ok
  have own : (s.pc i).popTicket = some pos := by rw [at_data]; rfl
  have same : (Pc.popStoreSeq pos (s.dataAt pos)).popTicket = (s.pc i).popTicket := own.symm
  refine ⟨h.order, h.ring, h.tickets, filled_popped h own c, vacant_popped h own (.inr keepsSeq),
    threads_goto ⟨ok.1, ?_, ok.2.2⟩ (threads_elsewhere h (ticket_of_pop own) c),
    exclusive_keep h (fun a ha => (ticket_of_pop own).trans ha), h.results, h.once,
    taken_goto h same, pending_goto h same⟩
  rw [seqAt_goto, seqAt_setCell, if_pos rfl]
  exact keepsSeq

theorem Inv.popStoreSeq {s : State Tid T} (h : Inv s) {i : Tid} {pos : Nat} {r : Option T}
    {c : Cell T} (at_store : s.pc i = .popStoreSeq pos r) (next : c.sequence = pos + capacity) :
    Inv ({ s.setCell pos c with popped := s.popped ++ [(pos, r)] }.goto i .idle) := by
  have ok := h.threads i
  rw [at_store] at ok
  have own : (s.pc i).popTicket = some pos := by rw [at_store]; rfl
  have mine := ticket_of_pop own
  have fst : (s.popped ++ [(pos, r)]).map Prod.fst = s.popped.map Prod.fst ++ [pos] := by simp
  refine ⟨h.order, h.ring, h.tickets, filled_popped h own c, vacant_popped h own (.inl next),
    threads_goto trivial (threads_elsewhere h mine c), exclusive_keep h (fun a ha => nomatch ha),
    fun t v hm => ?_, ?_, fun t ht => ?_, fun j t hj => ?_⟩
  · rcases List.mem_append.mp hm with old | new
    · exact h.results t v old
    · cases List.mem_singleton.mp new
      exact ⟨ok.1, ok.2.2⟩
  · change ((s.popped ++ [(pos, r)]).map Prod.fst).Nodup
    rw [fst, List.nodup_append]
    refine ⟨h.once, List.nodup_cons.mpr ⟨List.not_mem_nil, List.nodup_nil⟩, fun a ha b hb eq => ?_⟩
    cases List.mem_singleton.mp hb
    exact h.pending i pos own (eq ▸ ha)
  · change t ∈ (s.popped ++ [(pos, r)]).map Prod.fst ∨ _
    rw [fst]
    rcases h.taken t ht with done | ⟨j, hj⟩
    · exact .inl (List.mem_append_left _ done)
    · by_cases hji : j = i
      · subst j
        cases own.symm.trans hj
        exact .inl (List.mem_append_right _ List.mem_cons_self)
      · exact .inr ⟨j, (congrArg Pc.popTicket (goto_other s _ hji)).trans hj⟩
  · change t ∉ (s.popped ++ [(pos, r)]).map Prod.fst
    have hji : j ≠ i := by
      rintro rfl
      have none : (Pc.idle : Pc T).popTicket = some t :=
        (congrArg Pc.popTicket (goto_self s j _)).symm.trans hj
      cases none
    have hj' : (s.pc j).popTicket = some t :=
      (congrArg Pc.popTicket (goto_other s _ hji)).symm.trans hj
    rw [fst]
    intro hm
    rcases List.mem_append.mp hm with old | new
    · exact h.pending j t hj' old
    · rw [List.mem_singleton.mp new] at hj'
      exact hji (h.exclusive j i pos pos (ticket_of_pop hj') mine rfl)

theorem push_inv {s t : State Tid T} {i : Tid} {spurious : Bool} (h : Inv s)
    (taken : push s i spurious (s.pc i) = some t) : Inv t := by
  have ok := h.threads i
  cases hpc : s.pc i with
  | pushLoadPos msg =>
    rw [hpc] at taken
    cases taken
    exact h.goto (by rw [hpc]; rfl) rfl (Nat.le_refl _)
  | pushLoadSeq msg pos =>
    rw [hpc] at taken ok
    simp only [push] at taken
    split at taken
    · rename_i equal
      cases taken
      refine h.goto (by rw [hpc]; rfl) rfl ⟨ok, fun _ => ?_⟩
      unfold State.seqAt
      omega
    · split at taken <;> cases taken
      · exact h.goto (by rw [hpc]; rfl) rfl trivial
      · exact h.goto (by rw [hpc]; rfl) rfl trivial
  | pushCas msg pos =>
    rw [hpc] at taken ok
    simp only [push] at taken
    split at taken
    · rename_i won
      cases taken
      obtain ⟨rfl, _⟩ := won
      exact h.pushCas hpc
    · cases taken
      exact h.goto (by rw [hpc]; rfl) rfl (Nat.le_refl _)
  | pushData msg pos =>
    rw [hpc] at taken ok
    cases taken
    have seq : (s.buffer (slot pos)).sequence = pos := ok.2.2.1
    refine h.pushCell (by rw [hpc]; rfl) (fun a ha => (Option.some.inj ha).symm) rfl (.inr seq)
      ⟨ok.1, ok.2.1, ?_, ?_⟩
    · rw [seqAt_setCell, if_pos rfl]
      exact seq
    · rw [dataAt_setCell, if_pos rfl]
      exact ok.2.2.2.symm
  | pushStoreSeq pos =>
    rw [hpc] at taken ok
    cases taken
    exact h.pushCell (by rw [hpc]; rfl) (fun a ha => nomatch ha) rfl (.inl ⟨rfl, ok.2.2.2⟩) trivial
  | _ => rw [hpc] at taken; cases taken

theorem pop_inv {s t : State Tid T} {i : Tid} {spurious : Bool} (h : Inv s)
    (taken : pop s i spurious (s.pc i) = some t) : Inv t := by
  have ok := h.threads i
  cases hpc : s.pc i with
  | popLoadPos =>
    rw [hpc] at taken
    cases taken
    exact h.goto (by rw [hpc]; rfl) rfl (Nat.le_refl _)
  | popLoadSeq pos =>
    rw [hpc] at taken ok
    simp only [pop] at taken
    split at taken
    · rename_i equal
      cases taken
      have published : s.seqAt pos = pos + 1 := by
        unfold State.seqAt
        omega
      refine h.goto (by rw [hpc]; rfl) rfl ⟨ok, fun eq => ⟨?_, published⟩⟩
      -- a sequence number one ahead of the position cannot be a vacant cell's
      have hc : capacity = 1024 := rfl
      by_contra none
      rcases h.vacant pos (by omega) (by omega) with hv | hv <;> omega
    · split at taken <;> cases taken
      · exact h.goto (by rw [hpc]; rfl) rfl trivial
      · exact h.goto (by rw [hpc]; rfl) rfl trivial
  | popCas pos =>
    rw [hpc] at taken ok
    simp only [pop] at taken
    split at taken
    · rename_i won
      cases taken
      obtain ⟨rfl, _⟩ := won
      exact h.popCas hpc
    · cases taken
      exact h.goto (by rw [hpc]; rfl) rfl (Nat.le_refl _)
  | popData pos =>
    rw [hpc] at taken ok
    cases taken
    exact h.popData hpc ok.2.1
  | popStoreSeq pos r =>
    rw [hpc] at taken ok
    cases taken
    exact h.popStoreSeq hpc rfl
  | _ => rw [hpc] at taken; cases taken

theorem step_inv {s t : State Tid T} {a : Tid × Act T} (h : Inv s) (taken : step s a = some t) :
    Inv t := by
  obtain ⟨i, act⟩ := a
  cases act with
  | push msg =>
    simp only [step] at taken
    split at taken <;> cases taken
    rename_i at_idle
    exact h.goto (by rw [at_idle]; rfl) rfl trivial
  | pop =>
    simp only [step] at taken
    split at taken <;> cases taken
    rename_i at_idle
    exact h.goto (by rw [at_idle]; rfl) rfl trivial
  | go spurious =>
    simp only [step, Option.or_eq_some_iff] at taken
    rcases taken with pushed | ⟨_, popped⟩
    · exact push_inv h pushed
    · exact pop_inv h popped

theorem reached_inv {s : State Tid T} (h : Reached (system Tid T) s) : Inv s :=
  Reached.invariant (I := Inv) (fun _ eq => eq ▸ initial_inv)
    (fun _ _ _ hi taken => step_inv hi taken) h

end Pot.Lfqueue
