import Mathlib.Data.List.Basic
import Pot.LfqueueModule
import Pot.Residues

/-! The inductive invariant of the queue, for every size the constructor takes. One round of
positions starts with dpos, and the sequence number of each cell is told by its position there. An
exchange that succeeds has a position that was still the newest when the sequence number was
loaded, and near such a position the 32 bits decide. -/
namespace Pot.LfqueueModule
open Transition Residues

variable {Tid T : Type} {size : Nat}

structure Accepted (size : Nat) : Prop where
  large : size ≤ 2 ^ 30
  small : 2 ≤ size
  power : size.isPowerOfTwo

theorem lfqueue_eq_ok {s : State Tid T} : lfqueue size = .ok s ↔ Accepted size ∧ s = initial := by
  unfold lfqueue
  split
  · simp only [reduceCtorEq, false_iff, not_and]
    intro accepted
    have := accepted.large
    omega
  · split
    · simp only [reduceCtorEq, false_iff, not_and]
      intro accepted
      have := accepted.small
      omega
    · have nonzero : size ≠ 0 := by omega
      have power := Nat.and_sub_one_eq_zero_iff_isPowerOfTwo nonzero
      split
      · simp only [reduceCtorEq, false_iff, not_and]
        exact fun accepted => absurd (power.mpr accepted.power) ‹_›
      · have accepted : Accepted size := ⟨by omega, by omega, power.mp (not_not.mp ‹_›)⟩
        simp only [Except.ok.injEq, accepted, true_and]
        exact eq_comm

theorem Accepted.slot_mod (accepted : Accepted size) (pos : Nat) : slot size pos = pos % size := by
  obtain ⟨k, rfl⟩ := accepted.power
  exact Nat.and_two_pow_sub_one_eq_mod pos k

theorem Accepted.slot_eq (accepted : Accepted size) {p q : Nat}
    (same : slot size p = slot size q) : p % size = q % size := by
  rwa [accepted.slot_mod, accepted.slot_mod] at same

/-- In a round a position is known by its slot. -/
theorem Accepted.round_unique (accepted : Accepted size) {d p q : Nat}
    (same : slot size p = slot size q) (p_from : d ≤ p) (p_to : p < d + size) (q_from : d ≤ q)
    (q_to : q < d + size) : p = q := by
  have slots := accepted.slot_eq same
  rcases Nat.le_total p q with le | le
  · exact eq_of_mod_eq slots le (by omega)
  · exact (eq_of_mod_eq slots.symm le (by omega)).symm

/-- Near each other, positions are equal when their low 32 bits are. -/
theorem eq_of_diff {sequence position : Nat} (behind : sequence ≤ position)
    (near : position ≤ sequence + 2 ^ 30) (same : diff sequence position = 0) :
    sequence = position := by
  unfold diff at same
  rw [toInt_sub (by omega) (by omega) (by decide)] at same
  omega

def State.seqAt (size : Nat) (s : State Tid T) (pos : Nat) : Nat :=
  (s.buffer (slot size pos)).m_sequence

def State.dataAt (size : Nat) (s : State Tid T) (pos : Nat) : Option T :=
  (s.buffer (slot size pos)).m_data

/-- The position of a push between its successful exchange and its last store. -/
def Pc.pushTicket : Pc T → Option Nat
  | .pushData _ pos | .pushStoreSeq pos => some pos
  | _ => none

def Pc.popTicket : Pc T → Option Nat
  | .popData pos | .popStoreSeq pos _ => some pos
  | _ => none

def Pc.ticket (p : Pc T) : Option Nat := p.pushTicket.or p.popTicket

def ThreadOk (size : Nat) (s : State Tid T) : Pc T → Prop
  | .pushLoadSeq _ pos => pos ≤ s.epos
  | .pushCas _ pos => pos ≤ s.epos ∧ (pos = s.epos → s.seqAt size pos = pos)
  | .pushData data pos =>
    s.dpos ≤ pos ∧ pos < s.epos ∧ s.seqAt size pos = pos ∧ s.pushed[pos]? = some data
  | .pushStoreSeq pos =>
    s.dpos ≤ pos ∧ pos < s.epos ∧ s.seqAt size pos = pos ∧ s.dataAt size pos = s.pushed[pos]?
  | .popLoadSeq pos => pos ≤ s.dpos
  | .popCas pos => pos ≤ s.dpos ∧ (pos = s.dpos → s.seqAt size pos = pos + 1)
  | .popData pos =>
    pos < s.dpos ∧ s.seqAt size pos = pos + 1 ∧ s.dataAt size pos = s.pushed[pos]?
  | .popStoreSeq pos data => pos < s.dpos ∧ s.seqAt size pos = pos + 1 ∧ data = s.pushed[pos]?
  | .emptyEpos (some deq) => deq ≤ s.dpos
  | .emptyDpos (some enq) | .spaceDpos enq | .sizeDpos enq => enq ≤ s.epos
  | .returned (.popped pos data) => pos < s.dpos ∧ data = s.pushed[pos]?
  | _ => True

/-- The cell of a position of the round: published; free, or claimed and not yet published; or not
yet released by the pop of the round before. -/
def CellOk (size : Nat) (s : State Tid T) (pos : Nat) : Prop :=
  (pos < s.epos ∧ s.seqAt size pos = pos + 1 ∧ s.dataAt size pos = s.pushed[pos]?) ∨
    s.seqAt size pos = pos ∨ (s.epos ≤ pos ∧ s.seqAt size pos + size = pos + 1)

structure Inv (size : Nat) (s : State Tid T) : Prop where
  order : s.dpos ≤ s.epos
  ring : s.epos ≤ s.dpos + size
  tickets : s.pushed.length = s.epos
  cells : ∀ p, s.dpos ≤ p → p < s.dpos + size → CellOk size s p
  threads : ∀ i, ThreadOk size s (s.pc i)
  exclusive : ∀ i j p, (s.pc i).ticket = some p → (s.pc j).ticket = some p → i = j

section Cells

theorem seqAt_setCell (s : State Tid T) (pos q : Nat) (c : Cell T) :
    (s.setCell size pos c).seqAt size q =
      if slot size q = slot size pos then c.m_sequence else s.seqAt size q := by
  simp only [State.seqAt, State.setCell, Function.update_apply]
  split <;> rfl

theorem dataAt_setCell (s : State Tid T) (pos q : Nat) (c : Cell T) :
    (s.setCell size pos c).dataAt size q =
      if slot size q = slot size pos then c.m_data else s.dataAt size q := by
  simp only [State.dataAt, State.setCell, Function.update_apply]
  split <;> rfl

theorem seqAt_congr (s : State Tid T) {p q : Nat} (same : slot size p = slot size q) :
    s.seqAt size p = s.seqAt size q := by
  unfold State.seqAt
  rw [same]

theorem push_ok {s : State Tid T} {p : Pc T} (ok : ThreadOk size s p) {t : Nat}
    (h : p.pushTicket = some t) : s.dpos ≤ t ∧ t < s.epos ∧ s.seqAt size t = t := by
  cases p with
  | pushData | pushStoreSeq => cases h; exact ⟨ok.1, ok.2.1, ok.2.2.1⟩
  | _ => cases h

theorem pop_ok {s : State Tid T} {p : Pc T} (ok : ThreadOk size s p) {t : Nat}
    (h : p.popTicket = some t) : t < s.dpos ∧ s.seqAt size t = t + 1 := by
  cases p with
  | popData | popStoreSeq => cases h; exact ⟨ok.1, ok.2.1⟩
  | _ => cases h

/-- The owner of a ticket pins the sequence number of its cell. -/
theorem ticket_cases {s : State Tid T} {p : Pc T} (ok : ThreadOk size s p) {t : Nat}
    (h : p.ticket = some t) :
    (s.dpos ≤ t ∧ t < s.epos ∧ s.seqAt size t = t) ∨ (t < s.dpos ∧ s.seqAt size t = t + 1) := by
  rcases Option.or_eq_some_iff.mp h with pushing | ⟨-, popping⟩
  · exact .inl (push_ok ok pushing)
  · exact .inr (pop_ok ok popping)

theorem ticket_of_push {p : Pc T} {t : Nat} (h : p.pushTicket = some t) : p.ticket = some t := by
  rw [Pc.ticket, h, Option.some_or]

theorem ticket_of_pop {p : Pc T} {t : Nat} (h : p.popTicket = some t) : p.ticket = some t := by
  cases p <;> first | exact h | cases h

variable (accepted : Accepted size) {s : State Tid T} (h : Inv size s)
include accepted h

theorem seq_epos : s.seqAt size s.epos ≤ s.epos ∧ s.epos ≤ s.seqAt size s.epos + size ∧
    (s.seqAt size s.epos = s.epos → s.epos < s.dpos + size) := by
  have order := h.order
  have ring := h.ring
  have small := accepted.small
  rcases Nat.lt_or_ge s.epos (s.dpos + size) with room | full
  · rcases h.cells s.epos order room with ⟨_, _, _⟩ | free | ⟨_, _⟩ <;> omega
  · have last : s.epos = s.dpos + size := Nat.le_antisymm ring full
    have same : s.seqAt size s.epos = s.seqAt size s.dpos := seqAt_congr s <| by
      rw [last, accepted.slot_mod, accepted.slot_mod, Nat.add_mod_right]
    rcases h.cells s.dpos (Nat.le_refl _) (by omega) with ⟨_, _, _⟩ | free | ⟨_, _⟩ <;> omega

theorem seq_dpos : s.seqAt size s.dpos ≤ s.dpos + 1 ∧ s.dpos + 1 ≤ s.seqAt size s.dpos + size ∧
    (s.seqAt size s.dpos = s.dpos + 1 →
      s.dpos < s.epos ∧ s.dataAt size s.dpos = s.pushed[s.dpos]?) := by
  have small := accepted.small
  rcases h.cells s.dpos (Nat.le_refl _) (by omega) with ⟨inside, seq, data⟩ | free | ⟨_, _⟩
  · exact ⟨by omega, by omega, fun _ => ⟨inside, data⟩⟩
  · exact ⟨by omega, by omega, fun published => by omega⟩
  · exact ⟨by omega, by omega, fun published => by omega⟩

theorem threads_elsewhere {i : Tid} {pos : Nat} (mine : (s.pc i).ticket = some pos) (c : Cell T)
    (j : Tid) (other : j ≠ i) : ThreadOk size (s.setCell size pos c) (s.pc j) := by
  have small := accepted.small
  have order := h.order
  have owner := ticket_cases (h.threads i) mine
  have ok := h.threads j
  have seqs : ∀ q, slot size q ≠ slot size pos →
      (s.setCell size pos c).seqAt size q = s.seqAt size q := fun q apart => by
    rw [seqAt_setCell, if_neg apart]
  have datas : ∀ q, slot size q ≠ slot size pos →
      (s.setCell size pos c).dataAt size q = s.dataAt size q := fun q apart => by
    rw [dataAt_setCell, if_neg apart]
  -- two pins of one cell are pins of one position
  have apart : ∀ q, (s.pc j).ticket = some q → slot size q ≠ slot size pos := by
    intro q theirs same
    have slots := accepted.slot_eq same
    have seq := seqAt_congr s same
    have different : q ≠ pos := fun eq => other (h.exclusive j i pos (eq ▸ theirs) mine)
    have next := next_slot (a := q) small
    have next' := next_slot (a := pos) small
    rcases ticket_cases ok theirs with ⟨_, _, pin⟩ | ⟨_, pin⟩ <;>
      rcases owner with ⟨_, _, pin'⟩ | ⟨_, pin'⟩
    · omega
    · exact next' (by rw [← slots]; congr 1; omega)
    · exact next (by rw [slots]; congr 1; omega)
    · omega
  cases hpc : s.pc j with
  | pushCas data q =>
    rw [hpc] at ok
    refine ⟨ok.1, fun newest => (seqs q fun same => ?_).trans (ok.2 newest)⟩
    have free := ok.2 newest
    have seq := seqAt_congr s same
    have slots := accepted.slot_eq same
    have next := next_slot (a := pos) small
    change q = s.epos at newest
    rcases owner with ⟨_, _, pin⟩ | ⟨_, pin⟩
    · omega
    · exact next (by rw [← slots]; congr 1; omega)
  | popCas q =>
    rw [hpc] at ok
    refine ⟨ok.1, fun oldest => (seqs q fun same => ?_).trans (ok.2 oldest)⟩
    have published := ok.2 oldest
    have seq := seqAt_congr s same
    have slots := accepted.slot_eq same
    have next := next_slot (a := q) small
    change q = s.dpos at oldest
    rcases owner with ⟨_, _, pin⟩ | ⟨_, pin⟩
    · exact next (by rw [slots]; congr 1; omega)
    · omega
  | pushData data q =>
    rw [hpc] at ok
    exact ⟨ok.1, ok.2.1, (seqs q (apart q (by rw [hpc]; rfl))).trans ok.2.2.1, ok.2.2.2⟩
  | pushStoreSeq q =>
    rw [hpc] at ok
    have far := apart q (by rw [hpc]; rfl)
    exact ⟨ok.1, ok.2.1, (seqs q far).trans ok.2.2.1, (datas q far).trans ok.2.2.2⟩
  | popData q =>
    rw [hpc] at ok
    have far := apart q (by rw [hpc]; rfl)
    exact ⟨ok.1, (seqs q far).trans ok.2.1, (datas q far).trans ok.2.2⟩
  | popStoreSeq q data =>
    rw [hpc] at ok
    exact ⟨ok.1, (seqs q (apart q (by rw [hpc]; rfl))).trans ok.2.1, ok.2.2⟩
  | emptyEpos deq | emptyDpos deq =>
    rw [hpc] at ok
    cases deq <;> exact ok
  | returned answer =>
    rw [hpc] at ok
    cases answer <;> exact ok
  | _ =>
    rw [hpc] at ok
    exact ok

end Cells

theorem ThreadOk.grow {s : State Tid T} {p : Pc T} {data : T} (ok : ThreadOk size s p)
    (order : s.dpos ≤ s.epos)
    (old : ∀ t, t < s.epos → (s.pushed ++ [data])[t]? = s.pushed[t]?) :
    ThreadOk size { s with epos := s.epos + 1, pushed := s.pushed ++ [data] } p := by
  cases p with
  | pushLoadSeq data pos | spaceDpos pos | sizeDpos pos => exact Nat.le_succ_of_le ok
  | pushCas data pos =>
    refine ⟨Nat.le_succ_of_le ok.1, fun newest => ?_⟩
    have := ok.1
    change pos = s.epos + 1 at newest
    omega
  | pushData data' pos =>
    exact ⟨ok.1, Nat.lt_succ_of_lt ok.2.1, ok.2.2.1, (old pos ok.2.1).trans ok.2.2.2⟩
  | pushStoreSeq pos =>
    exact ⟨ok.1, Nat.lt_succ_of_lt ok.2.1, ok.2.2.1, ok.2.2.2.trans (old pos ok.2.1).symm⟩
  | popData pos | popStoreSeq pos data' =>
    exact ⟨ok.1, ok.2.1, ok.2.2.trans (old pos (Nat.lt_of_lt_of_le ok.1 order)).symm⟩
  | emptyDpos enq =>
    cases enq with
    | none => trivial
    | some enq => exact Nat.le_succ_of_le ok
  | emptyEpos deq => cases deq <;> exact ok
  | returned answer =>
    cases answer with
    | popped pos data' =>
      exact ⟨ok.1, ok.2.trans (old pos (Nat.lt_of_lt_of_le ok.1 order)).symm⟩
    | _ => trivial
  | _ => exact ok

theorem ThreadOk.advance {s : State Tid T} {p : Pc T} (ok : ThreadOk size s p)
    (published : s.seqAt size s.dpos = s.dpos + 1) :
    ThreadOk size { s with dpos := s.dpos + 1 } p := by
  have later : ∀ pos, s.dpos ≤ pos → s.seqAt size pos = pos → s.dpos + 1 ≤ pos := by
    intro pos from_dpos claimed
    rcases Nat.eq_or_lt_of_le from_dpos with rfl | after
    · omega
    · exact after
  cases p with
  | pushData data pos | pushStoreSeq pos => exact ⟨later pos ok.1 ok.2.2.1, ok.2⟩
  | popLoadSeq pos => exact Nat.le_succ_of_le ok
  | popCas pos =>
    refine ⟨Nat.le_succ_of_le ok.1, fun oldest => ?_⟩
    have := ok.1
    change pos = s.dpos + 1 at oldest
    omega
  | popData pos | popStoreSeq pos data => exact ⟨Nat.lt_succ_of_lt ok.1, ok.2⟩
  | emptyEpos deq =>
    cases deq with
    | none => trivial
    | some deq => exact Nat.le_succ_of_le ok
  | emptyDpos enq => cases enq <;> exact ok
  | returned answer =>
    cases answer with
    | popped pos data => exact ⟨Nat.lt_succ_of_lt ok.1, ok.2⟩
    | _ => trivial
  | _ => exact ok

section Steps

variable [DecidableEq Tid]

theorem goto_self (s : State Tid T) (i : Tid) (p : Pc T) : (s.goto i p).pc i = p :=
  Function.update_self ..

theorem goto_other (s : State Tid T) {i j : Tid} (p : Pc T) (other : j ≠ i) :
    (s.goto i p).pc j = s.pc j :=
  Function.update_of_ne other ..

theorem threads_goto {s t : State Tid T} {i : Tid} {p : Pc T} (self : ThreadOk size t p)
    (others : ∀ j, j ≠ i → ThreadOk size t (s.pc j)) (j : Tid) :
    ThreadOk size t ((s.goto i p).pc j) := by
  by_cases mine : j = i
  · subst mine
    rw [goto_self]
    exact self
  · rw [goto_other s p mine]
    exact others j mine

theorem exclusive_goto {s : State Tid T} {i : Tid} {p : Pc T}
    (exclusive : ∀ i j t, (s.pc i).ticket = some t → (s.pc j).ticket = some t → i = j)
    (fresh : ∀ t, p.ticket = some t → ∀ j, (s.pc j).ticket = some t → j = i) (j k : Tid) (t : Nat)
    (at_j : ((s.goto i p).pc j).ticket = some t) (at_k : ((s.goto i p).pc k).ticket = some t) :
    j = k := by
  by_cases left : j = i
  · subst left
    rw [goto_self] at at_j
    by_cases right : k = j
    · exact right.symm
    · rw [goto_other s p right] at at_k
      exact (fresh t at_j k at_k).symm
  · rw [goto_other s p left] at at_j
    by_cases right : k = i
    · subst right
      rw [goto_self] at at_k
      exact fresh t at_k j at_j
    · rw [goto_other s p right] at at_k
      exact exclusive j k t at_j at_k

theorem Inv.goto {s : State Tid T} (h : Inv size s) {i : Tid} {p : Pc T} (still : p.ticket = none)
    (ok : ThreadOk size s p) : Inv size (s.goto i p) where
  order := h.order
  ring := h.ring
  tickets := h.tickets
  cells := h.cells
  threads := threads_goto ok fun j _ => h.threads j
  exclusive := exclusive_goto h.exclusive fun t mine => by rw [still] at mine; cases mine

variable (accepted : Accepted size) {s : State Tid T} (h : Inv size s)
include accepted h

theorem Inv.claim {i : Tid} {data : T} (at_cas : s.pc i = .pushCas data s.epos) :
    Inv size ({ s with epos := s.epos + 1, pushed := s.pushed ++ [data] }.goto i
      (.pushData data s.epos)) := by
  have order := h.order
  have ok := h.threads i
  rw [at_cas] at ok
  have free : s.seqAt size s.epos = s.epos := ok.2 rfl
  have room := (seq_epos accepted h).2.2 free
  have old : ∀ q, q < s.epos → (s.pushed ++ [data])[q]? = s.pushed[q]? := fun q before =>
    List.getElem?_append_left (h.tickets ▸ before)
  have last : (s.pushed ++ [data])[s.epos]? = some data := by
    rw [← h.tickets]
    exact List.getElem?_concat_length
  refine ⟨Nat.le_succ_of_le order, room, ?_, fun p from_dpos below => ?_, ?_, ?_⟩
  · change (s.pushed ++ [data]).length = s.epos + 1
    rw [List.length_append, h.tickets, List.length_singleton]
  · change (p < s.epos + 1 ∧ s.seqAt size p = p + 1 ∧
      s.dataAt size p = (s.pushed ++ [data])[p]?) ∨ s.seqAt size p = p ∨
        (s.epos + 1 ≤ p ∧ s.seqAt size p + size = p + 1)
    rcases h.cells p from_dpos below with ⟨inside, seq, stored⟩ | claimed | ⟨beyond, seq⟩
    · exact .inl ⟨Nat.lt_succ_of_lt inside, seq, stored.trans (old p inside).symm⟩
    · exact .inr (.inl claimed)
    · rcases Nat.eq_or_lt_of_le beyond with rfl | after
      · exact .inr (.inl free)
      · exact .inr (.inr ⟨after, seq⟩)
  · exact threads_goto ⟨order, Nat.lt_succ_self _, free, last⟩
      fun j _ => (h.threads j).grow order old
  · refine exclusive_goto h.exclusive fun t mine j theirs => ?_
    cases mine
    rcases ticket_cases (h.threads j) theirs with ⟨_, before, _⟩ | ⟨before, _⟩ <;> omega

theorem Inv.take {i : Tid} (at_cas : s.pc i = .popCas s.dpos) :
    Inv size ({ s with dpos := s.dpos + 1 }.goto i (.popData s.dpos)) := by
  have ring := h.ring
  have small := accepted.small
  have ok := h.threads i
  rw [at_cas] at ok
  have published : s.seqAt size s.dpos = s.dpos + 1 := ok.2 rfl
  obtain ⟨inside, stored⟩ := (seq_dpos accepted h).2.2 published
  refine ⟨inside, ?_, h.tickets, fun p from_dpos below => ?_, ?_, ?_⟩
  · change s.epos ≤ s.dpos + 1 + size
    omega
  · change s.dpos + 1 ≤ p at from_dpos
    change p < s.dpos + 1 + size at below
    rcases Nat.lt_or_ge p (s.dpos + size) with before | last
    · exact h.cells p (Nat.le_of_succ_le from_dpos) before
    · -- the new last position of the round: its cell is the one that was taken
      have eq : p = s.dpos + size := by omega
      have same : s.seqAt size p = s.seqAt size s.dpos := seqAt_congr s <| by
        rw [eq, accepted.slot_mod, accepted.slot_mod, Nat.add_mod_right]
      refine .inr (.inr ⟨Nat.le_trans ring (Nat.le_of_eq eq.symm), ?_⟩)
      change s.seqAt size p + size = p + 1
      omega
  · exact threads_goto ⟨Nat.lt_succ_self _, published, stored⟩
      fun j _ => (h.threads j).advance published
  · refine exclusive_goto h.exclusive fun t mine j theirs => ?_
    cases mine
    rcases ticket_cases (h.threads j) theirs with ⟨_, _, pin⟩ | ⟨before, _⟩ <;> omega

theorem Inv.store {i : Tid} {p : Pc T} {pos : Nat} {c : Cell T}
    (mine : (s.pc i).ticket = some pos) (keeps : ∀ t, p.ticket = some t → t = pos)
    (cell : ∀ q, s.dpos ≤ q → q < s.dpos + size → slot size q = slot size pos →
      CellOk size (s.setCell size pos c) q)
    (ok : ThreadOk size (s.setCell size pos c) p) : Inv size ((s.setCell size pos c).goto i p) := by
  refine ⟨h.order, h.ring, h.tickets, fun q from_dpos below => ?_,
    threads_goto ok (threads_elsewhere accepted h mine c), ?_⟩
  · by_cases same : slot size q = slot size pos
    · exact cell q from_dpos below same
    · have before := h.cells q from_dpos below
      change CellOk size (s.setCell size pos c) q
      unfold CellOk at before ⊢
      rw [seqAt_setCell, dataAt_setCell, if_neg same, if_neg same]
      exact before
  · exact exclusive_goto h.exclusive fun t new j theirs =>
      h.exclusive j i pos (keeps t new ▸ theirs) mine

theorem Inv.publish {i : Tid} {p : Pc T} {pos : Nat} {c : Cell T}
    (mine : (s.pc i).pushTicket = some pos) (keeps : ∀ t, p.ticket = some t → t = pos)
    (ready : (c.m_sequence = pos + 1 ∧ c.m_data = s.pushed[pos]?) ∨ c.m_sequence = pos)
    (ok : ThreadOk size (s.setCell size pos c) p) : Inv size ((s.setCell size pos c).goto i p) := by
  have ring := h.ring
  obtain ⟨after, inside, -⟩ := push_ok (h.threads i) mine
  refine h.store accepted (ticket_of_push mine) keeps (fun q from_dpos below same => ?_) ok
  obtain rfl := accepted.round_unique same from_dpos below after (by omega)
  unfold CellOk
  rw [seqAt_setCell, dataAt_setCell, if_pos rfl, if_pos rfl]
  rcases ready with ⟨seq, data⟩ | seq
  · exact .inl ⟨inside, seq, data⟩
  · exact .inr (.inl seq)

theorem Inv.release {i : Tid} {p : Pc T} {pos : Nat} {c : Cell T}
    (mine : (s.pc i).popTicket = some pos) (keeps : ∀ t, p.ticket = some t → t = pos)
    (ready : c.m_sequence = pos + size ∨ c.m_sequence = pos + 1)
    (ok : ThreadOk size (s.setCell size pos c) p) : Inv size ((s.setCell size pos c).goto i p) := by
  have small := accepted.small
  obtain ⟨taken, pin⟩ := pop_ok (h.threads i) mine
  refine h.store accepted (ticket_of_pop mine) keeps (fun q from_dpos below same => ?_) ok
  -- the position of the next round is waiting for this release
  have next := next_round (accepted.slot_eq same).symm (Nat.lt_of_lt_of_le taken from_dpos)
  have seq := seqAt_congr s same
  have waiting : s.epos ≤ q ∧ q = pos + size := by
    rcases h.cells q from_dpos below with ⟨_, _, _⟩ | free | ⟨_, _⟩ <;> omega
  unfold CellOk
  rw [seqAt_setCell, dataAt_setCell, if_pos same, if_pos same]
  rcases ready with released | kept
  · exact .inr (.inl (released.trans waiting.2.symm))
  · exact .inr (.inr ⟨waiting.1, by omega⟩)

theorem access_inv {t : State Tid T} {i : Tid} {spurious : Bool}
    (taken : access size s i spurious (s.pc i) = some t) : Inv size t := by
  have large := accepted.large
  have ok := h.threads i
  cases hpc : s.pc i with
  | idle | returned => rw [hpc] at taken; cases taken
  | pushLoadPos | spaceEpos | sizeEpos =>
    rw [hpc] at taken
    cases taken
    exact h.goto rfl (Nat.le_refl _)
  | pushLoadSeq data pos =>
    rw [hpc] at taken ok
    simp only [access] at taken
    split at taken
    · cases taken
      exact h.goto rfl trivial
    · split at taken
      · cases taken
        refine h.goto rfl ⟨ok, fun newest => ?_⟩
        obtain ⟨behind, near, -⟩ := seq_epos accepted h
        subst newest
        exact eq_of_diff behind (by omega) ‹_›
      · cases taken
        exact h.goto rfl trivial
  | pushCas data pos =>
    rw [hpc] at taken
    simp only [access] at taken
    split at taken
    · cases taken
      obtain ⟨rfl, -⟩ := ‹s.epos = pos ∧ _›
      exact h.claim accepted hpc
    · cases taken
      exact h.goto rfl trivial
  | pushData data pos =>
    rw [hpc] at taken ok
    cases taken
    obtain ⟨after, inside, seq, stored⟩ := ok
    refine h.publish accepted (by rw [hpc]; rfl) (fun t mine => (Option.some.inj mine).symm)
      (.inr seq) ⟨after, inside, ?_, ?_⟩
    · rw [seqAt_setCell, if_pos rfl]
      exact seq
    · rw [dataAt_setCell, if_pos rfl]
      exact stored.symm
  | pushStoreSeq pos =>
    rw [hpc] at taken ok
    cases taken
    exact h.publish accepted (by rw [hpc]; rfl) (fun t mine => (by cases mine))
      (.inl ⟨rfl, ok.2.2.2⟩) trivial
  | popLoadPos =>
    rw [hpc] at taken
    cases taken
    exact h.goto rfl (Nat.le_refl _)
  | popLoadSeq pos =>
    rw [hpc] at taken ok
    simp only [access] at taken
    split at taken
    · cases taken
      exact h.goto rfl trivial
    · split at taken
      · cases taken
        refine h.goto rfl ⟨ok, fun oldest => ?_⟩
        obtain ⟨behind, near, -⟩ := seq_dpos accepted h
        subst oldest
        exact eq_of_diff behind (by omega) ‹_›
      · cases taken
        exact h.goto rfl trivial
  | popCas pos =>
    rw [hpc] at taken
    simp only [access] at taken
    split at taken
    · cases taken
      obtain ⟨rfl, -⟩ := ‹s.dpos = pos ∧ _›
      exact h.take accepted hpc
    · cases taken
      exact h.goto rfl trivial
  | popData pos =>
    rw [hpc] at taken ok
    cases taken
    obtain ⟨before, seq, stored⟩ := ok
    refine h.release accepted (by rw [hpc]; rfl) (fun t mine => (Option.some.inj mine).symm)
      (.inr seq) ⟨before, ?_, stored⟩
    rw [seqAt_setCell, if_pos rfl]
    exact seq
  | popStoreSeq pos data =>
    rw [hpc] at taken ok
    cases taken
    have small := accepted.small
    refine h.release accepted (by rw [hpc]; rfl) (fun t mine => (by cases mine)) (.inl ?_)
      ⟨ok.1, ok.2.2⟩
    change pos + (size - 1) + 1 = pos + size
    omega
  | emptyEpos deq =>
    rw [hpc] at taken
    cases deq with
    | none => cases taken; exact h.goto rfl (Nat.le_refl _)
    | some deq => cases taken; exact h.goto rfl trivial
  | emptyDpos enq =>
    rw [hpc] at taken
    cases enq with
    | none => cases taken; exact h.goto rfl (Nat.le_refl _)
    | some enq => cases taken; exact h.goto rfl trivial
  | spaceDpos | sizeDpos =>
    rw [hpc] at taken
    cases taken
    exact h.goto rfl trivial

theorem step_inv {t : State Tid T} {a : Tid × Act T} (taken : step size s a = some t) :
    Inv size t := by
  obtain ⟨i, act⟩ := a
  cases act with
  | call c =>
    simp only [step] at taken
    split at taken <;> cases taken
    cases c with
    | is_empty epos_first => cases epos_first <;> exact h.goto rfl trivial
    | _ => exact h.goto rfl trivial
  | go spurious => exact access_inv accepted h taken

end Steps

theorem initial_inv (accepted : Accepted size) : Inv size (initial : State Tid T) where
  order := Nat.le_refl _
  ring := Nat.zero_le _
  tickets := rfl
  cells p _ below := by
    refine .inr (.inl ?_)
    change slot size p = p
    rw [accepted.slot_mod]
    exact Nat.mod_eq_of_lt (by simpa [initial] using below)
  threads _ := trivial
  exclusive _ _ _ mine := by cases mine

theorem reached_inv [DecidableEq Tid] {s : State Tid T} (reached : Reached (system Tid T size) s) :
    Accepted size ∧ Inv size s :=
  reached.invariant (I := fun s => Accepted size ∧ Inv size s)
    (fun s start => by
      obtain ⟨accepted, rfl⟩ := lfqueue_eq_ok.mp start
      exact ⟨accepted, initial_inv accepted⟩)
    fun _ _ _ h taken => ⟨h.1, step_inv h.1 h.2 taken⟩

end Pot.LfqueueModule
