import Pot.LfqueueModuleRefinement

/-! What the calls of the module queue return: pop each pushed value once, by its position, and a
refusal only when the tickets bear it out, as long as the numbers compared are near. -/
namespace Pot.LfqueueModule
open Transition

variable {Tid T : Type} {size : Nat}

def Pc.answers : Pc T → Option (Nat × Option T)
  | .popStoreSeq pos data => some (pos, data)
  | _ => none

def answered (s : State Tid T) : Tid × Act T → Option (Nat × Option T)
  | (i, .go _) => (s.pc i).answers
  | (_, .call _) => none

/-- The positions below dpos: returned, each with its value, or in the hands of one pop. -/
structure Served (s : State Tid T) (log : List (Nat × Option T)) : Prop where
  values : ∀ r ∈ log, r.1 < s.dpos ∧ r.2 = s.pushed[r.1]?
  once : (log.map Prod.fst).Nodup
  pending : ∀ i pos, (s.pc i).popTicket = some pos → pos ∉ log.map Prod.fst
  all : ∀ pos, pos < s.dpos → pos ∈ log.map Prod.fst ∨ ∃ i, (s.pc i).popTicket = some pos

/-- A cell that has not been given back is that of a pop in flight. -/
def Held (size : Nat) (s : State Tid T) : Prop :=
  ∀ p, s.epos ≤ p → p < s.dpos + size → s.seqAt size p + size = p + 1 →
    ∃ i pos, (s.pc i).popTicket = some pos ∧ pos + size = p

theorem popTicket_resting {p : Pc T} (resting : p.resting = true) : p.popTicket = none := by
  cases p <;> first | rfl | cases resting

theorem answers_value {s : State Tid T} {a : Tid × Act T} (h : Inv size s) {r : Nat × Option T}
    (answer : answered s a = some r) : r.1 < s.dpos ∧ r.2 = s.pushed[r.1]? := by
  obtain ⟨i, act⟩ := a
  cases act with
  | call => cases answer
  | go spurious =>
    have ok := h.threads i
    change (s.pc i).answers = some r at answer
    cases hpc : s.pc i with
    | popStoreSeq pos data =>
      rw [hpc] at answer ok
      cases answer
      exact ⟨ok.1, ok.2.2⟩
    | _ => rw [hpc] at answer; cases answer

variable [DecidableEq Tid]

theorem popTicket_still {s u : State Tid T} {i : Tid} {p : Pc T} (kept : u.pc = s.pc)
    (same : p.popTicket = (s.pc i).popTicket) (j : Tid) :
    ((u.goto i p).pc j).popTicket = (s.pc j).popTicket := by
  by_cases mine : j = i
  · subst mine
    rw [goto_self, same]
  · rw [goto_other u p mine, kept]

/-- What a step does to the tickets of the pops and to the sequence numbers, by what it returns. -/
inductive Moves (size : Nat) (s t : State Tid T) (i : Tid) : Option (Nat × Option T) → Prop where
  | still (dpos : t.dpos = s.dpos) (epos : s.epos ≤ t.epos)
      (pops : ∀ j, (t.pc j).popTicket = (s.pc j).popTicket)
      (sequence : ∀ q, t.seqAt size q = s.seqAt size q ∨
        ∃ pos, (s.pc i).pushTicket = some pos ∧ slot size q = slot size pos ∧
          t.seqAt size q = pos + 1) : Moves size s t i none
  | take (dpos : t.dpos = s.dpos + 1) (epos : s.epos ≤ t.epos)
      (mine : (t.pc i).popTicket = some s.dpos) (free : (s.pc i).popTicket = none)
      (others : ∀ j, j ≠ i → (t.pc j).popTicket = (s.pc j).popTicket)
      (sequence : ∀ q, t.seqAt size q = s.seqAt size q) : Moves size s t i none
  | give {pos : Nat} {data : Option T} (dpos : t.dpos = s.dpos) (epos : s.epos ≤ t.epos)
      (mine : (s.pc i).popTicket = some pos) (free : (t.pc i).popTicket = none)
      (others : ∀ j, j ≠ i → (t.pc j).popTicket = (s.pc j).popTicket)
      (sequence : ∀ q, t.seqAt size q =
        if slot size q = slot size pos then pos + (size - 1) + 1 else s.seqAt size q) :
      Moves size s t i (some (pos, data))

theorem Moves.goto {s : State Tid T} {i : Tid} {p : Pc T}
    (same : p.popTicket = (s.pc i).popTicket) : Moves size s (s.goto i p) i none :=
  .still rfl (Nat.le_refl _) (popTicket_still rfl same) fun _ => .inl rfl

theorem Moves.data {s : State Tid T} {i : Tid} {p : Pc T} {pos : Nat} {data : Option T}
    (same : p.popTicket = (s.pc i).popTicket) :
    Moves size s ((s.setCell size pos { s.buffer (slot size pos) with m_data := data }).goto i p) i
      none := by
  refine .still rfl (Nat.le_refl _) (popTicket_still rfl same) fun q => .inl ?_
  change (s.setCell size pos _).seqAt size q = _
  rw [seqAt_setCell]
  split
  · rename_i here
    exact congrArg (fun c => (s.buffer c).m_sequence) here.symm
  · rfl

theorem access_moves {s t : State Tid T} {i : Tid} {spurious : Bool}
    (taken : access size s i spurious (s.pc i) = some t) :
    s.pushed <+: t.pushed ∧ Moves size s t i (s.pc i).answers := by
  cases hpc : s.pc i with
  | idle | returned => rw [hpc] at taken; cases taken
  | pushLoadPos | popLoadPos | spaceEpos | sizeEpos | spaceDpos | sizeDpos =>
    rw [hpc] at taken
    cases taken
    exact ⟨List.prefix_refl _, .goto (by rw [hpc]; rfl)⟩
  | pushLoadSeq data pos | popLoadSeq pos =>
    rw [hpc] at taken
    simp only [access] at taken
    split at taken
    · cases taken
      exact ⟨List.prefix_refl _, .goto (by rw [hpc]; rfl)⟩
    · split at taken <;> cases taken <;> exact ⟨List.prefix_refl _, .goto (by rw [hpc]; rfl)⟩
  | pushCas data pos =>
    rw [hpc] at taken
    simp only [access] at taken
    split at taken
    · rename_i won
      cases taken
      exact ⟨List.prefix_append _ _, .still rfl (Nat.le_trans (Nat.le_of_eq won.1) (Nat.le_succ _))
        (popTicket_still rfl (by rw [hpc]; rfl)) fun _ => .inl rfl⟩
    · cases taken
      exact ⟨List.prefix_refl _, .goto (by rw [hpc]; rfl)⟩
  | pushData data pos | popData pos =>
    rw [hpc] at taken
    cases taken
    exact ⟨List.prefix_refl _, .data (by rw [hpc]; rfl)⟩
  | pushStoreSeq pos =>
    rw [hpc] at taken
    cases taken
    refine ⟨List.prefix_refl _, .still rfl (Nat.le_refl _) (popTicket_still rfl (by rw [hpc]; rfl))
      fun q => ?_⟩
    change (s.setCell size pos _).seqAt size q = _ ∨ _
    by_cases here : slot size q = slot size pos
    · exact .inr ⟨pos, by rw [hpc]; rfl, here, (seqAt_setCell s pos q _).trans (if_pos here)⟩
    · exact .inl ((seqAt_setCell s pos q _).trans (if_neg here))
  | popCas pos =>
    rw [hpc] at taken
    simp only [access] at taken
    split at taken
    · rename_i won
      cases taken
      obtain ⟨rfl, _⟩ := won
      refine ⟨List.prefix_refl _, .take rfl (Nat.le_refl _) ?_ (by rw [hpc]; rfl)
        (fun j other => ?_) fun _ => rfl⟩
      · rw [goto_self]
        rfl
      · rw [goto_other _ _ other]
    · cases taken
      exact ⟨List.prefix_refl _, .goto (by rw [hpc]; rfl)⟩
  | popStoreSeq pos data =>
    rw [hpc] at taken
    cases taken
    refine ⟨List.prefix_refl _, .give rfl (Nat.le_refl _) (by rw [hpc]; rfl) ?_
      (fun j other => ?_) fun q => seqAt_setCell s pos q _⟩
    · rw [goto_self]
      rfl
    · rw [goto_other _ _ other]
      rfl
  | emptyEpos loaded | emptyDpos loaded =>
    rw [hpc] at taken
    cases loaded <;> cases taken <;> exact ⟨List.prefix_refl _, .goto (by rw [hpc]; rfl)⟩

theorem step_moves {s t : State Tid T} {i : Tid} {act : Act T}
    (taken : step size s (i, act) = some t) :
    s.pushed <+: t.pushed ∧ Moves size s t i (answered s (i, act)) := by
  cases act with
  | call c =>
    obtain ⟨resting, rfl⟩ := call_iff.mp taken
    refine ⟨List.prefix_refl _, .goto ?_⟩
    rw [popTicket_resting resting]
    cases c with
    | is_empty epos_first => cases epos_first <;> rfl
    | _ => rfl
  | go spurious => exact access_moves taken

omit [DecidableEq Tid] in
theorem initial_served : Served (initial : State Tid T) [] where
  values _ mem := by cases mem
  once := List.nodup_nil
  pending _ _ held := by cases held
  all _ before := by cases before

theorem Served.step {s t : State Tid T} {a : Tid × Act T} {log : List (Nat × Option T)}
    (h : Inv size s) (served : Served s log) (taken : step size s a = some t) :
    Served t (log ++ (answered s a).toList) := by
  obtain ⟨i, act⟩ := a
  obtain ⟨grows, moves⟩ := step_moves taken
  have order := h.order
  have kept : ∀ q, q < s.dpos → t.pushed[q]? = s.pushed[q]? := by
    intro q before
    obtain ⟨later, pushed⟩ := grows
    rw [← pushed, List.getElem?_append_left (by rw [h.tickets]; omega)]
  have answer := fun r => answers_value (a := (i, act)) (r := r) h
  generalize answered s (i, act) = shown at moves answer
  cases moves with
  | still dpos epos pops sequence =>
    rw [Option.toList_none, List.append_nil]
    refine ⟨fun r mem => ?_, served.once, fun j pos held => ?_, fun pos before => ?_⟩
    · obtain ⟨before, value⟩ := served.values r mem
      exact ⟨dpos ▸ before, value.trans (kept _ before).symm⟩
    · exact served.pending j pos (pops j ▸ held)
    · rw [dpos] at before
      refine (served.all pos before).imp_right fun ⟨j, held⟩ => ⟨j, ?_⟩
      rw [pops j, held]
  | take dpos epos mine free others sequence =>
    rw [Option.toList_none, List.append_nil]
    refine ⟨fun r mem => ?_, served.once, fun j pos held => ?_, fun pos before => ?_⟩
    · obtain ⟨before, value⟩ := served.values r mem
      exact ⟨by omega, value.trans (kept _ before).symm⟩
    · by_cases self : j = i
      · subst self
        rw [mine] at held
        cases held
        -- the new ticket is above those that have been returned
        intro returned
        obtain ⟨r, mem, same⟩ := List.mem_map.mp returned
        have := (served.values r mem).1
        omega
      · rw [others j self] at held
        exact served.pending j pos held
    · rcases Nat.lt_or_ge pos s.dpos with old | new
      · refine (served.all pos old).imp_right fun ⟨j, held⟩ => ⟨j, ?_⟩
        have other : j ≠ i := by
          intro self
          subst self
          rw [free] at held
          cases held
        rw [others j other, held]
      · have last : pos = s.dpos := by omega
        exact .inr ⟨i, last ▸ mine⟩
  | @give pos data dpos epos mine free others sequence =>
    rw [Option.toList_some]
    have value := answer _ rfl
    refine ⟨fun r mem => ?_, ?_, fun j q held => ?_, fun q before => ?_⟩
    · rcases List.mem_append.mp mem with old | last
      · obtain ⟨before, same⟩ := served.values r old
        exact ⟨dpos ▸ before, same.trans (kept _ before).symm⟩
      · cases List.mem_singleton.mp last
        exact ⟨dpos ▸ value.1, value.2.trans (kept _ value.1).symm⟩
    · rw [List.map_append, List.map_singleton]
      refine List.nodup_append.mpr ⟨served.once, List.nodup_singleton _, fun q old p last => ?_⟩
      cases List.mem_singleton.mp last
      intro same
      subst same
      exact served.pending i _ mine old
    · have other : j ≠ i := by
        intro self
        subst self
        rw [free] at held
        cases held
      rw [others j other] at held
      rw [List.map_append, List.map_singleton, List.mem_append, List.mem_singleton, not_or]
      refine ⟨served.pending j q held, fun same => other ?_⟩
      change q = pos at same
      subst same
      exact h.exclusive j i q (ticket_of_pop held) (ticket_of_pop mine)
    · rw [List.map_append, List.map_singleton, List.mem_append, List.mem_singleton]
      rw [dpos] at before
      rcases served.all q before with old | ⟨j, held⟩
      · exact .inl (.inl old)
      · by_cases self : j = i
        · subst self
          rw [mine] at held
          exact .inl (.inr (Option.some.inj held).symm)
        · exact .inr ⟨j, (others j self).trans held⟩

/-- Every pushed value that pop has taken is returned once, with its position, or is still in the
hands of one pop; with nobody in a call the positions returned are those below dpos. -/
theorem returns_in_order {s t : State Tid T} (start : lfqueue size = .ok s)
    (as : List (Tid × Act T)) (run : replay (system Tid T size) s as = some t) :
    Served t (shown (system Tid T size) answered s as) ∧ t.pushed.length = t.epos ∧
      t.dpos ≤ t.epos ∧ t.epos ≤ t.dpos + size ∧
      ((∀ i, (t.pc i).resting = true) →
        ((shown (system Tid T size) answered s as).map Prod.fst).Perm (List.range t.dpos)) := by
  obtain ⟨accepted, rfl⟩ := lfqueue_eq_ok.mp start
  have begin : Inv size (initial : State Tid T) ∧ Served (initial : State Tid T) [] :=
    ⟨initial_inv accepted, initial_served⟩
  obtain ⟨h, served⟩ := shown_invariant (I := fun s log => Inv size s ∧ Served s log)
    (fun s a t log h taken => ⟨step_inv accepted h.1 taken, h.2.step h.1 taken⟩) begin as run
  rw [List.nil_append] at served
  refine ⟨served, h.tickets, h.order, h.ring, fun resting => ?_⟩
  apply (List.perm_ext_iff_of_nodup served.once List.nodup_range).mpr
  intro pos
  rw [List.mem_range]
  constructor
  · intro returned
    obtain ⟨r, mem, same⟩ := List.mem_map.mp returned
    exact same ▸ (served.values r mem).1
  · intro before
    rcases served.all pos before with returned | ⟨i, held⟩
    · exact returned
    · rw [popTicket_resting (resting i)] at held
      cases held

def handed : List (Unit × Act Nat) :=
  alone () (.push_back 7) ++ alone () (.push_back 8) ++ alone () .pop

theorem returns_in_order_handed :
    lfqueue 2 = .ok (initial : State Unit Nat) ∧
      shown (system Unit Nat 2) answered initial handed = [(0, some 7)] ∧
      [(0 : Nat)].Perm (List.range 1) := by
  have run : replay (system Unit Nat 2) initial handed =
      some ((replay (system Unit Nat 2) initial handed).get (by decide)) := (Option.some_get _).symm
  exact ⟨rfl, rfl, (returns_in_order rfl handed run).2.2.2.2 fun _ => rfl⟩

theorem Held.step {s t : State Tid T} {a : Tid × Act T} (accepted : Accepted size)
    (h : Inv size s) (held : Held size s) (taken : step size s a = some t) : Held size t := by
  obtain ⟨i, act⟩ := a
  have small := accepted.small
  have order := h.order
  have ring := h.ring
  intro p beyond below behind
  have moves := (step_moves taken).2
  generalize answered s (i, act) = shown at moves
  cases moves with
  | still dpos epos pops sequence =>
    rcases sequence p with same | ⟨pos, mine, slots, published⟩
    · obtain ⟨j, q, holds, eq⟩ := held p (by omega) (by omega) (by omega)
      exact ⟨j, q, (pops j).trans holds, eq⟩
    · -- a ticket that is being published is not beyond epos
      obtain ⟨after, inside, -⟩ := push_ok (h.threads i) mine
      have eq := accepted.round_unique (d := s.dpos) slots (by omega) (by omega) after (by omega)
      omega
  | take dpos epos mine free others sequence =>
    rw [sequence] at behind
    rcases Nat.lt_or_ge p (s.dpos + size) with old | new
    · obtain ⟨j, q, holds, eq⟩ := held p (by omega) old behind
      have other : j ≠ i := by
        intro self
        subst self
        rw [free] at holds
        cases holds
      exact ⟨j, q, (others j other).trans holds, eq⟩
    · exact ⟨i, s.dpos, mine, by omega⟩
  | @give pos data dpos epos mine free others sequence =>
    rw [sequence] at behind
    split at behind
    · rename_i slots
      -- what the pop gives back is the next round's
      have round := (released_beyond accepted h mine slots (by omega) (by omega)).2
      omega
    · rename_i slots
      obtain ⟨j, q, holds, eq⟩ := held p (by omega) (by omega) behind
      have other : j ≠ i := by
        intro self
        subst self
        rw [mine] at holds
        cases holds
        apply slots
        rw [← eq, accepted.slot_mod, accepted.slot_mod, Nat.add_mod_right]
      exact ⟨j, q, (others j other).trans holds, eq⟩

theorem reached_held {s : State Tid T} (reached : Reached (system Tid T size) s) : Held size s := by
  induction reached with
  | start begin =>
    obtain ⟨accepted, rfl⟩ := lfqueue_eq_ok.mp begin
    intro p _ below behind
    have small := accepted.small
    change p < 0 + size at below
    have slots : slot size p = p := by
      rw [accepted.slot_mod]
      exact Nat.mod_eq_of_lt (by omega)
    change slot size p + size = p + 1 at behind
    omega
  | next before _ taken ih =>
    obtain ⟨accepted, h⟩ := reached_inv before
    exact ih.step accepted h taken

section Stale

variable (accepted : Accepted size) {s : State Tid T} (h : Inv size s)
include accepted h

omit [DecidableEq Tid] in
/-- The cell of a position that has been overtaken is at it or past it. -/
theorem seq_of_overtaken {pos : Nat} (overtaken : pos < s.epos) : pos ≤ s.seqAt size pos := by
  have ring := h.ring
  have small := accepted.small
  have positive : 0 < size := by omega
  obtain ⟨q, from_dpos, below, slots⟩ := Residues.exists_in_round positive pos s.dpos
  have same : s.seqAt size pos = s.seqAt size q := seqAt_congr s <| by
    rw [accepted.slot_mod, accepted.slot_mod, slots]
  have apart : q ≠ pos → pos + size ≤ q := by
    intro other
    rcases Nat.lt_or_gt_of_ne other with before | after
    · have := Residues.next_round slots before
      omega
    · exact Residues.next_round slots.symm after
  rcases h.cells q from_dpos below with ⟨_, _, _⟩ | free | ⟨_, _⟩ <;> omega

omit [DecidableEq Tid] in
theorem seq_of_taken {pos : Nat} (taken : pos < s.dpos) : pos + 1 ≤ s.seqAt size pos := by
  have small := accepted.small
  have positive : 0 < size := by omega
  obtain ⟨q, from_dpos, below, slots⟩ := Residues.exists_in_round positive pos s.dpos
  have same : s.seqAt size pos = s.seqAt size q := seqAt_congr s <| by
    rw [accepted.slot_mod, accepted.slot_mod, slots]
  have next := Residues.next_round slots.symm (Nat.lt_of_lt_of_le taken from_dpos)
  rcases h.cells q from_dpos below with ⟨_, _, _⟩ | free | ⟨_, _⟩ <;> omega

end Stale

theorem refused {s t : State Tid T} {i : Tid} {spurious : Bool} {answer : Answer T}
    (taken : access size s i spurious (s.pc i) = some t) (returns : t.pc i = .returned answer) :
    (answer = .pushed false → ∃ data pos, s.pc i = .pushLoadSeq data pos ∧
      diff (s.seqAt size pos) pos < 0) ∧
    (answer = .nothing → ∃ pos, s.pc i = .popLoadSeq pos ∧
      diff (s.seqAt size pos) (pos + 1) < 0) := by
  cases hpc : s.pc i with
  | idle | returned => rw [hpc] at taken; cases taken
  | pushLoadSeq data pos =>
    rw [hpc] at taken
    simp only [access] at taken
    split at taken
    · cases taken
      rw [goto_self] at returns
      cases returns
      exact ⟨fun _ => ⟨data, pos, rfl, ‹_›⟩, fun other => by cases other⟩
    · split at taken <;> cases taken <;> rw [goto_self] at returns <;> cases returns
  | popLoadSeq pos =>
    rw [hpc] at taken
    simp only [access] at taken
    split at taken
    · cases taken
      rw [goto_self] at returns
      cases returns
      exact ⟨fun other => (by cases other), fun _ => ⟨pos, rfl, ‹_›⟩⟩
    · split at taken <;> cases taken <;> rw [goto_self] at returns <;> cases returns
  | pushCas | popCas =>
    rw [hpc] at taken
    simp only [access] at taken
    split at taken <;> cases taken <;> rw [goto_self] at returns <;> cases returns
  | emptyEpos loaded | emptyDpos loaded =>
    rw [hpc] at taken
    cases loaded with
    | none =>
      cases taken
      rw [goto_self] at returns
      cases returns
    | some first =>
      cases taken
      rw [goto_self] at returns
      cases returns
      exact ⟨fun other => (by cases other), fun other => (by cases other)⟩
  | pushStoreSeq | popStoreSeq | spaceDpos | sizeDpos =>
    rw [hpc] at taken
    cases taken
    rw [goto_self] at returns
    cases returns
    exact ⟨fun other => (by cases other), fun other => (by cases other)⟩
  | _ =>
    rw [hpc] at taken
    cases taken
    rw [goto_self] at returns
    cases returns

/-- What a refusal says, when the numbers that it compares are near. -/
theorem refusal_truthful {s t : State Tid T} (reached : Reached (system Tid T size) s) {i : Tid}
    {spurious : Bool} (near : ComparesNear size s (i, .go spurious))
    (taken : step size s (i, .go spurious) = some t) :
    (t.pc i = .returned (.pushed false) → (s.tickets size).length = size ∨
      ∃ j pos, (s.pc j).popTicket = some pos ∧ pos + size = s.epos) ∧
    (t.pc i = .returned .nothing → TicketQueue.take (s.tickets size) = none) := by
  obtain ⟨accepted, h⟩ := reached_inv reached
  have large := accepted.large
  have small := accepted.small
  have ring := h.ring
  have order := h.order
  have ok := h.threads i
  have exact : ∀ c, compared size s (i, .go spurious) = some c → Exact c.1 c.2 := fun c step =>
    (exact_iff (compared_behind accepted h step)).mpr (near c step)
  constructor
  · intro refuses
    obtain ⟨data, pos, at_load, negative⟩ := (refused taken refuses).1 rfl
    rw [at_load] at ok
    change pos ≤ s.epos at ok
    have behind : s.seqAt size pos < pos :=
      (exact (s.seqAt size pos, pos) (by simp only [compared, at_load])).negative.mp negative
    have here : pos = s.epos := by
      by_contra stale
      have := seq_of_overtaken accepted h (Nat.lt_of_le_of_ne ok stale)
      omega
    subst pos
    rw [tickets_length h]
    rcases Nat.lt_or_ge s.epos (s.dpos + size) with room | full
    · right
      rcases h.cells s.epos order room with ⟨_, _, _⟩ | free | ⟨beyond, seq⟩
      · omega
      · omega
      · exact reached_held reached s.epos beyond room seq
    · left
      omega
  · intro refuses
    obtain ⟨pos, at_load, negative⟩ := (refused taken refuses).2 rfl
    rw [at_load] at ok
    change pos ≤ s.dpos at ok
    have behind : s.seqAt size pos < pos + 1 :=
      (exact (s.seqAt size pos, pos + 1) (by simp only [compared, at_load])).negative.mp negative
    have here : pos = s.dpos := by
      by_contra stale
      have := seq_of_taken accepted h (Nat.lt_of_le_of_ne ok stale)
      omega
    subst pos
    apply TicketQueue.take_eq_none.mpr
    intro x front
    rw [State.tickets, List.head?_eq_getElem?, TicketQueue.window_getElem?,
      Option.map_eq_some_iff] at front
    obtain ⟨value, _, rfl⟩ := front
    exact decide_eq_false (by rw [Nat.add_zero]; omega)

/-- Two cells; one of two values has been claimed by a pop that has not given its cell back, and the
other thread's push has loaded epos. -/
def held : State Bool Nat :=
  (replay (system Bool Nat 2) initial
    [(true, .call (.push_back 7)), (true, .go false), (true, .go false), (true, .go false),
      (true, .go false), (true, .go false), (true, .call (.push_back 8)), (true, .go false),
      (true, .go false), (true, .go false), (true, .go false), (true, .go false),
      (false, .call .pop), (false, .go false), (false, .go false), (false, .go false),
      (true, .call (.push_back 9)), (true, .go false)]).get rfl

/-- There is room, and the push is refused because of the pop. -/
theorem refusal_truthful_held : (held.tickets 2).length = 1 ∧
    ∃ j pos, (held.pc j).popTicket = some pos ∧ pos + 2 = held.epos := by
  have reached : Reached (system Bool Nat 2) held :=
    (Reached.start rfl).replay _ (Option.some_get _).symm
  have near : ComparesNear 2 held (true, .go false) := by decide
  have room : (held.tickets 2).length = 1 := by decide
  exact ⟨room, ((refusal_truthful reached near rfl).1 rfl).resolve_left (by rw [room]; decide)⟩

end Pot.LfqueueModule
