import Pot.AsyncLock
import Pot.Tally

/-! The lock is a token. It is with a holder, with an unlocking coroutine that still has to pop,
or on its way to a popped handle, and m_state counts everybody who wants it. -/
namespace Pot.AsyncLock
open Transition

variable {Cid : Type}

/-- A guard that owns the lock exists, or its release has not reached m_state. -/
def Pc.holds : Pc Cid → Bool
  | .inside guards => guards.contains true
  | .fetchSub _ => true
  | _ => false

def Pc.announced : Pc Cid → Bool
  | .push _ _ => true
  | _ => false

/-- unlock saw prev_state > 1 and has no successor yet. -/
def Pc.pops : Pc Cid → Bool
  | .pop _ => true
  | _ => false

def Pc.hands : Pc Cid → Bool
  | .resume _ _ _ => true
  | _ => false

/-- At most one guard owns the lock, and none does outside the critical section. -/
def Pc.GuardsOk : Pc Cid → Prop
  | .inside guards => guards.count true ≤ 1
  | .fetchAdd guards _ | .push guards _ | .suspended guards | .fetchSub guards | .pop guards
  | .resume guards _ _ => true ∉ guards

/-- Handles that have been popped and not been resumed. -/
def InTransit (s : State Cid) (w : Cid) : Prop :=
  (∃ c guards executor, s.pc c = .resume guards w executor) ∨ w ∈ s.pending

/-- Whoever is in the line is suspended, and once; `transit` are those already popped. -/
structure Line (s : State Cid) (transit : List Cid) : Prop where
  popped : ∀ w, w ∈ transit ↔ InTransit s w
  order : s.pushed = s.resumed ++ transit ++ s.m_queue.map Prod.fst
  once : (transit ++ s.m_queue.map Prod.fst).Nodup
  waiting : ∀ w, w ∈ transit ++ s.m_queue.map Prod.fst ↔ ∃ guards, s.pc w = .suspended guards

theorem Line.wake {s t : State Cid} {handle : Cid} (line : Line s [handle])
    (queue : t.m_queue = s.m_queue) (pushed : t.pushed = s.pushed)
    (resumed : t.resumed = s.resumed ++ [handle])
    (awake : ∀ w, (∃ g, t.pc w = .suspended g) ↔ w ≠ handle ∧ ∃ g, s.pc w = .suspended g)
    (arrived : ∀ w, ¬ InTransit t w) : Line t [] := by
  have once := List.nodup_cons.mp line.once
  refine ⟨fun w => by simp [arrived w], ?_, by rw [queue]; exact once.2, fun w => ?_⟩
  · rw [pushed, line.order, resumed, queue, List.append_nil]
  · rw [awake w, ← line.waiting w, queue, List.nil_append, List.cons_append, List.nil_append,
      List.mem_cons]
    constructor
    · exact fun mem => ⟨fun same => once.1 (same ▸ mem), .inr mem⟩
    · exact fun ⟨different, mem⟩ => mem.resolve_left different

theorem count_set_of_getElem? {l : List Bool} {i : Nat} {old : Bool} (h : l[i]? = some old)
    (new : Bool) :
    (l.set i new).count true + old.toNat = l.count true + new.toNat := by
  obtain ⟨hi, rfl⟩ := List.getElem?_eq_some_iff.mp h
  have present : l[i] = true → 0 < l.count true := fun hl =>
    List.count_pos_iff.mpr (hl ▸ List.getElem_mem hi)
  rw [List.count_set hi]
  cases hl : l[i] <;> cases new <;> simp
  · have := present hl
    omega
  · have := present hl
    omega

theorem count_eraseIdx_of_getElem? {l : List Bool} {i : Nat} {old : Bool} (h : l[i]? = some old) :
    (l.eraseIdx i).count true + old.toNat = l.count true := by
  obtain ⟨hi, rfl⟩ := List.getElem?_eq_some_iff.mp h
  have perm := (List.getElem_cons_eraseIdx_perm hi).count_eq true
  rw [← perm, List.count_cons]
  cases l[i] <;> rfl

theorem release_cases {held : Bool} {guards rest : List Bool} (one : guards.count true ≤ 1)
    (count : rest.count true + held.toNat = guards.count true) :
    (∃ kept, (release held rest : Pc Cid) = .inside kept ∧ kept.count true = guards.count true) ∨
      ∃ kept, (release held rest : Pc Cid) = .fetchSub kept ∧ guards.count true = 1 ∧
        true ∉ kept := by
  cases held with
  | true =>
    right
    refine ⟨rest, rfl, ?_, ?_⟩
    · simp at count; omega
    · rw [← List.count_eq_zero]; simp at count; omega
  | false => exact .inl ⟨rest, rfl, count⟩

/-- Moves keep the number of guards that own the lock; whatever lowers it calls unlock. -/
theorem guardOp_cases {guards : List Bool} {op : GuardOp} {p : Pc Cid}
    (taken : guardOp guards op = some p) (one : guards.count true ≤ 1) :
    (∃ kept, p = .inside kept ∧ kept.count true = guards.count true) ∨
      ∃ kept, p = .fetchSub kept ∧ guards.count true = 1 ∧ true ∉ kept := by
  cases op with
  | moveConstruct src =>
    obtain ⟨other, hsrc, rfl⟩ := Option.map_eq_some_iff.mp taken
    refine .inl ⟨_, rfl, ?_⟩
    have moved := count_set_of_getElem? hsrc false
    rw [List.count_append]
    cases other <;> simp at moved ⊢ <;> omega
  | moveAssign dst src =>
    obtain ⟨held, hdst, rest⟩ := Option.bind_eq_some_iff.mp taken
    obtain ⟨other, hsrc, rfl⟩ := Option.map_eq_some_iff.mp rest
    split
    · exact .inl ⟨guards, rfl, rfl⟩
    · rename_i different
      have first := count_set_of_getElem? hdst other
      have kept : (guards.set dst other)[src]? = some other := by
        rw [List.getElem?_set_ne different]
        exact hsrc
      have second := count_set_of_getElem? kept false
      exact release_cases one (by simp at second; omega)
  | destroy i =>
    obtain ⟨held, hi, rfl⟩ := Option.map_eq_some_iff.mp taken
    exact release_cases one (count_eraseIdx_of_getElem? hi)

def Pc.owned : Pc Cid → Nat
  | .inside guards => guards.count true
  | .fetchSub _ => 1
  | _ => 0

theorem weight_holds {p : Pc Cid} (ok : p.GuardsOk) : Tally.weight Pc.holds p = p.owned := by
  cases p with
  | inside guards =>
    by_cases held : true ∈ guards
    · have some := List.count_pos_iff.mpr held
      simp only [Pc.GuardsOk] at ok
      have contained : guards.contains true = true := List.contains_iff_mem.mpr held
      simp only [Tally.weight, Pc.holds, contained, Bool.toNat_true, Pc.owned]
      omega
    · simp [Tally.weight, Pc.holds, Pc.owned, held, List.count_eq_zero.mpr held]
  | _ => rfl

theorem owned_outside (Cid : Type) {guards : List Bool} (without : true ∉ guards) :
    (Pc.inside guards : Pc Cid).owned = 0 ∧ (Pc.inside guards : Pc Cid).GuardsOk := by
  have none := List.count_eq_zero.mpr without
  simp [Pc.owned, Pc.GuardsOk, none]

theorem owned_acquired (Cid : Type) {guards : List Bool} (without : true ∉ guards) :
    (Pc.inside (guards ++ [true]) : Pc Cid).owned = 1 ∧
      (Pc.inside (guards ++ [true]) : Pc Cid).GuardsOk := by
  have none := List.count_eq_zero.mpr without
  simp [Pc.owned, Pc.GuardsOk, none]

section Counts
variable [Fintype Cid]

structure Counts where
  holds : Nat
  pops : Nat
  hands : Nat
  announced : Nat

def State.counts (s : State Cid) : Counts :=
  ⟨Tally.count Pc.holds s.pc, Tally.count Pc.pops s.pc, Tally.count Pc.hands s.pc,
    Tally.count Pc.announced s.pc⟩

/-- m_state counts whoever wants the lock; while anybody does there is one token, and an
unlocking coroutine that keeps it to pop has somebody to pop. -/
structure Balanced (m_state : Int) (n : Counts) (pending queued : Nat) : Prop where
  balance : m_state = (n.holds + (n.hands + pending) + queued + n.announced : Nat)
  token : n.holds + n.pops + (n.hands + pending) ≤ 1
  free : n.holds + n.pops + (n.hands + pending) = 0 → m_state = 0
  owed : 0 < n.pops → 0 < m_state

structure Inv (s : State Cid) : Prop where
  guards : ∀ c, (s.pc c).GuardsOk
  balanced : Balanced s.m_state s.counts s.pending.length s.m_queue.length
  line : ∃ transit, Line s transit ∧ transit.length = s.counts.hands + s.pending.length

theorem initial_inv : Inv (initial : State Cid) := by
  have none : ∀ p : Pc Cid → Bool, p (.inside []) = false →
      Tally.count p (fun _ : Cid => (.inside [] : Pc Cid)) = 0 :=
    fun p hp => Tally.count_eq_zero.mpr fun _ => hp
  have counts : (initial : State Cid).counts = ⟨0, 0, 0, 0⟩ := by
    simp only [State.counts, initial, none Pc.holds rfl, none Pc.pops rfl, none Pc.hands rfl,
      none Pc.announced rfl]
  refine ⟨fun _ => by simp [initial, Pc.GuardsOk], ?_, [], ?_, by rw [counts]; rfl⟩
  · rw [counts]
    exact ⟨rfl, Nat.zero_le 1, fun _ => rfl, nofun⟩
  · exact ⟨by simp [InTransit, initial], rfl, by simp [initial], by simp [initial]⟩

theorem not_in_transit {s : State Cid} (none : s.counts.hands + s.pending.length = 0) (w : Cid) :
    ¬ InTransit s w := by
  obtain ⟨hands, pending⟩ := Nat.add_eq_zero_iff.mp none
  rintro (⟨c, g, e, at_pc⟩ | accepted)
  · have idle := Tally.count_eq_zero.mp hands c
    rw [at_pc] at idle
    cases idle
  · rw [List.length_eq_zero_iff.mp pending] at accepted
    cases accepted

end Counts

variable [DecidableEq Cid]

/-- The steps of the lock, by what they do to the token and the line. -/
inductive Steps (s : State Cid) : Act Cid → State Cid → Prop where
  | lock {c guards executor} (at_pc : s.pc c = .inside guards) (without : true ∉ guards) :
    Steps s (.lock c executor) (s.goto c (.fetchAdd guards executor))
  | guard {c op guards kept} (at_pc : s.pc c = .inside guards)
    (same : kept.count true = guards.count true) : Steps s (.guard c op) (s.goto c (.inside kept))
  | unlock {c op guards kept} (at_pc : s.pc c = .inside guards) (one : guards.count true = 1)
    (without : true ∉ kept) : Steps s (.guard c op) (s.goto c (.fetchSub kept))
  | acquire {c guards executor} (at_pc : s.pc c = .fetchAdd guards executor)
    (unlocked : s.m_state = 0) :
    Steps s (.go c) ({ s with m_state := s.m_state + 1 }.goto c (.inside (guards ++ [true])))
  | announce {c guards executor} (at_pc : s.pc c = .fetchAdd guards executor)
    (locked : s.m_state ≠ 0) :
    Steps s (.go c) ({ s with m_state := s.m_state + 1 }.goto c (.push guards executor))
  | enqueue {c guards executor} (at_pc : s.pc c = .push guards executor) :
    Steps s (.go c) ({ s with m_queue := s.m_queue ++ [(c, executor)],
                              pushed := s.pushed ++ [c] }.goto c (.suspended guards))
  | full {c guards executor} (at_pc : s.pc c = .push guards executor)
    (full : capacity ≤ s.m_queue.length) : Steps s (.go c) s
  | leave {c guards} (at_pc : s.pc c = .fetchSub guards) (alone : s.m_state = 1) :
    Steps s (.go c) ({ s with m_state := s.m_state - 1 }.goto c (.inside guards))
  | owe {c guards} (at_pc : s.pc c = .fetchSub guards) (wanted : s.m_state ≠ 1) :
    Steps s (.go c) ({ s with m_state := s.m_state - 1 }.goto c (.pop guards))
  | empty {c guards} (at_pc : s.pc c = .pop guards) (empty : s.m_queue = []) : Steps s (.go c) s
  | dequeue {c guards handle executor rest} (at_pc : s.pc c = .pop guards)
    (queue : s.m_queue = (handle, executor) :: rest) :
    Steps s (.go c) ({ s with m_queue := rest }.goto c (.resume guards handle executor))
  | submit {c guards handle} (at_pc : s.pc c = .resume guards handle true) :
    Steps s (.go c) ({ s with pending := s.pending ++ [handle] }.goto c (.inside guards))
  | resume {c guards handle own} (at_pc : s.pc c = .resume guards handle false)
    (waiting : s.pc handle = .suspended own) :
    Steps s (.go c) (({ s with resumed := s.resumed ++ [handle] }.goto handle
      (.inside (own ++ [true]))).goto c (.inside guards))
  | run {k handle own} (accepted : s.pending[k]? = some handle)
    (waiting : s.pc handle = .suspended own) :
    Steps s (.run k) ({ s with pending := s.pending.eraseIdx k,
                               resumed := s.resumed ++ [handle] }.goto handle
      (.inside (own ++ [true])))

theorem wake_cases {s t : State Cid} {w : Cid} (woken : s.wake w = some t) :
    ∃ own, s.pc w = .suspended own ∧
      t = { s with resumed := s.resumed ++ [w] }.goto w (.inside (own ++ [true])) := by
  unfold State.wake at woken
  split at woken <;> cases woken
  exact ⟨_, ‹_›, rfl⟩

theorem access_cases {s t : State Cid} {c : Cid} (taken : access s c (s.pc c) = some t) :
    Steps s (.go c) t := by
  cases hpc : s.pc c with
  | fetchAdd guards executor =>
    rw [hpc] at taken
    cases taken
    split
    · exact .acquire hpc ‹_›
    · exact .announce hpc ‹_›
  | push guards executor =>
    rw [hpc] at taken
    simp only [access] at taken
    split at taken <;> cases taken
    · exact .enqueue hpc
    · exact .full hpc (by omega)
  | fetchSub guards =>
    rw [hpc] at taken
    cases taken
    split
    · exact .leave hpc ‹_›
    · exact .owe hpc ‹_›
  | pop guards =>
    rw [hpc] at taken
    simp only [access] at taken
    split at taken <;> cases taken
    · exact .empty hpc ‹_›
    · exact .dequeue hpc ‹_›
  | resume guards handle executor =>
    rw [hpc] at taken
    unfold access at taken
    cases executor with
    | true => cases taken; exact .submit hpc
    | false =>
      obtain ⟨u, woken, rfl⟩ := Option.map_eq_some_iff.mp taken
      obtain ⟨own, waiting, rfl⟩ := wake_cases woken
      exact .resume hpc waiting
  | inside | suspended => rw [hpc] at taken; cases taken

theorem step_cases {s t : State Cid} {a : Act Cid} (guards : ∀ c, (s.pc c).GuardsOk)
    (taken : step s a = some t) : Steps s a t := by
  cases a with
  | lock c executor =>
    simp only [step] at taken
    split at taken <;> try cases taken
    split at taken <;> cases taken
    exact .lock ‹_› ‹_›
  | guard c op =>
    simp only [step] at taken
    split at taken <;> try cases taken
    rename_i own hpc
    obtain ⟨p, hop, rfl⟩ := Option.map_eq_some_iff.mp taken
    have one := guards c
    rw [hpc] at one
    rcases guardOp_cases hop one with ⟨kept, rfl, same⟩ | ⟨kept, rfl, held, without⟩
    · exact .guard hpc same
    · exact .unlock hpc held without
  | go c => exact access_cases taken
  | run k =>
    obtain ⟨w, accepted, woken⟩ := Option.bind_eq_some_iff.mp taken
    obtain ⟨own, waiting, rfl⟩ := wake_cases woken
    exact .run accepted waiting

theorem guards_goto {s : State Cid} (guards : ∀ c, (s.pc c).GuardsOk) {p : Pc Cid}
    (ok : p.GuardsOk) {c : Cid} : ∀ d, ((s.goto c p).pc d).GuardsOk := by
  intro d
  simp only [State.goto, Function.update_apply]
  split
  · exact ok
  · exact guards d

/-- Whether a coroutine is suspended in lock(), or has a popped handle in its hands. -/
def Pc.inLine : Pc Cid → Bool
  | .suspended _ => true
  | .resume _ _ _ => true
  | _ => false

theorem Line.goto {s : State Cid} {transit : List Cid} (line : Line s transit) {c : Cid} {p : Pc Cid}
    (before : (s.pc c).inLine = false) (after : p.inLine = false) (m : Int) :
    Line ({ s with m_state := m }.goto c p) transit := by
  have at_pc : ∀ d q, q.inLine = true → ((s.goto c p).pc d = q ↔ s.pc d = q) := by
    intro d q hq
    simp only [State.goto, Function.update_apply]
    split
    · rename_i same
      subst same
      constructor
      · rintro rfl
        cases after.symm.trans hq
      · rintro rfl
        cases before.symm.trans hq
    · rfl
  refine ⟨fun w => ?_, line.order, line.once, fun w => ?_⟩
  · refine (line.popped w).trans (or_congr ?_ Iff.rfl)
    exact exists_congr fun d => exists_congr fun g => exists_congr fun e => (at_pc d _ rfl).symm
  · exact (line.waiting w).trans (exists_congr fun g => (at_pc w _ rfl).symm)

theorem suspended_goto {s : State Cid} {c w : Cid} {p : Pc Cid} (out : ∀ g, p ≠ .suspended g)
    (was : ∀ g, s.pc c ≠ .suspended g) :
    (∃ g, (s.goto c p).pc w = .suspended g) ↔ ∃ g, s.pc w = .suspended g := by
  simp only [State.goto, Function.update_apply]
  split
  · rename_i same
    subst same
    exact ⟨fun ⟨g, hg⟩ => absurd hg (out g), fun ⟨g, hg⟩ => absurd hg (was g)⟩
  · rfl

theorem awake_goto (s : State Cid) (w handle : Cid) (guards : List Bool) :
    (∃ g, (s.goto handle (.inside guards)).pc w = .suspended g) ↔
      w ≠ handle ∧ ∃ g, s.pc w = .suspended g := by
  simp only [State.goto, Function.update_apply]
  split
  · rename_i same
    simp [same]
  · rename_i different
    simp [different]

theorem Line.enqueue {s : State Cid} {transit : List Cid} (line : Line s transit) {c : Cid}
    {guards : List Bool} {executor : Bool} (at_pc : s.pc c = .push guards executor) :
    Line ({ s with m_queue := s.m_queue ++ [(c, executor)],
                   pushed := s.pushed ++ [c] }.goto c (.suspended guards)) transit := by
  have fresh : c ∉ transit ++ s.m_queue.map Prod.fst := fun mem => by
    obtain ⟨g, hg⟩ := (line.waiting c).mp mem
    cases at_pc.symm.trans hg
  refine ⟨fun w => (line.popped w).trans (or_congr ?_ Iff.rfl), ?_, ?_, fun w => ?_⟩
  · refine exists_congr fun d => exists_congr fun g => exists_congr fun e => ?_
    simp only [State.goto, Function.update_apply]
    split
    · rename_i same
      subst same
      simp [at_pc]
    · rfl
  · simp [State.goto, line.order]
  · simp only [State.goto, List.map_append, List.map_cons, List.map_nil, ← List.append_assoc]
    exact List.nodup_append.mpr ⟨line.once, List.nodup_cons.mpr ⟨List.not_mem_nil, List.nodup_nil⟩,
      fun a ha b hb => by
        rw [List.mem_singleton.mp hb]
        rintro rfl
        exact fresh ha⟩
  · simp only [State.goto, List.map_append, List.map_cons, List.map_nil, ← List.append_assoc,
      List.mem_append (s := transit ++ s.m_queue.map Prod.fst), List.mem_singleton,
      Function.update_apply]
    by_cases same : w = c
    · simp [same]
    · simp only [same, or_false, if_false]
      exact line.waiting w

theorem Line.dequeue {s : State Cid} {transit : List Cid} (line : Line s transit) {c : Cid}
    {guards : List Bool} {handle : Cid} {executor : Bool} {rest : List (Cid × Bool)}
    (at_pc : s.pc c = .pop guards) (queue : s.m_queue = (handle, executor) :: rest) :
    Line ({ s with m_queue := rest }.goto c (.resume guards handle executor))
      (transit ++ [handle]) := by
  have same : transit ++ s.m_queue.map Prod.fst = transit ++ [handle] ++ rest.map Prod.fst := by
    simp [queue]
  refine ⟨fun w => ?_, ?_, same ▸ line.once, fun w => ?_⟩
  · rw [List.mem_append, List.mem_singleton, line.popped w]
    simp only [InTransit, State.goto, Function.update_apply]
    constructor
    · rintro ((⟨d, g, e, hd⟩ | accepted) | rfl)
      · have different : d ≠ c := by
          rintro rfl
          cases at_pc.symm.trans hd
        exact .inl ⟨d, g, e, by rw [if_neg different]; exact hd⟩
      · exact .inr accepted
      · exact .inl ⟨c, guards, executor, by rw [if_pos rfl]⟩
    · rintro (⟨d, g, e, hd⟩ | accepted)
      · split at hd
        · cases hd
          exact .inr rfl
        · exact .inl (.inl ⟨d, g, e, hd⟩)
      · exact .inl (.inr accepted)
  · change s.pushed = s.resumed ++ (transit ++ [handle]) ++ rest.map Prod.fst
    rw [line.order, List.append_assoc, same, ← List.append_assoc]
  · have kept := suspended_goto (s := s) (c := c) (w := w) (p := .resume guards handle executor)
      (by simp) (by simp [at_pc])
    exact (same ▸ line.waiting w).trans kept.symm

theorem Line.submit {s : State Cid} {transit : List Cid} (line : Line s transit) {c : Cid}
    {guards : List Bool} {handle : Cid} (at_pc : s.pc c = .resume guards handle true) :
    Line ({ s with pending := s.pending ++ [handle] }.goto c (.inside guards)) transit := by
  refine ⟨fun w => ?_, line.order, line.once, fun w => ?_⟩
  · rw [line.popped w]
    simp only [InTransit, State.goto, Function.update_apply, List.mem_append, List.mem_singleton]
    constructor
    · rintro (⟨d, g, e, hd⟩ | accepted)
      · by_cases same : d = c
        · subst same
          cases at_pc.symm.trans hd
          exact .inr (.inr rfl)
        · exact .inl ⟨d, g, e, by rw [if_neg same]; exact hd⟩
      · exact .inr (.inl accepted)
    · rintro (⟨d, g, e, hd⟩ | accepted | rfl)
      · split at hd
        · cases hd
        · exact .inl ⟨d, g, e, hd⟩
      · exact .inr accepted
      · exact .inl ⟨c, guards, true, at_pc⟩
  · exact (line.waiting w).trans
      (suspended_goto (s := s) (p := .inside guards) (by simp) (by simp [at_pc])).symm

variable [Fintype Cid]

structure Moved (before after : Counts) (q p : Pc Cid) : Prop where
  holds : after.holds + q.owned = before.holds + p.owned
  pops : after.pops + q.pops.toNat = before.pops + p.pops.toNat
  hands : after.hands + q.hands.toNat = before.hands + p.hands.toNat
  announced : after.announced + q.announced.toNat = before.announced + p.announced.toNat

theorem counts_goto {s : State Cid} (guards : ∀ c, (s.pc c).GuardsOk) {c : Cid} {q p : Pc Cid}
    (at_pc : s.pc c = q) (ok : p.GuardsOk) : Moved s.counts (s.goto c p).counts q p := by
  subst at_pc
  refine ⟨?_, Tally.count_update .., Tally.count_update .., Tally.count_update ..⟩
  rw [← weight_holds ok, ← weight_holds (guards c)]
  exact Tally.count_update ..

theorem Inv.only {s : State Cid} (h : Inv s) {w : Cid} (transit : InTransit s w) :
    Line s [w] ∧ s.counts.hands + s.pending.length = 1 := by
  obtain ⟨tr, line, size⟩ := h.line
  have mem := (line.popped w).mpr transit
  have token := h.balanced.token
  have single : tr = [w] := by
    match tr, mem with
    | [v], mem => rw [List.mem_singleton.mp mem]
    | _ :: _ :: _, _ => simp only [List.length_cons] at size; omega
  subst single
  exact ⟨line, size.symm⟩

theorem Inv.of_moved {s u : State Cid} {c : Cid} {q p : Pc Cid} {transit : List Cid}
    (guards : ∀ c, (s.pc c).GuardsOk) (at_pc : s.pc c = q) (ok : p.GuardsOk) (pcs : u.pc = s.pc)
    (line : Line (u.goto c p) transit)
    (counts : ∀ n, Moved s.counts n q p →
      Balanced u.m_state n u.pending.length u.m_queue.length ∧
        transit.length = n.hands + u.pending.length) : Inv (u.goto c p) := by
  have same : u.counts = s.counts := by simp only [State.counts, pcs]
  have moved := counts_goto (pcs ▸ guards) (pcs ▸ at_pc) ok
  rw [same] at moved
  exact ⟨guards_goto (pcs ▸ guards) ok, (counts _ moved).1, transit, line, (counts _ moved).2⟩

theorem Inv.keep {s : State Cid} (h : Inv s) {c : Cid} {q p : Pc Cid} (at_pc : s.pc c = q)
    (ok : p.GuardsOk) (out : q.inLine = false ∧ p.inLine = false) (owned : p.owned = q.owned)
    (pops : p.pops = q.pops) (hands : p.hands = q.hands) (announced : p.announced = q.announced) :
    Inv (s.goto c p) := by
  obtain ⟨gs, ⟨balance, token, free, owed⟩, tr, line, size⟩ := h
  refine .of_moved gs at_pc ok rfl (line.goto (by rw [at_pc]; exact out.1) out.2 s.m_state)
    fun n ⟨m₁, m₂, m₃, m₄⟩ => ?_
  rw [owned] at m₁
  rw [pops] at m₂
  rw [hands] at m₃
  rw [announced] at m₄
  exact ⟨⟨by omega, by omega, by omega, by omega⟩, by omega⟩

theorem step_inv {s t : State Cid} {a : Act Cid} (h : Inv s) (taken : step s a = some t) :
    Inv t := by
  have only := fun w => h.only (w := w)
  have place : ∀ {c q}, s.pc c = q → q.GuardsOk := fun {c _} eq => eq ▸ h.guards c
  have unchanged := h
  obtain ⟨gs, ⟨balance, token, free, owed⟩, tr, line, size⟩ := h
  cases step_cases gs taken with
  | lock at_pc without =>
    exact unchanged.keep at_pc without ⟨rfl, rfl⟩ (List.count_eq_zero.mpr without).symm rfl rfl rfl
  | guard at_pc same =>
    have one := place at_pc
    exact unchanged.keep at_pc (Nat.le_trans (Nat.le_of_eq same) one) ⟨rfl, rfl⟩ same rfl rfl rfl
  | unlock at_pc one without =>
    exact unchanged.keep at_pc without ⟨rfl, rfl⟩ one.symm rfl rfl rfl
  | acquire at_pc unlocked =>
    obtain ⟨single, ok⟩ := owned_acquired Cid (place at_pc)
    simp only [Pc.owned] at single
    refine .of_moved gs at_pc ok rfl (line.goto (by rw [at_pc]; rfl) rfl _)
      fun n ⟨m₁, m₂, m₃, m₄⟩ => ?_
    simp only [Pc.owned, Pc.pops, Pc.hands, Pc.announced, Bool.toNat_false, single]
      at m₁ m₂ m₃ m₄ ⊢
    exact ⟨⟨by omega, by omega, by omega, by omega⟩, by omega⟩
  | announce at_pc locked =>
    refine .of_moved gs at_pc (place at_pc :) rfl (line.goto (by rw [at_pc]; rfl) rfl _)
      fun n ⟨m₁, m₂, m₃, m₄⟩ => ?_
    simp only [Pc.owned, Pc.pops, Pc.hands, Pc.announced, Bool.toNat_false, Bool.toNat_true]
      at m₁ m₂ m₃ m₄ ⊢
    exact ⟨⟨by omega, by omega, by omega, by omega⟩, by omega⟩
  | enqueue at_pc =>
    refine .of_moved gs at_pc (place at_pc :) rfl (line.enqueue at_pc)
      fun n ⟨m₁, m₂, m₃, m₄⟩ => ?_
    simp only [Pc.owned, Pc.pops, Pc.hands, Pc.announced, Bool.toNat_false, Bool.toNat_true]
      at m₁ m₂ m₃ m₄ ⊢
    rw [List.length_append, List.length_singleton]
    exact ⟨⟨by omega, by omega, by omega, by omega⟩, by omega⟩
  | full => exact unchanged
  | leave at_pc alone =>
    obtain ⟨none, ok⟩ := owned_outside Cid (place at_pc)
    simp only [Pc.owned] at none
    refine .of_moved gs at_pc ok rfl (line.goto (by rw [at_pc]; rfl) rfl _)
      fun n ⟨m₁, m₂, m₃, m₄⟩ => ?_
    simp only [Pc.owned, Pc.pops, Pc.hands, Pc.announced, Bool.toNat_false, none]
      at m₁ m₂ m₃ m₄ ⊢
    exact ⟨⟨by omega, by omega, by omega, by omega⟩, by omega⟩
  | owe at_pc wanted =>
    refine .of_moved gs at_pc (place at_pc :) rfl (line.goto (by rw [at_pc]; rfl) rfl _)
      fun n ⟨m₁, m₂, m₃, m₄⟩ => ?_
    simp only [Pc.owned, Pc.pops, Pc.hands, Pc.announced, Bool.toNat_false, Bool.toNat_true]
      at m₁ m₂ m₃ m₄ ⊢
    exact ⟨⟨by omega, by omega, by omega, by omega⟩, by omega⟩
  | empty => exact unchanged
  | dequeue at_pc queue =>
    rw [queue, List.length_cons] at balance
    refine .of_moved gs at_pc (place at_pc :) rfl (line.dequeue at_pc queue)
      fun n ⟨m₁, m₂, m₃, m₄⟩ => ?_
    simp only [Pc.owned, Pc.pops, Pc.hands, Pc.announced, Bool.toNat_false, Bool.toNat_true]
      at m₁ m₂ m₃ m₄ ⊢
    rw [List.length_append, List.length_singleton]
    exact ⟨⟨by omega, by omega, by omega, by omega⟩, by omega⟩
  | submit at_pc =>
    obtain ⟨none, ok⟩ := owned_outside Cid (place at_pc)
    simp only [Pc.owned] at none
    refine .of_moved gs at_pc ok rfl (line.submit at_pc)
      fun n ⟨m₁, m₂, m₃, m₄⟩ => ?_
    simp only [Pc.owned, Pc.pops, Pc.hands, Pc.announced, Bool.toNat_false, Bool.toNat_true, none]
      at m₁ m₂ m₃ m₄ ⊢
    rw [List.length_append, List.length_singleton]
    exact ⟨⟨by omega, by omega, by omega, by omega⟩, by omega⟩
  | @resume c guards handle own at_pc waiting =>
    obtain ⟨only, single⟩ := only handle (.inl ⟨c, guards, false, at_pc⟩)
    obtain ⟨none, ok⟩ := owned_outside Cid (place at_pc)
    obtain ⟨one, ok'⟩ := owned_acquired Cid (place waiting)
    simp only [Pc.owned] at none one
    have different : c ≠ handle := by
      rintro rfl
      cases at_pc.symm.trans waiting
    have kept : (s.goto handle (.inside (own ++ [true]))).pc c = .resume guards handle false := by
      simp only [State.goto, Function.update_of_ne different, at_pc]
    have gs' := guards_goto (c := handle) gs ok'
    obtain ⟨m₁, m₂, m₃, m₄⟩ := counts_goto gs waiting ok'
    obtain ⟨n₁, n₂, n₃, n₄⟩ := counts_goto gs' kept ok
    simp only [Pc.owned, Pc.pops, Pc.hands, Pc.announced, Bool.toNat_false, Bool.toNat_true, none,
      one] at m₁ m₂ m₃ m₄ n₁ n₂ n₃ n₄
    have arrived : ((s.goto handle (.inside (own ++ [true]))).goto c (.inside guards)).counts.hands +
        s.pending.length = 0 := by
      omega
    have balanced : Balanced s.m_state
        ((s.goto handle (.inside (own ++ [true]))).goto c (.inside guards)).counts
        s.pending.length s.m_queue.length := ⟨by omega, by omega, by omega, by omega⟩
    refine ⟨guards_goto gs' ok, balanced, [], only.wake rfl rfl rfl (fun w => ?_)
      (not_in_transit arrived), arrived.symm⟩
    rw [← awake_goto s w handle (own ++ [true])]
    exact suspended_goto (s := s.goto handle _) (by simp) (by simp [kept])
  | @run k handle own accepted waiting =>
    obtain ⟨only, single⟩ := only handle (.inr (List.mem_of_getElem? accepted))
    obtain ⟨one, ok⟩ := owned_acquired Cid (place waiting)
    have pending := (List.getElem?_eq_some_iff.mp accepted).1
    have erased := List.length_eraseIdx_of_lt pending
    simp only [Pc.owned] at one
    obtain ⟨m₁, m₂, m₃, m₄⟩ := counts_goto gs waiting ok
    simp only [Pc.owned, Pc.pops, Pc.hands, Pc.announced, Bool.toNat_false, one] at m₁ m₂ m₃ m₄
    have arrived : (s.goto handle (.inside (own ++ [true]))).counts.hands +
        (s.pending.eraseIdx k).length = 0 := by
      omega
    have balanced : Balanced s.m_state (s.goto handle (.inside (own ++ [true]))).counts
        (s.pending.eraseIdx k).length s.m_queue.length := ⟨by omega, by omega, by omega, by omega⟩
    exact ⟨guards_goto gs ok, balanced, [], only.wake rfl rfl rfl (fun w => awake_goto s w handle _)
      (not_in_transit arrived), arrived.symm⟩

theorem reached_inv {s : State Cid} (h : Reached (system Cid) s) : Inv s :=
  Reached.invariant (I := Inv) (fun s (eq : s = initial) => eq ▸ initial_inv)
    (fun _ _ _ hi taken => step_inv hi taken) h

end Pot.AsyncLock
