import Mathlib.Data.List.Nodup
import Pot.LfqueueModuleInvariant
import Pot.ThreadPoolLfgqSteps

/-! Where the tasks of the executor are: a submission that has claimed its position is in the queue,
in the hands of one worker, or executed. -/
namespace Pot.ThreadPoolLfgq
open Transition
open LfqueueModule (Pc Answer)

variable {Wid Sid : Type}

/-- The queue's view of a submission. -/
def CallOk (i : Sid) (p : Pc Sid) : Call Wid → Prop
  | .none => p = .idle
  | .busy _ => p.kind = .push ∧ ∀ data, p.offers = some data → data = i
  | .returned => p = .returned (.pushed true)

/-- The queue's view of a worker. -/
def WorkerOk (p : Pc Sid) : Worker Sid → Prop
  | .empty => p.kind = .empty
  | .pop => p.kind = .pop
  | .loop | .run _ _ | .left => p.resting = true

structure Places (s : State Wid Sid) : Prop where
  calls : ∀ i, CallOk i (s.queue.pc (.inr i)) (s.call i)
  workers : ∀ w, WorkerOk (s.queue.pc (.inl w)) (s.worker w)
  caller : ∀ i w, s.call i = .busy (some w) → ∃ task, s.worker w = .run task (some i)

/-- The task that a worker has taken a position for and not finished. -/
def State.held (s : State Wid Sid) (w : Wid) : Option Sid :=
  match s.worker w with
  | .run task _ => some task
  | .pop => (s.queue.pc (.inl w)).taken.bind fun pos => s.queue.pushed[pos]?
  | _ => none

structure Ledger (s : State Wid Sid) : Prop where
  nodup : s.queue.pushed.Nodup
  claimed : ∀ i, i ∈ s.queue.pushed ↔ (s.queue.pc (.inr i)).claimed = true
  once : s.executed.Nodup
  popped : ∀ i, i ∈ s.queue.pushed.take s.queue.dpos ↔ i ∈ s.executed ∨ ∃ w, s.held w = some i
  apart : ∀ i w, s.held w = some i → i ∉ s.executed
  unique : ∀ i v w, s.held v = some i → s.held w = some i → v = w

theorem Places.calls_of {s t : State Wid Sid} (h : Places s) (i : Sid)
    (mine : CallOk i (t.queue.pc (.inr i)) (t.call i))
    (others : ∀ j, j ≠ i → t.call j = s.call j ∧ t.queue.pc (.inr j) = s.queue.pc (.inr j)) (j : Sid) :
    CallOk j (t.queue.pc (.inr j)) (t.call j) := by
  by_cases same : j = i
  · exact same ▸ mine
  · obtain ⟨call, pc⟩ := others j same
    rw [call, pc]
    exact h.calls j

theorem Places.workers_of {s t : State Wid Sid} (h : Places s) (w : Wid)
    (mine : WorkerOk (t.queue.pc (.inl w)) (t.worker w))
    (others : ∀ v, v ≠ w → t.worker v = s.worker v ∧ t.queue.pc (.inl v) = s.queue.pc (.inl v))
    (v : Wid) : WorkerOk (t.queue.pc (.inl v)) (t.worker v) := by
  by_cases same : v = w
  · exact same ▸ mine
  · obtain ⟨worker, pc⟩ := others v same
    rw [worker, pc]
    exact h.workers v

theorem Ledger.same {s t : State Wid Sid} (h : Ledger s) (pushed : t.queue.pushed = s.queue.pushed)
    (dpos : t.queue.dpos = s.queue.dpos) (executed : t.executed = s.executed)
    (claimed : ∀ i, (t.queue.pc (.inr i)).claimed = (s.queue.pc (.inr i)).claimed)
    (held : ∀ w, t.held w = s.held w) : Ledger t where
  nodup := pushed ▸ h.nodup
  claimed i := by rw [pushed, claimed]; exact h.claimed i
  once := executed ▸ h.once
  popped i := by simp only [pushed, dpos, executed, held]; exact h.popped i
  apart i w := by rw [held, executed]; exact h.apart i w
  unique i v w := by rw [held, held]; exact h.unique i v w

theorem Ledger.still {s t : State Wid Sid} (h : Ledger s) (queue : t.queue = s.queue)
    (executed : t.executed = s.executed) (held : ∀ w, t.held w = s.held w) : Ledger t :=
  h.same (by rw [queue]) (by rw [queue]) executed (fun i => by rw [queue]) held

variable [DecidableEq Wid] [DecidableEq Sid]

theorem Places.queue {s : State Wid Sid} (h : Places s) {x : Wid ⊕ Sid} {p : Pc Sid}
    {queue : LfqueueModule.State (Wid ⊕ Sid) Sid} (pc : queue.pc = Function.update s.queue.pc x p)
    (busy : (s.queue.pc x).resting = false) (kind : p.kind = (s.queue.pc x).kind)
    (offers : ∀ data, p.offers = some data → (s.queue.pc x).offers = some data) :
    Places { s with queue := queue } := by
  cases x with
  | inl w =>
    refine ⟨fun i => ?_, h.workers_of w ?_ fun v other => ⟨rfl, ?_⟩, h.caller⟩
    · change CallOk i (queue.pc (.inr i)) (s.call i)
      rw [pc, Function.update_of_ne Sum.inr_ne_inl]
      exact h.calls i
    · change WorkerOk (queue.pc (.inl w)) (s.worker w)
      have ok := h.workers w
      rw [pc, Function.update_self]
      cases hw : s.worker w with
      | empty | pop => rw [hw] at ok; exact kind.trans ok
      | loop | run | left => rw [hw] at ok; exact absurd (busy.symm.trans ok) (by decide)
    · change queue.pc (.inl v) = _
      rw [pc, Function.update_of_ne (Sum.inl_injective.ne other)]
  | inr i =>
    refine ⟨h.calls_of i ?_ fun j other => ⟨rfl, ?_⟩, fun w => ?_, h.caller⟩
    · change CallOk i (queue.pc (.inr i)) (s.call i)
      have ok := h.calls i
      rw [pc, Function.update_self]
      cases hc : s.call i with
      | none | returned =>
        rw [hc] at ok
        rw [show s.queue.pc (.inr i) = _ from ok] at busy
        cases busy
      | busy caller =>
        rw [hc] at ok
        exact ⟨kind.trans ok.1, fun data offered => ok.2 data (offers data offered)⟩
    · change queue.pc (.inr j) = _
      rw [pc, Function.update_of_ne (Sum.inr_injective.ne other)]
    · change WorkerOk (queue.pc (.inl w)) (s.worker w)
      rw [pc, Function.update_of_ne Sum.inl_ne_inr]
      exact h.workers w

theorem Places.worker {s : State Wid Sid} (h : Places s) {w : Wid} {p : Pc Sid} {q : Worker Sid}
    (free : ∀ task i, s.worker w ≠ .run task (some i)) (ok : WorkerOk p q) :
    Places ((s.setWorker w q).goto (.inl w) p) := by
  refine ⟨h.calls, h.workers_of w ?_ fun v other => 
      ⟨Function.update_of_ne other .., Function.update_of_ne (Sum.inl_injective.ne other) ..⟩,
    fun i v busy => ?_⟩
  · change WorkerOk (Function.update s.queue.pc (.inl w) p (.inl w)) (Function.update s.worker w q w)
    rw [Function.update_self, Function.update_self]
    exact ok
  · obtain ⟨task, running⟩ := h.caller i v busy
    have other : v ≠ w := fun same => free task i (same ▸ running)
    exact ⟨task, (Function.update_of_ne other ..).trans running⟩

theorem Places.turn {s : State Wid Sid} (h : Places s) {w : Wid} {q : Worker Sid}
    (free : ∀ task i, s.worker w ≠ .run task (some i)) (ok : WorkerOk (s.queue.pc (.inl w)) q) :
    Places (s.setWorker w q) := by
  have moved := h.worker free ok
  have same : s.queue.goto (.inl w) (s.queue.pc (.inl w)) = s.queue := by
    unfold LfqueueModule.State.goto
    rw [Function.update_eq_self]
  rwa [State.goto, show (s.setWorker w q).queue = s.queue from rfl, same] at moved

theorem step_places {size : Nat} {s t : State Wid Sid} {a : Act Wid Sid} (h : Places s)
    (taken : step size s a = some t) : Places t := by
  cases step_cases taken with
  | @executeOut i fresh rest =>
    refine ⟨h.calls_of i ?_ fun j other => ⟨Function.update_of_ne other ..,
      Function.update_of_ne (Sum.inr_injective.ne other) ..⟩, h.workers, fun j w busy => ?_⟩
    · simp [State.goto, State.setCall, LfqueueModule.State.goto, CallOk, Pc.kind, Pc.offers]
    · by_cases mine : j = i
      · subst mine
        simp [State.goto, State.setCall] at busy
      · exact h.caller j w ((Function.update_of_ne mine ..).symm.trans busy)
  | @executeIn i w task fresh running rest =>
    refine ⟨h.calls_of i ?_ fun j other => ⟨Function.update_of_ne other ..,
      Function.update_of_ne (Sum.inr_injective.ne other) ..⟩, h.workers_of w ?_ fun v other =>
        ⟨Function.update_of_ne other .., rfl⟩, fun j v busy => ?_⟩
    · simp [State.goto, State.setCall, State.setWorker, LfqueueModule.State.goto, CallOk, Pc.kind,
        Pc.offers]
    · have ok := h.workers w
      rw [running] at ok
      change WorkerOk _ (Function.update s.worker w _ w)
      rw [Function.update_self]
      exact ok
    · by_cases mine : j = i
      · subst mine
        have same : w = v := by simpa [State.goto, State.setCall, State.setWorker] using busy
        exact ⟨task, same ▸ Function.update_self ..⟩
      · obtain ⟨other, elsewhere⟩ := h.caller j v ((Function.update_of_ne mine ..).symm.trans busy)
        have apart : v ≠ w := fun same => by
          rw [same, running] at elsewhere
          cases elsewhere
        exact ⟨other, (Function.update_of_ne apart ..).trans elsewhere⟩
  | @again i caller busy answer =>
    refine ⟨h.calls_of i ?_ fun j other => ⟨rfl, Function.update_of_ne (Sum.inr_injective.ne other) ..⟩,
      h.workers, h.caller⟩
    simp [State.goto, LfqueueModule.State.goto, busy, CallOk, Pc.kind, Pc.offers]
  | @returnOut i busy answer =>
    refine ⟨h.calls_of i ?_ fun j other => ⟨Function.update_of_ne other .., rfl⟩, h.workers,
      fun j w at_j => ?_⟩
    · simp [State.setCall, CallOk, answer]
    · by_cases mine : j = i
      · subst mine
        simp [State.setCall] at at_j
      · exact h.caller j w ((Function.update_of_ne mine ..).symm.trans at_j)
  | @returnIn i w task j busy answer running =>
    refine ⟨h.calls_of i ?_ fun k other => ⟨Function.update_of_ne other .., rfl⟩,
      h.workers_of w ?_ fun v other => ⟨Function.update_of_ne other .., rfl⟩, fun k v at_k => ?_⟩
    · simp [State.setCall, State.setWorker, CallOk, answer]
    · have ok := h.workers w
      rw [running] at ok
      change WorkerOk _ (Function.update s.worker w _ w)
      rw [Function.update_self]
      exact ok
    · by_cases mine : k = i
      · subst mine
        simp [State.setCall, State.setWorker] at at_k
      · obtain ⟨other, elsewhere⟩ := h.caller k v ((Function.update_of_ne mine ..).symm.trans at_k)
        -- a worker is in one submission at a time
        have apart : v ≠ w := fun same => by
          obtain ⟨mine', here⟩ := h.caller i w busy
          rw [same, here] at elsewhere
          cases elsewhere
          exact mine rfl
        exact ⟨other, (Function.update_of_ne apart ..).trans elsewhere⟩
  | queue stepped =>
    obtain ⟨p, pc, busy, kind, counters⟩ := LfqueueModule.go_cases stepped
    refine h.queue pc busy kind fun data offered => ?_
    rcases counters with ⟨-, -, -, keeps⟩ | ⟨_, -, rfl, -⟩ | ⟨-, rfl, -⟩
    · exact keeps.offers data offered
    · cases offered
    · cases offered
  | @check w epos_first at_loop flag rest =>
    refine h.worker (fun task i running => ?_) ?_
    · rw [at_loop] at running
      cases running
    · cases epos_first <;> rfl
  | poll at_poll rest =>
    refine h.worker (fun task i running => ?_) rfl
    rw [running] at at_poll
    rcases at_poll with none | none <;> cases none
  | leave at_empty answer =>
    refine h.turn (fun task i running => ?_) (by rw [answer]; rfl)
    rw [at_empty] at running
    cases running
  | took at_pop answer | missed at_pop answer =>
    refine h.turn (fun task i running => ?_) (by rw [answer]; rfl)
    rw [at_pop] at running
    cases running
  | @finish w _ task running =>
    have kept : Places { s with executed := s.executed ++ [task] } := ⟨h.calls, h.workers, h.caller⟩
    have ok := h.workers w
    rw [running] at ok
    refine kept.turn (fun task i again => ?_) ok
    change s.worker w = _ at again
    rw [running] at again
    cases again
  | shutdown => exact ⟨h.calls, h.workers, h.caller⟩

omit [DecidableEq Wid] [DecidableEq Sid] in
/-- Only submissions push, each its own task. -/
theorem Places.pushes {s : State Wid Sid} (h : Places s) {x : Wid ⊕ Sid}
    (busy : (s.queue.pc x).resting = false) (kind : (s.queue.pc x).kind = .push) :
    ∃ i, x = .inr i ∧ ∀ data, (s.queue.pc x).offers = some data → data = i := by
  cases x with
  | inl w =>
    have ok := h.workers w
    cases hw : s.worker w with
    | empty | pop => rw [hw] at ok; cases kind.symm.trans ok
    | loop | run | left => rw [hw] at ok; exact absurd (busy.symm.trans ok) (by decide)
  | inr i =>
    have ok := h.calls i
    cases hc : s.call i with
    | none | returned =>
      rw [hc] at ok
      rw [show s.queue.pc (.inr i) = _ from ok] at busy
      cases busy
    | busy caller =>
      rw [hc] at ok
      exact ⟨i, rfl, ok.2⟩

omit [DecidableEq Wid] [DecidableEq Sid] in
theorem Places.pops {s : State Wid Sid} (h : Places s) {x : Wid ⊕ Sid}
    (busy : (s.queue.pc x).resting = false) (kind : (s.queue.pc x).kind = .pop) :
    ∃ w, x = .inl w ∧ s.worker w = .pop := by
  cases x with
  | inl w =>
    have ok := h.workers w
    cases hw : s.worker w with
    | empty => rw [hw] at ok; cases kind.symm.trans ok
    | pop => exact ⟨w, rfl, hw⟩
    | loop | run | left => rw [hw] at ok; exact absurd (busy.symm.trans ok) (by decide)
  | inr i =>
    have ok := h.calls i
    cases hc : s.call i with
    | none | returned =>
      rw [hc] at ok
      rw [show s.queue.pc (.inr i) = _ from ok] at busy
      cases busy
    | busy caller =>
      rw [hc] at ok
      cases kind.symm.trans ok.1

theorem taken_before {T Tid : Type} {size : Nat} {s : LfqueueModule.State Tid T} {p : Pc T}
    (ok : LfqueueModule.ThreadOk size s p) {pos : Nat} (taken : p.taken = some pos) :
    pos < s.dpos := by
  cases p with
  | popData | popStoreSeq => cases taken; exact ok.1
  | returned answer =>
    cases answer with
    | popped => cases taken; exact ok.1
    | pushed result => cases result <;> cases taken
    | _ => cases taken
  | _ => cases taken

omit [DecidableEq Wid] [DecidableEq Sid] in
theorem held_queue {s : State Wid Sid} {queue : LfqueueModule.State (Wid ⊕ Sid) Sid} {w : Wid}
    (value : ∀ pos, (s.queue.pc (.inl w)).taken = some pos →
      queue.pushed[pos]? = s.queue.pushed[pos]?)
    (taken : (queue.pc (.inl w)).taken = (s.queue.pc (.inl w)).taken) :
    ({ s with queue := queue } : State Wid Sid).held w = s.held w := by
  unfold State.held
  simp only [taken]
  cases s.worker w with
  | pop =>
    cases at_pos : (s.queue.pc (.inl w)).taken with
    | none => rfl
    | some pos => exact value pos at_pos
  | _ => rfl

section Queue

variable {size : Nat} {s : State Wid Sid} (inv : LfqueueModule.Inv size s.queue) (places : Places s)
  (h : Ledger s) {queue : LfqueueModule.State (Wid ⊕ Sid) Sid}
include inv places h

/-- The exchange of a push puts its task into the queue. -/
theorem Ledger.claim {i : Sid} {data : Sid} (at_cas : s.queue.pc (.inr i) = .pushCas data s.queue.epos)
    (pc : queue.pc = Function.update s.queue.pc (.inr i) (.pushData data s.queue.epos))
    (dpos : queue.dpos = s.queue.dpos) (pushed : queue.pushed = s.queue.pushed ++ [data]) :
    Ledger { s with queue := queue } := by
  have order := inv.order
  have mine : data = i := by
    obtain ⟨j, same, offers⟩ := places.pushes (x := .inr i) (by rw [at_cas]; rfl) (by rw [at_cas]; rfl)
    cases same
    exact offers data (by rw [at_cas]; rfl)
  subst mine
  have fresh : data ∉ s.queue.pushed := fun mem => by
    have past := (h.claimed data).mp mem
    rw [at_cas] at past
    cases past
  have popped : queue.pushed.take queue.dpos = s.queue.pushed.take s.queue.dpos := by
    rw [pushed, dpos, List.take_append_of_le_length (by rw [inv.tickets]; exact order)]
  have held : ∀ w, ({ s with queue := queue } : State Wid Sid).held w = s.held w := by
    intro w
    refine held_queue (fun pos taken => ?_) (by rw [pc, Function.update_of_ne Sum.inl_ne_inr])
    rw [pushed]
    refine List.getElem?_append_left ?_
    have before := taken_before (inv.threads (.inl w)) taken
    rw [inv.tickets]
    omega
  refine ⟨?_, fun j => ?_, h.once, fun j => ?_, fun j w => ?_, fun j v w => ?_⟩
  · change queue.pushed.Nodup
    rw [pushed]
    exact List.nodup_append.mpr ⟨h.nodup, List.nodup_singleton data, fun a mem b last same =>
      fresh (List.mem_singleton.mp last ▸ same ▸ mem)⟩
  · change j ∈ queue.pushed ↔ (queue.pc (.inr j)).claimed = true
    rw [pushed, pc, List.mem_append, List.mem_singleton]
    by_cases same : j = data
    · subst same
      rw [Function.update_self]
      exact ⟨fun _ => rfl, fun _ => .inr rfl⟩
    · rw [Function.update_of_ne (Sum.inr_injective.ne same), ← h.claimed j]
      exact ⟨fun mem => mem.resolve_right same, .inl⟩
  · change j ∈ queue.pushed.take queue.dpos ↔ _
    simp only [popped, held]
    exact h.popped j
  · rw [held]
    exact h.apart j w
  · rw [held, held]
    exact h.unique j v w

theorem Ledger.take {w : Wid} (at_cas : s.queue.pc (.inl w) = .popCas s.queue.dpos)
    (more : s.queue.dpos < s.queue.epos)
    (pc : queue.pc = Function.update s.queue.pc (.inl w) (.popData s.queue.dpos))
    (dpos : queue.dpos = s.queue.dpos + 1) (pushed : queue.pushed = s.queue.pushed) :
    Ledger { s with queue := queue } := by
  have at_pop : s.worker w = .pop := by
    obtain ⟨v, same, at_pop⟩ := places.pops (x := .inl w) (by rw [at_cas]; rfl) (by rw [at_cas]; rfl)
    cases same
    exact at_pop
  have inside : s.queue.dpos < s.queue.pushed.length := inv.tickets ▸ more
  have next := List.getElem?_eq_getElem inside
  have free : s.held w = none := by
    unfold State.held
    rw [at_pop, at_cas]
    rfl
  have mine : ({ s with queue := queue } : State Wid Sid).held w =
      some s.queue.pushed[s.queue.dpos] := by
    unfold State.held
    simp only [at_pop, pc, Function.update_self, pushed]
    exact next
  have others : ∀ v, v ≠ w → ({ s with queue := queue } : State Wid Sid).held v = s.held v :=
    fun v other => held_queue (fun pos _ => by rw [pushed])
      (by rw [pc, Function.update_of_ne (Sum.inl_injective.ne other)])
  have popped : queue.pushed.take queue.dpos =
      s.queue.pushed.take s.queue.dpos ++ [s.queue.pushed[s.queue.dpos]] := by
    rw [pushed, dpos, List.take_append_getElem]
  -- the task was not popped before
  have fresh : s.queue.pushed[s.queue.dpos] ∉ s.queue.pushed.take s.queue.dpos := fun mem => by
    obtain ⟨k, before, same⟩ := List.mem_take_iff_getElem.mp mem
    have := h.nodup.getElem_inj_iff.mp same
    omega
  have settled := fun v i (theirs : s.held v = some i) => (h.popped i).mpr (.inr ⟨v, theirs⟩)
  refine ⟨?_, fun i => ?_, h.once, fun i => ?_, fun i v theirs => ?_, fun i u v left right => ?_⟩
  · change queue.pushed.Nodup
    rw [pushed]
    exact h.nodup
  · change i ∈ queue.pushed ↔ (queue.pc (.inr i)).claimed = true
    rw [pushed, pc, Function.update_of_ne Sum.inr_ne_inl]
    exact h.claimed i
  · change i ∈ queue.pushed.take queue.dpos ↔ _
    rw [popped, List.mem_append, List.mem_singleton, h.popped]
    constructor
    · rintro ((done | ⟨v, theirs⟩) | rfl)
      · exact .inl done
      · have other : v ≠ w := fun same => by rw [same, free] at theirs; cases theirs
        exact .inr ⟨v, (others v other).trans theirs⟩
      · exact .inr ⟨w, mine⟩
    · rintro (done | ⟨v, theirs⟩)
      · exact .inl (.inl done)
      · by_cases same : v = w
        · subst same
          exact .inr (Option.some.inj (theirs.symm.trans mine))
        · exact .inl (.inr ⟨v, (others v same).symm.trans theirs⟩)
  · by_cases same : v = w
    · subst same
      obtain rfl := Option.some.inj (theirs.symm.trans mine)
      exact fun done => fresh ((h.popped _).mpr (.inl done))
    · exact h.apart i v ((others v same).symm.trans theirs)
  · by_cases first : u = w
    · by_cases second : v = w
      · exact first.trans second.symm
      · subst first
        obtain rfl := Option.some.inj (left.symm.trans mine)
        exact absurd (settled v _ ((others v second).symm.trans right)) fresh
    · by_cases second : v = w
      · subst second
        obtain rfl := Option.some.inj (right.symm.trans mine)
        exact absurd (settled u _ ((others u first).symm.trans left)) fresh
      · exact h.unique i u v ((others u first).symm.trans left) ((others v second).symm.trans right)

theorem Ledger.access {x : Wid ⊕ Sid} {spurious : Bool} (accepted : LfqueueModule.Accepted size)
    (stepped : LfqueueModule.step size s.queue (x, .go spurious) = some queue) :
    Ledger { s with queue := queue } := by
  have kept := LfqueueModule.step_inv accepted inv stepped
  obtain ⟨p, pc, busy, -, ⟨epos, dpos, pushed, keeps⟩ | ⟨data, at_cas, rfl, -, dpos, pushed⟩ |
    ⟨at_cas, rfl, epos, dpos, pushed⟩⟩ := LfqueueModule.go_cases stepped
  · refine h.same pushed dpos rfl (fun i => ?_) fun w => held_queue (fun pos _ => by rw [pushed]) ?_
    · change (queue.pc (.inr i)).claimed = _
      by_cases same : .inr i = x
      · subst same
        rw [pc, Function.update_self]
        exact keeps.claimed
      · rw [pc, Function.update_of_ne same]
    · by_cases same : .inl w = x
      · subst same
        rw [pc, Function.update_self]
        exact keeps.taken
      · rw [pc, Function.update_of_ne same]
  · obtain ⟨i, rfl, -⟩ := places.pushes busy (by rw [at_cas]; rfl)
    exact h.claim inv places at_cas pc dpos pushed
  · obtain ⟨w, rfl, -⟩ := places.pops busy (by rw [at_cas]; rfl)
    have order := kept.order
    exact h.take inv places at_cas (by omega) pc dpos pushed

end Queue

omit [DecidableEq Sid] in
theorem Ledger.finish {s : State Wid Sid} (h : Ledger s) {w : Wid} {task : Sid}
    (running : s.worker w = .run task none) :
    Ledger ({ s with executed := s.executed ++ [task] }.setWorker w .loop) := by
  have mine : s.held w = some task := by
    unfold State.held
    rw [running]
  have fresh := h.apart task w mine
  have none_left : ({ s with executed := s.executed ++ [task] }.setWorker w .loop).held w = none := by
    simp only [State.held, State.setWorker, Function.update_self]
  have others : ∀ v, v ≠ w →
      ({ s with executed := s.executed ++ [task] }.setWorker w .loop).held v = s.held v := by
    intro v other
    simp only [State.held, State.setWorker, Function.update_of_ne other]
  refine ⟨h.nodup, h.claimed, ?_, fun i => ?_, fun i v theirs => ?_, fun i u v left right => ?_⟩
  · exact List.nodup_append.mpr ⟨h.once, List.nodup_singleton task, fun a done b last same =>
      fresh (List.mem_singleton.mp last ▸ same ▸ done)⟩
  · change i ∈ s.queue.pushed.take s.queue.dpos ↔ i ∈ s.executed ++ [task] ∨ _
    rw [h.popped, List.mem_append, List.mem_singleton]
    constructor
    · rintro (done | ⟨v, theirs⟩)
      · exact .inl (.inl done)
      · by_cases same : v = w
        · subst same
          exact .inl (.inr (Option.some.inj (theirs.symm.trans mine)))
        · exact .inr ⟨v, (others v same).trans theirs⟩
    · rintro ((done | rfl) | ⟨v, theirs⟩)
      · exact .inl done
      · exact .inr ⟨w, mine⟩
      · have other : v ≠ w := fun same => by rw [same, none_left] at theirs; cases theirs
        exact .inr ⟨v, (others v other).symm.trans theirs⟩
  · have other : v ≠ w := fun same => by rw [same, none_left] at theirs; cases theirs
    have before := (others v other).symm.trans theirs
    change i ∉ s.executed ++ [task]
    rw [List.mem_append, List.mem_singleton, not_or]
    exact ⟨h.apart i v before, fun same => other (h.unique task v w (same ▸ before) mine)⟩
  · have first : u ≠ w := fun same => by rw [same, none_left] at left; cases left
    have second : v ≠ w := fun same => by rw [same, none_left] at right; cases right
    exact h.unique i u v ((others u first).symm.trans left) ((others v second).symm.trans right)

theorem Ledger.turn {s : State Wid Sid} (h : Ledger s) {w : Wid} {p : Pc Sid} {q : Worker Sid}
    (held : ((s.setWorker w q).goto (.inl w) p).held w = s.held w) :
    Ledger ((s.setWorker w q).goto (.inl w) p) := by
  refine h.same rfl rfl rfl (fun i => ?_) fun v => ?_
  · change (Function.update s.queue.pc (.inl w) p (.inr i)).claimed = _
    rw [Function.update_of_ne Sum.inr_ne_inl]
  · by_cases same : v = w
    · exact same ▸ held
    · simp only [State.held, State.goto, State.setWorker, LfqueueModule.State.goto,
        Function.update_of_ne same, Function.update_of_ne (Sum.inl_injective.ne same)]

theorem Ledger.offer {s : State Wid Sid} (h : Ledger s) {i : Sid}
    (before : (s.queue.pc (.inr i)).claimed = false) :
    Ledger (s.goto (.inr i) (.pushLoadPos i)) := by
  refine h.same rfl rfl rfl (fun j => ?_) fun w => ?_
  · change (Function.update s.queue.pc (.inr i) (.pushLoadPos i) (.inr j)).claimed = _
    by_cases same : j = i
    · subst same
      rw [before, Function.update_self]
      rfl
    · rw [Function.update_of_ne (Sum.inr_injective.ne same)]
  · have apart : (.inl w : Wid ⊕ Sid) ≠ .inr i := Sum.inl_ne_inr
    simp only [State.held, State.goto, LfqueueModule.State.goto, Function.update_of_ne apart]

omit [DecidableEq Sid] in
theorem held_setWorker {s : State Wid Sid} {w : Wid} {q : Worker Sid}
    (mine : (s.setWorker w q).held w = s.held w) (v : Wid) : (s.setWorker w q).held v = s.held v := by
  by_cases same : v = w
  · exact same ▸ mine
  · simp only [State.held, State.setWorker, Function.update_of_ne same]

theorem step_ledger {size : Nat} {s t : State Wid Sid} {a : Act Wid Sid}
    (accepted : LfqueueModule.Accepted size) (inv : LfqueueModule.Inv size s.queue)
    (places : Places s) (h : Ledger s) (taken : step size s a = some t) : Ledger t := by
  cases step_cases taken with
  | @executeOut i fresh rest =>
    have kept : Ledger (s.setCall i (.busy none)) := h.still rfl rfl fun _ => rfl
    have idle := places.calls i
    rw [fresh] at idle
    exact kept.offer (by change (s.queue.pc (.inr i)).claimed = false; rw [idle]; rfl)
  | @executeIn i w task fresh running rest =>
    have kept : Ledger ((s.setCall i (.busy (some w))).setWorker w (.run task (some i))) := by
      refine h.still rfl rfl fun v => held_setWorker (s := s.setCall i (.busy (some w))) ?_ v
      simp only [State.held, State.setWorker, State.setCall, Function.update_self, running]
    have idle := places.calls i
    rw [fresh] at idle
    exact kept.offer (by change (s.queue.pc (.inr i)).claimed = false; rw [idle]; rfl)
  | again busy answer => exact h.offer (by rw [answer]; rfl)
  | returnOut busy answer => exact h.still rfl rfl fun _ => rfl
  | @returnIn i w task j busy answer running =>
    refine h.still rfl rfl fun v => held_setWorker (s := s.setCall i .returned) ?_ v
    simp only [State.held, State.setWorker, State.setCall, Function.update_self, running]
  | queue stepped => exact h.access inv places accepted stepped
  | check at_loop flag rest =>
    refine h.turn ?_
    simp only [State.held, State.goto, State.setWorker, Function.update_self, at_loop]
  | poll at_poll rest =>
    refine h.turn ?_
    rcases at_poll with at_loop | at_empty
    · simp [State.held, State.goto, State.setWorker, LfqueueModule.State.goto, at_loop, Pc.taken]
    · simp [State.held, State.goto, State.setWorker, LfqueueModule.State.goto, at_empty, Pc.taken]
  | leave at_empty answer =>
    refine h.still rfl rfl fun v => held_setWorker ?_ v
    simp only [State.held, State.setWorker, Function.update_self, at_empty]
  | @took w _ pos task at_pop answer =>
    refine h.still rfl rfl fun v => held_setWorker ?_ v
    have ok := inv.threads (.inl w)
    rw [answer] at ok
    simp only [State.held, State.setWorker, Function.update_self, at_pop, answer, Pc.taken,
      Option.bind_some]
    exact ok.2
  | missed at_pop answer =>
    refine h.still rfl rfl fun v => held_setWorker ?_ v
    simp only [State.held, State.setWorker, Function.update_self, at_pop, answer, Pc.taken,
      Option.bind_none]
  | finish running => exact h.finish running
  | shutdown => exact h.still rfl rfl fun _ => rfl

end Pot.ThreadPoolLfgq
