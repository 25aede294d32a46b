import Mathlib.Algebra.GroupWithZero.Nat
import Mathlib.Data.List.Nodup
import Pot.AsyncBarrier
import Pot.Mutex

/-! When the barrier opens and whom it lets through. The mutex orders the recheck before the
one swap that follows the last counted set(). -/
namespace Pot.AsyncBarrier
open Transition

variable {Cid Tid : Type}

def Pc.locked : Pc → Bool
  | .recheck | .pushBack | .unlock | .unlockEarly => true
  | _ => false

def Call.locked : Call Cid → Bool
  | .swap | .unlock _ => true
  | _ => false

def Call.taken : Call Cid → List Cid
  | .unlock to_resume | .resume to_resume => to_resume
  | _ => []

def Call.owes : Call Cid → Bool
  | .lock | .swap => true
  | _ => false

/-- Whoever is past the recheck with enough counted, or in a set() that reached the count. -/
structure Counted (expected_count : BitVec 64) (s : State Cid Tid) : Prop where
  count : s.current_count = BitVec.ofNat 64 s.sets
  early : ∀ c, s.pc c = .unlockEarly ∨ s.pc c = .resume → expected_count.toNat ≤ s.sets
  reached : ∀ t, s.call t ≠ .idle → expected_count.toNat ≤ s.sets
  passed : ∀ c, 0 < s.passed c → expected_count.toNat ≤ s.sets

/-- Who is in a section of the mutex. -/
def State.inside (s : State Cid Tid) : Owner Cid Tid → Bool
  | .coroutine c => (s.pc c).locked
  | .thread t => (s.call t).locked

def Exclusive (s : State Cid Tid) : Prop := Mutex.Guards s.awaiters_mutex s.inside

/-- A handle is in the list or with one set(), once, and its coroutine stays where it is. -/
structure Handles (s : State Cid Tid) : Prop where
  listed : ∀ c ∈ s.awaiters, s.pc c = .unlock ∨ s.pc c = .suspended
  once : s.awaiters.Nodup
  taken : ∀ t, ∀ c ∈ (s.call t).taken, s.pc c = .suspended ∧ c ∉ s.awaiters
  takenOnce : ∀ t, (s.call t).taken.Nodup
  apart : ∀ t u c, c ∈ (s.call t).taken → c ∈ (s.call u).taken → t = u
  balance : ∀ c, s.resumptions c + (if s.pc c = .running then 0 else 1) = s.suspensions c

/-- A coroutine that is in the list, or past its recheck, waits for a count that is still to
come or for a swap that is. -/
def Owed (expected_count : BitVec 64) (s : State Cid Tid) : Prop :=
  s.awaiters ≠ [] ∨ (∃ c, s.pc c = .pushBack) →
    s.current_count < expected_count ∨ ∃ t, (s.call t).owes = true

theorem Counted.enough {expected_count : BitVec 64} {s : State Cid Tid}
    (h : Counted expected_count s) (enough : s.current_count ≥ expected_count) :
    expected_count.toNat ≤ s.sets := by
  have low : expected_count.toNat ≤ s.current_count.toNat := enough
  rw [h.count, BitVec.toNat_ofNat] at low
  exact Nat.le_trans low (Nat.mod_le _ _)

theorem Counted.open {expected_count : BitVec 64} {s : State Cid Tid}
    (count : s.current_count = BitVec.ofNat 64 s.sets) (opened : expected_count.toNat ≤ s.sets) :
    Counted expected_count s :=
  ⟨count, fun _ _ => opened, fun _ _ => opened, fun _ _ => opened⟩

theorem Exclusive.swapping {s : State Cid Tid} (h : Exclusive s) {t : Tid} (at_pc : s.call t = .swap)
    (c : Cid) : (s.pc c).locked = false :=
  Mutex.Guards.alone h (p := .thread t) (q := .coroutine c)
    (by rw [State.inside, at_pc]; rfl) (fun same => by cases same)

/-- The swap meets only coroutines that are done with await_suspend: the others would hold the
mutex. -/
theorem Handles.settled {s : State Cid Tid} (alone : Exclusive s) (h : Handles s) {t : Tid}
    (at_pc : s.call t = .swap) : ∀ c ∈ s.awaiters, s.pc c = .suspended := by
  intro c mem
  refine (h.listed c mem).resolve_left fun unlocking => ?_
  have outside := alone.swapping at_pc c
  rw [unlocking] at outside
  cases outside

theorem Owed.mono {expected_count : BitVec 64} {s t : State Cid Tid} (h : Owed expected_count s)
    (count : t.current_count = s.current_count) (awaiters : t.awaiters = s.awaiters)
    (pushing : ∀ c, t.pc c = .pushBack → s.pc c = .pushBack)
    (owes : ∀ u, (s.call u).owes = true → (t.call u).owes = true) : Owed expected_count t := by
  intro waits
  rw [awaiters] at waits
  rw [count]
  exact (h (waits.imp_right fun ⟨c, hc⟩ => ⟨c, pushing c hc⟩)).imp_right fun ⟨u, hu⟩ => ⟨u, owes u hu⟩

section Threads
variable [DecidableEq Tid]

theorem inside_setCall (s : State Cid Tid) (t : Tid) (p : Call Cid) :
    (s.setCall t p).inside (.thread t) = p.locked ∧
      ∀ o, o ≠ .thread t → (s.setCall t p).inside o = s.inside o := by
  constructor
  · simp [State.inside, State.setCall]
  · rintro (c | u) other
    · rfl
    · have different : u ≠ t := fun same => other (same ▸ rfl)
      simp [State.inside, State.setCall, different]

theorem Handles.setCall {s : State Cid Tid} (h : Handles s) (t : Tid) {p : Call Cid}
    (same : p.taken = (s.call t).taken) : Handles (s.setCall t p) := by
  have still : ∀ u, ((s.setCall t p).call u).taken = (s.call u).taken := by
    intro u
    simp only [State.setCall, Function.update_apply]
    split
    · subst u
      exact same
    · rfl
  refine ⟨h.listed, h.once, fun u c mem => ?_, fun u => ?_, fun u v c first second => ?_, h.balance⟩
  · exact h.taken u c (still u ▸ mem)
  · rw [still u]
    exact h.takenOnce u
  · exact h.apart u v c (still u ▸ first) (still v ▸ second)

theorem Handles.swap {s : State Cid Tid} (alone : Exclusive s) (h : Handles s) {t : Tid}
    (at_pc : s.call t = .swap) :
    Handles ({ s with awaiters := [] }.setCall t (.unlock s.awaiters)) := by
  have settled := h.settled alone at_pc
  have others : ∀ u, u ≠ t → ∀ c ∈ (s.call u).taken, c ∉ s.awaiters := fun u _ c mem =>
    (h.taken u c mem).2
  constructor
  case listed => exact fun c mem => absurd mem List.not_mem_nil
  case once => exact List.nodup_nil
  case balance => exact h.balance
  case taken =>
    intro u c mem
    simp only [State.setCall, Function.update_apply] at mem
    split at mem
    · exact ⟨settled c mem, List.not_mem_nil⟩
    · exact ⟨(h.taken u c mem).1, List.not_mem_nil⟩
  case takenOnce =>
    intro u
    simp only [State.setCall, Function.update_apply]
    split
    · exact h.once
    · exact h.takenOnce u
  case apart =>
    intro u v c first second
    simp only [State.setCall, Function.update_apply] at first second
    split at first <;> split at second
    · exact ‹u = t›.trans ‹v = t›.symm
    · exact absurd first (others v ‹_› c second)
    · exact absurd second (others u ‹_› c first)
    · exact h.apart u v c first second

end Threads

variable [DecidableEq Cid]

theorem inside_goto (s : State Cid Tid) (c : Cid) (p : Pc) :
    (s.goto c p).inside (.coroutine c) = p.locked ∧
      ∀ o, o ≠ .coroutine c → (s.goto c p).inside o = s.inside o := by
  constructor
  · simp [State.inside, State.goto]
  · rintro (d | t) other
    · have different : d ≠ c := fun same => other (same ▸ rfl)
      simp [State.inside, State.goto, different]
    · rfl

theorem Counted.goto {expected_count : BitVec 64} {s : State Cid Tid} (h : Counted expected_count s)
    (c : Cid) {p : Pc} (early : p ≠ .unlockEarly) (resume : p ≠ .resume) :
    Counted expected_count (s.goto c p) := by
  refine ⟨h.count, fun d at_pc => ?_, h.reached, h.passed⟩
  simp only [State.goto, Function.update_apply] at at_pc
  split at at_pc
  · exact absurd at_pc (not_or.mpr ⟨early, resume⟩)
  · exact h.early d at_pc

theorem Handles.move {s t : State Cid Tid} (h : Handles s) {c : Cid} {p : Pc}
    (awake : s.pc c ≠ .suspended) (pc : t.pc = Function.update s.pc c p) (call : t.call = s.call)
    (awaiters : t.awaiters = s.awaiters) (listed : c ∈ s.awaiters → p = .unlock ∨ p = .suspended)
    (balance : ∀ d, t.resumptions d + (if t.pc d = .running then 0 else 1) = t.suspensions d) :
    Handles t := by
  constructor
  case listed =>
    intro d mem
    rw [awaiters] at mem
    rw [pc, Function.update_apply]
    split
    · subst d
      exact listed mem
    · exact h.listed d mem
  case taken =>
    intro u d mem
    rw [call] at mem
    obtain ⟨asleep, unlisted⟩ := h.taken u d mem
    have other : d ≠ c := fun same => awake (same ▸ asleep)
    rw [pc, awaiters, Function.update_of_ne other]
    exact ⟨asleep, unlisted⟩
  case once => rw [awaiters]; exact h.once
  case takenOnce => rw [call]; exact h.takenOnce
  case apart => rw [call]; exact h.apart
  case balance => exact balance

theorem Handles.still {s : State Cid Tid} (h : Handles s) {c : Cid} {p : Pc}
    (before : s.pc c ≠ .running) (after : p ≠ .running) (d : Cid) :
    s.resumptions d + (if (s.goto c p).pc d = .running then 0 else 1) = s.suspensions d := by
  have balance := h.balance d
  simp only [State.goto, Function.update_apply]
  by_cases same : d = c
  · rw [same, if_neg before] at balance
    rw [same, if_pos rfl, if_neg after]
    exact balance
  · rw [if_neg same]
    exact balance

theorem Handles.push {s : State Cid Tid} (h : Handles s) {c : Cid} (at_pc : s.pc c = .pushBack) :
    Handles ({ s with awaiters := s.awaiters ++ [c] }.goto c .unlock) := by
  have unlisted : c ∉ s.awaiters := fun mem => by
    rcases h.listed c mem with listed | listed <;> rw [at_pc] at listed <;> cases listed
  constructor
  case listed =>
    intro d mem
    simp only [State.goto, Function.update_apply]
    split
    · exact .inl rfl
    · exact h.listed d ((List.mem_append.mp mem).resolve_right fun last =>
        ‹d ≠ c› (List.mem_singleton.mp last))
  case once => exact List.nodup_append.mpr ⟨h.once, List.nodup_singleton c, fun a listed b last same =>
    unlisted (List.mem_singleton.mp last ▸ same ▸ listed)⟩
  case taken =>
    intro u d mem
    obtain ⟨asleep, outside⟩ := h.taken u d mem
    have other : d ≠ c := fun same => by rw [same, at_pc] at asleep; cases asleep
    simp only [State.goto, Function.update_of_ne other]
    exact ⟨asleep, fun listed => (List.mem_append.mp listed).elim outside fun last =>
      other (List.mem_singleton.mp last)⟩
  case takenOnce => exact h.takenOnce
  case apart => exact h.apart
  case balance => exact h.still (by simp [at_pc]) (by simp)

variable [DecidableEq Tid]

inductive Steps (expected_count : BitVec 64) (s : State Cid Tid) :
    Act Cid Tid → State Cid Tid → Prop where
  | ready {c} (at_pc : s.pc c = .running) (enough : s.current_count ≥ expected_count) :
    Steps expected_count s (.coAwait c) (s.pass c)
  | unready {c} (at_pc : s.pc c = .running) (few : s.current_count < expected_count) :
    Steps expected_count s (.coAwait c) ({ s with
      suspensions := Function.update s.suspensions c (s.suspensions c + 1) }.goto c .lock)
  | lock {c} (at_pc : s.pc c = .lock) (free : s.awaiters_mutex = none) :
    Steps expected_count s (.go c) ({ s with awaiters_mutex := some (.coroutine c) }.goto c .recheck)
  | enough {c} (at_pc : s.pc c = .recheck) (enough : s.current_count ≥ expected_count) :
    Steps expected_count s (.go c) (s.goto c .unlockEarly)
  | few {c} (at_pc : s.pc c = .recheck) (few : s.current_count < expected_count) :
    Steps expected_count s (.go c) (s.goto c .pushBack)
  | push {c} (at_pc : s.pc c = .pushBack) :
    Steps expected_count s (.go c) ({ s with awaiters := s.awaiters ++ [c] }.goto c .unlock)
  | unlock {c} (at_pc : s.pc c = .unlock) :
    Steps expected_count s (.go c) ({ s with awaiters_mutex := none }.goto c .suspended)
  | unlockEarly {c} (at_pc : s.pc c = .unlockEarly) :
    Steps expected_count s (.go c) ({ s with awaiters_mutex := none }.goto c .resume)
  | resumeSelf {c} (at_pc : s.pc c = .resume) : Steps expected_count s (.go c) (s.wake c)
  | reach {t} (at_pc : s.call t = .idle) (last : s.current_count + 1 = expected_count) :
    Steps expected_count s (.set t)
      ({ s with current_count := s.current_count + 1, sets := s.sets + 1 }.setCall t .lock)
  | count {t} (at_pc : s.call t = .idle) (other : s.current_count + 1 ≠ expected_count) :
    Steps expected_count s (.set t)
      ({ s with current_count := s.current_count + 1, sets := s.sets + 1 }.setCall t .idle)
  | acquire {t} (at_pc : s.call t = .lock) (free : s.awaiters_mutex = none) :
    Steps expected_count s (.call t) ({ s with awaiters_mutex := some (.thread t) }.setCall t .swap)
  | swap {t} (at_pc : s.call t = .swap) :
    Steps expected_count s (.call t) ({ s with awaiters := [] }.setCall t (.unlock s.awaiters))
  | release {t to_resume} (at_pc : s.call t = .unlock to_resume) :
    Steps expected_count s (.call t)
      ({ s with awaiters_mutex := none }.setCall t (.resume to_resume))
  | finish {t} (at_pc : s.call t = .resume []) :
    Steps expected_count s (.call t) (s.setCall t .idle)
  | wake {t h rest} (at_pc : s.call t = .resume (h :: rest)) :
    Steps expected_count s (.call t) ((s.setCall t (.resume rest)).wake h)

theorem step_cases {expected_count : BitVec 64} {s t : State Cid Tid} {a : Act Cid Tid}
    (taken : step expected_count s a = some t) : Steps expected_count s a t := by
  cases a with
  | coAwait c =>
    simp only [step] at taken
    split at taken <;> cases taken
    simp only [awaitReady]
    split
    · exact .ready ‹_› ‹_›
    · exact .unready ‹_› (BitVec.not_le.mp ‹_›)
  | go c =>
    simp only [step] at taken
    cases hpc : s.pc c with
    | lock =>
      rw [hpc] at taken
      simp only [awaitSuspend] at taken
      split at taken <;> cases taken
      exact .lock hpc ‹_›
    | recheck =>
      rw [hpc] at taken
      cases taken
      split
      · exact .enough hpc ‹_›
      · exact .few hpc (BitVec.not_le.mp ‹_›)
    | pushBack => rw [hpc] at taken; cases taken; exact .push hpc
    | unlock => rw [hpc] at taken; cases taken; exact .unlock hpc
    | unlockEarly => rw [hpc] at taken; cases taken; exact .unlockEarly hpc
    | resume => rw [hpc] at taken; cases taken; exact .resumeSelf hpc
    | running | suspended => rw [hpc] at taken; cases taken
  | set u =>
    simp only [step] at taken
    split at taken <;> cases taken
    simp only [set]
    split
    · exact .reach ‹_› ‹_›
    · exact .count ‹_› ‹_›
  | call u =>
    simp only [step] at taken
    cases hcall : s.call u with
    | idle => rw [hcall] at taken; cases taken
    | lock =>
      rw [hcall] at taken
      simp only [callStep] at taken
      split at taken <;> cases taken
      exact .acquire hcall ‹_›
    | swap => rw [hcall] at taken; cases taken; exact .swap hcall
    | unlock to_resume => rw [hcall] at taken; cases taken; exact .release hcall
    | resume to_resume =>
      rw [hcall] at taken
      cases to_resume with
      | nil => cases taken; exact .finish hcall
      | cons h rest => cases taken; exact .wake hcall

theorem step_counted {expected_count : BitVec 64} {s t : State Cid Tid} {a : Act Cid Tid}
    (h : Counted expected_count s) (taken : step expected_count s a = some t) :
    Counted expected_count t := by
  have grown : s.current_count + 1 = BitVec.ofNat 64 (s.sets + 1) := by
    rw [h.count, BitVec.ofNat_add]
    rfl
  cases step_cases taken with
  | ready _ enough => exact .open h.count (h.enough enough)
  | enough _ enough => exact .open h.count (h.enough enough)
  | unlockEarly at_pc => exact .open h.count (h.early _ (.inl at_pc))
  | resumeSelf at_pc => exact .open h.count (h.early _ (.inr at_pc))
  | unready | lock | few | push | unlock =>
    refine Counted.goto ?_ _ ?_ ?_
    · exact ⟨h.count, h.early, h.reached, h.passed⟩
    · simp
    · simp
  | reach _ last =>
    refine .open grown ?_
    rw [← last, grown, BitVec.toNat_ofNat]
    exact Nat.mod_le _ _
  | @count t at_pc =>
    refine ⟨grown, fun c early => Nat.le_succ_of_le (h.early c early), fun u busy => ?_,
      fun c pos => Nat.le_succ_of_le (h.passed c pos)⟩
    simp only [State.setCall, Function.update_apply] at busy
    split at busy
    · exact absurd rfl busy
    · exact Nat.le_succ_of_le (h.reached u busy)
  | acquire at_pc | swap at_pc | release at_pc | finish at_pc | wake at_pc =>
    exact .open h.count (h.reached _ (by rw [at_pc]; simp))

theorem step_exclusive {expected_count : BitVec 64} {s t : State Cid Tid} {a : Act Cid Tid}
    (h : Exclusive s) (hstep : step expected_count s a = some t) : Exclusive t := by
  cases step_cases hstep with
  | ready => exact h
  | lock _ free => exact Mutex.Guards.acquire (free ▸ h) (inside_goto s _ _).2
  | unready at_pc | enough at_pc | few at_pc | push at_pc | resumeSelf at_pc =>
    exact Mutex.Guards.move h (inside_goto s _ _).2
      (by simp [State.inside, State.goto, State.wake, State.pass, at_pc, Pc.locked])
  | unlock at_pc | unlockEarly at_pc =>
    exact Mutex.Guards.release h (by simp [State.inside, at_pc, Pc.locked]) (inside_goto s _ _).2
      (inside_goto s _ _).1
  | acquire _ free => exact Mutex.Guards.acquire (free ▸ h) (inside_setCall s _ _).2
  | reach at_pc | count at_pc | swap at_pc | finish at_pc =>
    exact Mutex.Guards.move h (inside_setCall s _ _).2
      (by simp [State.inside, State.setCall, at_pc, Call.locked])
  | release at_pc =>
    exact Mutex.Guards.release h (by simp [State.inside, at_pc, Call.locked])
      (inside_setCall s _ _).2 (inside_setCall s _ _).1
  | @wake t _ rest =>
    have set : Mutex.Guards s.awaiters_mutex (s.setCall t (.resume rest)).inside :=
      Mutex.Guards.move h (inside_setCall s _ _).2
        (by simp [State.inside, State.setCall, Call.locked])
    exact Mutex.Guards.move set (inside_goto _ _ _).2
      (by simp [State.inside, State.wake, State.goto, Pc.locked])

theorem Handles.wake {s : State Cid Tid} (h : Handles s) {t : Tid} {c : Cid} {rest : List Cid}
    (at_pc : s.call t = .resume (c :: rest)) :
    Handles ((s.setCall t (.resume rest)).wake c) := by
  have mine : c ∈ (s.call t).taken := by rw [at_pc]; exact List.mem_cons_self
  obtain ⟨asleep, unlisted⟩ := h.taken t c mine
  obtain ⟨fresh, once⟩ : c ∉ rest ∧ rest.Nodup := by
    have all := h.takenOnce t
    rw [at_pc] at all
    exact List.nodup_cons.mp all
  have kept : ∀ u, ∀ d ∈ (Function.update s.call t (.resume rest) u).taken,
      d ≠ c ∧ d ∈ (s.call u).taken := by
    intro u d mem
    rw [Function.update_apply] at mem
    split at mem
    · subst u
      exact ⟨fun same => fresh (same ▸ mem), by rw [at_pc]; exact List.mem_cons_of_mem c mem⟩
    · exact ⟨fun same => ‹u ≠ t› (h.apart u t c (same ▸ mem) mine), mem⟩
  constructor
  case listed =>
    intro d mem
    have other : d ≠ c := fun same => unlisted (same ▸ mem)
    simp only [State.wake, State.goto, State.pass, State.setCall, Function.update_of_ne other]
    exact h.listed d mem
  case once => exact h.once
  case taken =>
    intro u d mem
    obtain ⟨other, before⟩ := kept u d mem
    simp only [State.wake, State.goto, State.pass, State.setCall, Function.update_of_ne other]
    exact h.taken u d before
  case takenOnce =>
    intro u
    simp only [State.wake, State.goto, State.pass, State.setCall, Function.update_apply]
    split
    · exact once
    · exact h.takenOnce u
  case apart => exact fun u v d first second => h.apart u v d (kept u d first).2 (kept v d second).2
  case balance =>
    intro d
    have before := h.balance d
    simp only [State.wake, State.goto, State.pass, State.setCall, Function.update_apply]
    by_cases same : d = c
    · subst d
      simpa [asleep] using before
    · simpa [same] using before

theorem step_handles {expected_count : BitVec 64} {s t : State Cid Tid} {a : Act Cid Tid}
    (alone : Exclusive s) (h : Handles s) (hstep : step expected_count s a = some t) : Handles t := by
  cases step_cases hstep with
  | swap at_pc => exact h.swap alone at_pc
  | wake at_pc => exact h.wake at_pc
  | ready => exact ⟨h.listed, h.once, h.taken, h.takenOnce, h.apart, h.balance⟩
  | unready at_pc =>
    refine h.move (by simp [at_pc]) rfl rfl rfl (fun mem => ?_) fun d => ?_
    · rcases h.listed _ mem with listed | listed <;> rw [at_pc] at listed <;> cases listed
    · have before := h.balance d
      simp only [State.goto, Function.update_apply]
      split <;> simp_all
  | lock at_pc | enough at_pc | few at_pc | unlockEarly at_pc =>
    refine h.move (by simp [at_pc]) rfl rfl rfl (fun mem => ?_) (h.still (by simp [at_pc]) (by simp))
    rcases h.listed _ mem with listed | listed <;> rw [at_pc] at listed <;> cases listed
  | push at_pc => exact h.push at_pc
  | unlock at_pc =>
    exact h.move (by simp [at_pc]) rfl rfl rfl (fun _ => .inr rfl) (h.still (by simp [at_pc]) (by simp))
  | resumeSelf at_pc =>
    refine h.move (by simp [at_pc]) rfl rfl rfl (fun mem => ?_) fun d => ?_
    · rcases h.listed _ mem with listed | listed <;> rw [at_pc] at listed <;> cases listed
    · have before := h.balance d
      simp only [State.wake, State.goto, State.pass, Function.update_apply]
      split <;> simp_all
  | reach at_pc | count at_pc | acquire at_pc | release at_pc | finish at_pc =>
    refine Handles.setCall ?_ _ (congrArg Call.taken at_pc).symm
    exact ⟨h.listed, h.once, h.taken, h.takenOnce, h.apart, h.balance⟩

theorem step_owed {expected_count : BitVec 64} {s t : State Cid Tid} {a : Act Cid Tid}
    (alone : Exclusive s) (h : Owed expected_count s) (hstep : step expected_count s a = some t) :
    Owed expected_count t := by
  cases step_cases hstep with
  | few at_pc few => exact fun _ => .inl few
  | push at_pc => exact fun _ => h (.inr ⟨_, at_pc⟩)
  | @reach t => exact fun _ => .inr ⟨t, by simp [State.setCall, Call.owes]⟩
  | @count t at_pc other =>
    intro waits
    rcases h waits with few | ⟨u, hu⟩
    · -- the count is below the expected one, so this fetch_add does not wrap
      left
      simp only [State.setCall]
      bv_omega
    · have different : u ≠ t := fun same => by rw [same, at_pc] at hu; cases hu
      exact .inr ⟨u, by simpa only [State.setCall, Function.update_of_ne different] using hu⟩
  | @swap t at_pc =>
    rintro (listed | ⟨c, pushing⟩)
    · exact absurd rfl listed
    · have outside := alone.swapping at_pc c
      rw [show s.pc c = .pushBack from pushing] at outside
      cases outside
  | ready => exact h
  | unready | lock | enough | unlock | unlockEarly | resumeSelf =>
    refine h.mono rfl rfl (fun d pushing => ?_) fun _ => id
    simp only [State.goto, State.wake, State.pass, Function.update_apply] at pushing
    split at pushing
    · cases pushing
    · exact pushing
  | acquire at_pc | release at_pc | finish at_pc =>
    refine h.mono rfl rfl (fun _ => id) fun u owes => ?_
    simp only [State.setCall, Function.update_apply]
    split
    · subst u
      simp_all [Call.owes]
    · exact owes
  | wake at_pc =>
    refine h.mono rfl rfl (fun d pushing => ?_) fun u owes => ?_
    · simp only [State.wake, State.goto, State.pass, State.setCall, Function.update_apply] at pushing
      split at pushing
      · cases pushing
      · exact pushing
    · simp only [State.wake, State.goto, State.pass, State.setCall, Function.update_apply]
      split
      · subst u
        rw [at_pc] at owes
        cases owes
      · exact owes

/-- Everything the mutex and the count keep true of a barrier. -/
structure Inv (expected_count : BitVec 64) (s : State Cid Tid) : Prop where
  counted : Counted expected_count s
  exclusive : Exclusive s
  handles : Handles s
  owed : Owed expected_count s

theorem reached_inv {expected_count : BitVec 64} {s : State Cid Tid}
    (reached : Reached (system expected_count Cid Tid) s) : Inv expected_count s := by
  refine Reached.invariant ?_ ?_ reached
  · rintro _ rfl
    constructor
    case counted => constructor <;> simp [initial]
    case exclusive => rintro (c | t) entered <;> cases entered
    case handles => constructor <;> simp [initial, Call.taken]
    case owed => simp [Owed, initial]
  · intro s a t h hstep
    exact ⟨step_counted h.counted hstep, step_exclusive h.exclusive hstep,
      step_handles h.exclusive h.handles hstep, step_owed h.exclusive h.owed hstep⟩

def Pc.awaiting : Pc → Bool
  | .running | .suspended => false
  | _ => true

/-- No set() and no await_suspend is under way. -/
def Quiet (s : State Cid Tid) : Prop :=
  (∀ c, (s.pc c).awaiting = false) ∧ ∀ t, s.call t = .idle

/-- Nobody passes an early barrier, nobody is resumed twice, and nobody is left behind. A count
below the expected one after that many set() calls can only be one that wrapped. -/
theorem opens_once (Cid Tid : Type) [DecidableEq Cid] [DecidableEq Tid] (expected_count : BitVec 64)
    (s : State Cid Tid) (reached : Reached (system expected_count Cid Tid) s) :
    (s.current_count = BitVec.ofNat 64 s.sets ∧
      ∀ c, 0 < s.passed c → expected_count.toNat ≤ s.sets ∧
        (s.sets < 2 ^ 64 → s.current_count ≥ expected_count)) ∧
    (∀ c, s.resumptions c ≤ s.suspensions c ∧ s.suspensions c ≤ s.resumptions c + 1) ∧
    (s.current_count ≥ expected_count → Quiet s → s.awaiters = []) := by
  have h := reached_inv reached
  refine ⟨⟨h.counted.count, fun c pos => ⟨h.counted.passed c pos, fun small => ?_⟩⟩, fun c => ?_,
    fun enough quiet => ?_⟩
  · have low := h.counted.passed c pos
    rw [h.counted.count]
    show expected_count.toNat ≤ (BitVec.ofNat 64 s.sets).toNat
    rwa [BitVec.toNat_ofNat, Nat.mod_eq_of_lt small]
  · have balance := h.handles.balance c
    split at balance <;> omega
  · by_contra listed
    rcases h.owed (.inl listed) with few | ⟨t, owes⟩
    · exact absurd enough (BitVec.not_le.mpr few)
    · rw [quiet.2 t] at owes
      cases owes

def opening : List (Act Unit Unit) :=
  [.coAwait (), .go (), .go (), .go (), .go (), .set (), .call (), .call (), .call (), .call (),
    .call ()]

def opened : State Unit Unit := (replay (system 1 Unit Unit) initial opening).get rfl

theorem opens_once_opened :
    opened.current_count = 1 ∧ opened.passed () = 1 ∧ opened.suspensions () = 1 ∧
      (∀ c, opened.resumptions c ≤ opened.suspensions c ∧
        opened.suspensions c ≤ opened.resumptions c + 1) ∧ opened.awaiters = [] := by
  have reached : Reached (system 1 Unit Unit) opened :=
    Reached.replay (.start rfl) opening (Option.some_get _).symm
  obtain ⟨_, once, nobody⟩ := opens_once Unit Unit 1 opened reached
  refine ⟨rfl, rfl, rfl, once, nobody ?_ ⟨fun _ => rfl, fun _ => rfl⟩⟩
  decide

end Pot.AsyncBarrier
