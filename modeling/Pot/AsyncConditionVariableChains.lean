import Pot.AsyncConditionVariableWaiters
import Pot.LinkedLists

/-! The awaiters of the variable are in disjoint linked lists: the one at m_awaiter_head and, for
each set() under way, the one it has taken and not yet resumed. -/
namespace Pot.AsyncConditionVariable
open Transition LinkedLists

variable {Cid Tid : Type}

def Call.head : Call Cid → Option Cid
  | .loop head => head
  | _ => none

/-- Where the list of the variable, or of a set(), begins. -/
def State.first (s : State Cid Tid) : Option Tid → Option Cid
  | none => s.m_awaiter_head
  | some t => (s.call t).head

/-- The lists, by owner. -/
structure Chains (s : State Cid Tid) (chain : Option Tid → List Cid) : Prop where
  spells : ∀ o, Spells s.next (s.first o) (chain o)
  once : ∀ o, (chain o).Nodup
  waits : ∀ o, ∀ c ∈ chain o, s.pc c = .suspended
  apart : ∀ o p c, c ∈ chain o → c ∈ chain p → o = p

theorem Chains.empty {s : State Cid Tid} {chain : Option Tid → List Cid} (h : Chains s chain)
    {o : Option Tid} (nobody : s.first o = none) : chain o = [] :=
  spells_none.mp (nobody ▸ h.spells o)

theorem Chains.outside {s : State Cid Tid} {chain : Option Tid → List Cid} (h : Chains s chain)
    {c : Cid} (elsewhere : s.pc c ≠ .suspended) (o : Option Tid) : c ∉ chain o :=
  fun mem => elsewhere (h.waits o c mem)

theorem chains_initial (set : Bool) : Chains (initial set : State Cid Tid) fun _ => [] where
  spells o := by cases o <;> rfl
  once _ := List.nodup_nil
  waits _ _ mem := absurd mem List.not_mem_nil
  apart _ _ _ mem := absurd mem List.not_mem_nil

theorem Chains.congr {s u : State Cid Tid} {chain : Option Tid → List Cid} (h : Chains s chain)
    (first : ∀ o, u.first o = s.first o) (next : u.next = s.next) (pc : u.pc = s.pc) :
    Chains u chain :=
  ⟨fun o => by rw [first, next]; exact h.spells o, h.once, by rw [pc]; exact h.waits, h.apart⟩

theorem Chains.goto [DecidableEq Cid] {s u : State Cid Tid} {chain : Option Tid → List Cid} (h : Chains s chain)
    {c : Cid} {p : Pc Cid} (elsewhere : s.pc c ≠ .suspended)
    (head : u.m_awaiter_head = s.m_awaiter_head) (call : u.call = s.call)
    (next : u.next = s.next ∨ ∃ link, u.next = Function.update s.next c link)
    (pc : u.pc = Function.update s.pc c p) : Chains u chain := by
  have first : ∀ o, u.first o = s.first o := fun o => by cases o <;> simp [State.first, head, call]
  have outside := h.outside elsewhere
  refine ⟨fun o => ?_, h.once, fun o d mem => ?_, h.apart⟩
  · rw [first]
    rcases next with same | ⟨link, written⟩
    · exact same ▸ h.spells o
    · exact written ▸ (h.spells o).update (outside o) link
  · have different : d ≠ c := fun same => outside o (same ▸ mem)
    rw [pc, Function.update_of_ne different]
    exact h.waits o d mem

variable [DecidableEq Tid]

theorem Chains.setCall {s u : State Cid Tid} {chain : Option Tid → List Cid} (h : Chains s chain)
    {t : Tid} {p : Call Cid} (same : p.head = (s.call t).head)
    (head : u.m_awaiter_head = s.m_awaiter_head) (next : u.next = s.next) (pc : u.pc = s.pc)
    (call : u.call = Function.update s.call t p) : Chains u chain := by
  refine h.congr (fun o => ?_) next pc
  cases o with
  | none => exact head
  | some k =>
    simp only [State.first, call, Function.update_apply]
    split
    · rename_i here
      rw [same, here]
    · rfl

theorem Chains.exchange {s : State Cid Tid} {chain : Option Tid → List Cid} (h : Chains s chain)
    {t : Tid} : Chains ({ s with m_awaiter_head := none }.setCall t (.loop s.m_awaiter_head))
      (Function.update (Function.update chain (some t) (chain none)) none []) := by
  have source : ∀ o d, d ∈ Function.update (Function.update chain (some t) (chain none)) none [] o →
      o = some t ∧ d ∈ chain none ∨ o ≠ some t ∧ o ≠ none ∧ d ∈ chain o := by
    intro o d mem
    rw [Function.update_apply, Function.update_apply] at mem
    split at mem
    · exact absurd mem List.not_mem_nil
    · split at mem
      · exact .inl ⟨‹_›, mem⟩
      · exact .inr ⟨‹_›, ‹_›, mem⟩
  refine ⟨fun o => ?_, fun o => ?_, fun o d mem => ?_, fun o p d left right => ?_⟩
  · cases o with
    | none => rw [Function.update_self]; rfl
    | some k =>
      rw [Function.update_of_ne (by simp)]
      simp only [State.first, State.setCall]
      by_cases here : k = t
      · subst here
        rw [Function.update_self, Function.update_self]
        exact h.spells none
      · rw [Function.update_of_ne here, Function.update_of_ne (by simpa using here)]
        exact h.spells (some k)
  · rw [Function.update_apply, Function.update_apply]
    split
    · exact List.nodup_nil
    · split
      · exact h.once none
      · exact h.once o
  · rcases source o d mem with ⟨-, old⟩ | ⟨-, -, old⟩
    · exact h.waits none d old
    · exact h.waits o d old
  · rcases source o d left with ⟨rfl, old⟩ | ⟨elsewhere, listed, old⟩
    · rcases source p d right with ⟨rfl, -⟩ | ⟨-, other, here⟩
      · rfl
      · exact absurd (h.apart none p d old here).symm other
    · rcases source p d right with ⟨rfl, here⟩ | ⟨-, -, here⟩
      · exact absurd (h.apart o none d old here) listed
      · exact h.apart o p d old here

/-- A list that is shortened at its beginning; what it loses may stop waiting. -/
theorem Chains.shorten {s u : State Cid Tid} {chain : Option Tid → List Cid} (h : Chains s chain)
    (o : Option Tid) {l rest : List Cid} (split : chain o = l ++ rest)
    (spells : Spells s.next (u.first o) rest) (others : ∀ p, p ≠ o → u.first p = s.first p)
    (next : u.next = s.next) (pc : ∀ c, c ∉ l → u.pc c = s.pc c) :
    Chains u (Function.update chain o rest) := by
  have parts := h.once o
  rw [split, List.nodup_append'] at parts
  have source : ∀ p d, d ∈ Function.update chain o rest p → d ∈ chain p ∧ d ∉ l := by
    intro p d mem
    rw [Function.update_apply] at mem
    split at mem
    · rename_i here
      rw [here, split]
      exact ⟨List.mem_append_right l mem, fun lost => parts.2.2 lost mem⟩
    · rename_i other
      refine ⟨mem, fun lost => other ?_⟩
      exact h.apart p o d mem (split ▸ List.mem_append_left rest lost)
  refine ⟨fun p => ?_, fun p => ?_, fun p d mem => ?_, fun p q d left right => ?_⟩
  · rw [next, Function.update_apply]
    split
    · rename_i here
      exact here ▸ spells
    · rw [others p ‹_›]
      exact h.spells p
  · rw [Function.update_apply]
    split
    · exact parts.2.1
    · exact h.once p
  · obtain ⟨old, kept⟩ := source p d mem
    rw [pc d kept]
    exact h.waits p d old
  · exact h.apart p q d (source p d left).1 (source q d right).1

theorem Chains.drop {s : State Cid Tid} {chain : Option Tid → List Cid} (h : Chains s chain)
    {t : Tid} (at_drop : s.call t = .drop) :
    Chains ({ s with m_awaiter_head := none }.setCall t .idle) (Function.update chain none []) := by
  refine h.shorten none (List.append_nil _).symm rfl (fun p other => ?_) rfl (fun c _ => rfl)
  cases p with
  | none => exact absurd rfl other
  | some k =>
    by_cases here : k = t
    · subst here
      simp [State.first, State.setCall, at_drop, Call.head]
    · simp [State.first, State.setCall, here]

variable [DecidableEq Cid]

theorem Chains.link {s : State Cid Tid} {chain : Option Tid → List Cid} (h : Chains s chain)
    {c : Cid} (elsewhere : s.pc c ≠ .suspended) :
    Chains ({ s with next := Function.update s.next c s.m_awaiter_head,
                     m_awaiter_head := some c }.goto c .suspended)
      (Function.update chain none (c :: chain none)) := by
  have outside := h.outside elsewhere
  have member : ∀ o d, d ∈ Function.update chain none (c :: chain none) o →
      d = c ∧ o = none ∨ d ≠ c ∧ d ∈ chain o := by
    intro o d mem
    rw [Function.update_apply] at mem
    split at mem
    · rename_i here
      rcases List.mem_cons.mp mem with same | old
      · exact .inl ⟨same, here⟩
      · exact .inr ⟨fun same => outside none (same ▸ old), here ▸ old⟩
    · exact .inr ⟨fun same => outside o (same ▸ mem), mem⟩
  refine ⟨fun o => ?_, fun o => ?_, fun o d mem => ?_, fun o p d left right => ?_⟩
  · cases o with
    | none => rw [Function.update_self]; exact (h.spells none).link (outside none)
    | some t =>
      rw [Function.update_of_ne (by simp)]
      exact (h.spells (some t)).update (outside (some t)) s.m_awaiter_head
  · rw [Function.update_apply]
    split
    · exact List.nodup_cons.mpr ⟨outside none, h.once none⟩
    · exact h.once o
  · simp only [State.goto]
    rcases member o d mem with ⟨rfl, -⟩ | ⟨different, old⟩
    · exact Function.update_self ..
    · rw [Function.update_of_ne different]
      exact h.waits o d old
  · rcases member o d left with ⟨here, rfl⟩ | ⟨different, old⟩
    · exact ((member p d right).resolve_right fun other => other.1 here).2.symm
    · have other := (member p d right).resolve_left fun here => different here.1
      exact h.apart o p d old other.2

theorem Chains.wake {s : State Cid Tid} {chain : Option Tid → List Cid} (h : Chains s chain)
    {t : Tid} {c : Cid} (at_loop : s.call t = .loop (some c)) :
    ∃ rest, chain (some t) = c :: rest ∧
      Chains ((s.setCall t (.loop (s.next c))).goto c .awaitResume)
        (Function.update chain (some t) rest) := by
  have first : s.first (some t) = some c := by rw [State.first, at_loop, Call.head]
  obtain ⟨rest, split, spells⟩ := spells_some.mp (first ▸ h.spells (some t))
  refine ⟨rest, split, h.shorten (some t) (l := [c]) split ?_ ?_ rfl ?_⟩
  · simpa [State.first, State.goto, State.setCall, Call.head] using spells
  · intro p other
    cases p with
    | none => rfl
    | some k =>
      have different : k ≠ t := fun same => other (congrArg some same)
      simp [State.first, State.goto, State.setCall, different]
  · intro d kept
    have different : d ≠ c := fun same => kept (List.mem_singleton.mpr same)
    simp [State.goto, State.setCall, different]

theorem step_chains {s u : State Cid Tid} {chain : Option Tid → List Cid} {a : Act Cid Tid}
    (h : Chains s chain) (taken : step s a = some u) : ∃ chain', Chains u chain' := by
  cases step_cases taken with
  | ready at_pc | unready at_pc | load at_pc | resume at_pc =>
    exact ⟨chain, h.goto (by simp [at_pc]) rfl rfl (.inl rfl) rfl⟩
  | again at_pc => exact ⟨chain, h.goto (by simp [at_pc]) rfl rfl (.inr ⟨_, rfl⟩) rfl⟩
  | link at_pc => exact ⟨_, h.link (by simp [at_pc])⟩
  | set at_pc | stop at_pc | finish at_pc =>
    exact ⟨chain, h.setCall (by rw [at_pc]; rfl) rfl rfl rfl rfl⟩
  | exchange => exact ⟨_, h.exchange⟩
  | wake at_loop =>
    obtain ⟨rest, -, after⟩ := h.wake at_loop
    exact ⟨_, after⟩
  | drop at_pc => exact ⟨_, h.drop at_pc⟩
  | reset => exact ⟨chain, h.congr (fun o => by cases o <;> rfl) rfl rfl⟩

theorem reached_chains {s : State Cid Tid} (reached : Reached (system Cid Tid) s) :
    ∃ chain, Chains s chain := by
  refine reached.invariant (I := fun s => ∃ chain, Chains s chain) ?_ ?_
  · rintro s ⟨set, rfl⟩
    exact ⟨_, chains_initial set⟩
  · rintro s a u ⟨chain, h⟩ taken
    exact step_chains h taken

end Pot.AsyncConditionVariable
