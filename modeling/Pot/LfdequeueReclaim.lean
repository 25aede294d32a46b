import Mathlib.Data.Fintype.Basic
import Pot.LfdequeueReturns

/-! Reclamation of the buffers of lfdequeue. A stealer's token says that it is not idle from before
its first load of active_buffer to after its compare-exchange, and reclaim_buffers then keeps what
the token last used; the second load, whose id the token is to say, comes after that. -/
namespace Pot.Lfdequeue
open Transition

variable {Kid T : Type}

/-- The buffers that the next access of the owner dereferences. -/
def Owner.dereferences (s : State Kid T) : Owner Kid T → List Nat
  | .pushBuffer _ _ _ => [s.active_buffer]
  | .put _ _ a | .popLast _ a _ | .popGet _ a _ | .reclaim _ a => [a]
  | .copy _ a buffer _ _ => [a, buffer]
  | .free _ _ _ => s.unlinked.toList
  | _ => []

def Stealer.dereferences : Stealer Kid T → List Nat
  | .get _ a | .readId _ a => [a]
  | _ => []

/-- No access that may come next is to a buffer that has been freed. -/
structure SafeAccesses (s : State Kid T) : Prop where
  owner : ∀ a ∈ s.owner.dereferences s, (s.buffer a).freed = false
  stealer : ∀ k, ∀ a ∈ (s.stealer k).dereferences, (s.buffer a).freed = false

def Owner.frees (s : State Kid T) : Owner Kid T → Option Nat
  | .free _ _ min_id => s.unlinked.filter fun reclaimed => reclaimed < min_id
  | _ => none

/-- reclaim_buffers does not delete a buffer whose id some stealer is about to read for its
token. -/
def FreesUnread (s : State Kid T) : Act Kid T → Prop
  | .owner _ => ∀ reclaimed, s.owner.frees s = some reclaimed →
      ∀ k stolen, s.stealer k ≠ .readId stolen reclaimed
  | _ => True

/-- From unlinked to the active buffer each buffer is linked to the next, and what has been freed
lies before. -/
structure Linked (s : State Kid T) : Prop where
  freed : ∀ a, (s.buffer a).freed = true →
    a < s.active_buffer ∧ ∃ first, s.unlinked = some first ∧ a < first
  chain : ∀ first, s.unlinked = some first → first ≤ s.active_buffer ∧
    ∀ c, first ≤ c → c < s.active_buffer → (s.buffer c).next = some (c + 1)

/-- The buffers that the owner knows. -/
def OwnerHolds (s : State Kid T) : Owner Kid T → Prop
  | .put _ _ a | .popBottom _ a | .popTop _ a | .popCas _ a _ | .popLast _ a _ | .popGet _ a _
  | .reclaim _ a => a = s.active_buffer
  | .copy _ a buffer _ _ => a = s.active_buffer ∧ buffer = s.active_buffer + 1
  | .storeActive _ a =>
    a = s.active_buffer + 1 ∧ (s.buffer s.active_buffer).next = some (s.active_buffer + 1)
  | .scanIdle _ a min_id _ | .scanLast _ a min_id _ _ | .free _ a min_id =>
    a = s.active_buffer ∧ min_id ≤ s.active_buffer
  | _ => True

/-- The scan has not set its limit beyond the buffer, or is still to come to the token. -/
def Spared (k : Kid) (a : Nat) : Owner Kid T → Prop
  | .scanIdle _ _ min_id head => min_id ≤ a ∨ k ∈ head
  | .scanLast _ _ min_id head next => min_id ≤ a ∨ k = head ∨ k ∈ next
  | .free _ _ min_id => min_id ≤ a
  | _ => True

/-- What a stealer's token says while it holds a buffer. -/
def StealerHolds (s : State Kid T) (k : Kid) : Stealer Kid T → Prop
  | .unregistered => True
  | .registering _ => (s.token k).id_last_used ≤ s.active_buffer
  | .idle => k ∈ s.id_list ∧ (s.token k).id_last_used ≤ s.active_buffer
  | .loadTop | .loadBottom _ | .loadActive _ =>
    k ∈ s.id_list ∧ (s.token k).was_idle = false ∧ (s.token k).id_last_used ≤ s.active_buffer
  | .cas _ a | .get _ a =>
    k ∈ s.id_list ∧ (s.token k).was_idle = false ∧ (s.token k).id_last_used ≤ a ∧
      a ≤ s.active_buffer ∧ (s.buffer a).freed = false ∧ Spared k a s.owner
  | .setIdle _ | .reloadActive _ => k ∈ s.id_list
  | .readId _ a => k ∈ s.id_list ∧ a ≤ s.active_buffer ∧ (s.buffer a).freed = false
  | .storeId _ id => k ∈ s.id_list ∧ id ≤ s.active_buffer

structure Guarded (s : State Kid T) : Prop where
  linked : Linked s
  owner : OwnerHolds s s.owner
  stealers : ∀ k, StealerHolds s k (s.stealer k)

theorem frees_eq_some {s : State Kid T} {reclaimed : Nat} (frees : s.owner.frees s = some reclaimed) :
    ∃ rest new_buffer min_id, s.owner = .free rest new_buffer min_id ∧
      s.unlinked = some reclaimed ∧ reclaimed < min_id := by
  cases ho : s.owner with
  | free rest new_buffer min_id =>
    rw [ho, Owner.frees, Option.filter_eq_some_iff] at frees
    exact ⟨rest, new_buffer, min_id, rfl, frees.1, of_decide_eq_true frees.2⟩
  | _ => rw [ho] at frees; cases frees

theorem Linked.active {s : State Kid T} (h : Linked s) {a : Nat} (later : s.active_buffer ≤ a) :
    (s.buffer a).freed = false := by
  by_contra freed
  have old := (h.freed a (Bool.not_eq_false _ ▸ freed)).1
  omega

theorem Linked.congr {s u : State Kid T} (h : Linked s)
    (same : u.active_buffer = s.active_buffer ∧ u.unlinked = s.unlinked)
    (freed : ∀ a, (u.buffer a).freed = true → (s.buffer a).freed = true)
    (next : ∀ a, a < s.active_buffer → (u.buffer a).next = (s.buffer a).next) : Linked u := by
  obtain ⟨active, unlinked⟩ := same
  refine ⟨fun a gone => ?_, fun first at_first => ?_⟩
  · rw [active, unlinked]
    exact h.freed a (freed a gone)
  · rw [active]
    rw [unlinked] at at_first
    obtain ⟨old, chain⟩ := h.chain first at_first
    exact ⟨old, fun c later before => (next c before).trans (chain c later before)⟩

/-- unlinked = unlinked ? unlinked : a -/
theorem Linked.relink {s : State Kid T} (h : Linked s) :
    Linked { s with unlinked := some (s.unlinked.getD s.active_buffer) } := by
  cases hu : s.unlinked with
  | some first =>
    exact h.congr ⟨rfl, hu.symm⟩ (fun _ => id) fun _ _ => rfl
  | none =>
    refine ⟨fun a gone => ?_, fun first at_first => ?_⟩
    · obtain ⟨_, first, at_first, _⟩ := h.freed a gone
      cases hu.symm.trans at_first
    · cases at_first
      exact ⟨Nat.le_refl _, fun c later before => absurd before (Nat.not_lt.mpr later)⟩

/-- Only the step of an owner that scans can take a buffer away from a stealer. -/
theorem StealerHolds.owner {s u : State Kid T} {k : Kid} {p : Stealer Kid T}
    (h : StealerHolds s k p) (same : u.id_list = s.id_list ∧ u.token = s.token)
    (active : s.active_buffer ≤ u.active_buffer)
    (kept : ∀ a, (u.buffer a).freed = true → (s.buffer a).freed = false →
      (∀ stolen, p ≠ .readId stolen a) ∧ ¬ Spared k a s.owner)
    (spared : ∀ a, k ∈ s.id_list → (s.token k).was_idle = false →
      (s.token k).id_last_used ≤ a → Spared k a s.owner → Spared k a u.owner) :
    StealerHolds u k p := by
  obtain ⟨id_list, token⟩ := same
  cases p with
  | unregistered => trivial
  | registering =>
    rw [StealerHolds, token]
    exact Nat.le_trans h active
  | idle =>
    rw [StealerHolds, id_list, token]
    exact ⟨h.1, Nat.le_trans h.2 active⟩
  | loadTop | loadBottom | loadActive =>
    rw [StealerHolds, id_list, token]
    exact ⟨h.1, h.2.1, Nat.le_trans h.2.2 active⟩
  | cas t a | get t a =>
    obtain ⟨listed, busy, used, old, live, safe⟩ := h
    rw [StealerHolds, id_list, token]
    refine ⟨listed, busy, used, Nat.le_trans old active, ?_, spared a listed busy used safe⟩
    by_contra gone
    exact (kept a (Bool.not_eq_false _ ▸ gone) live).2 safe
  | setIdle | reloadActive =>
    rw [StealerHolds, id_list]
    exact h
  | readId stolen a =>
    obtain ⟨listed, old, live⟩ := h
    rw [StealerHolds, id_list]
    refine ⟨listed, Nat.le_trans old active, ?_⟩
    by_contra gone
    exact (kept a (Bool.not_eq_false _ ▸ gone) live).1 stolen rfl
  | storeId stolen id =>
    rw [StealerHolds, id_list]
    exact ⟨h.1, Nat.le_trans h.2 active⟩

theorem Guarded.move {s u : State Kid T} (h : Guarded s)
    (same : u.id_list = s.id_list ∧ u.token = s.token ∧ u.stealer = s.stealer) (linked : Linked u)
    (owner : OwnerHolds u u.owner) (active : s.active_buffer ≤ u.active_buffer)
    (freed : ∀ a, (u.buffer a).freed = true → (s.buffer a).freed = true)
    (spared : ∀ k a, k ∈ s.id_list → (s.token k).was_idle = false →
      (s.token k).id_last_used ≤ a → Spared k a s.owner → Spared k a u.owner) : Guarded u := by
  obtain ⟨id_list, token, stealer⟩ := same
  refine ⟨linked, owner, fun k => ?_⟩
  rw [stealer]
  refine (h.stealers k).owner ⟨id_list, token⟩ active (fun a gone live => ?_) (spared k)
  cases (freed a gone).symm.trans live

theorem Guarded.goto {s u : State Kid T} (h : Guarded s)
    (same : u.id_list = s.id_list ∧ u.token = s.token ∧ u.stealer = s.stealer ∧
      u.buffer = s.buffer ∧ u.active_buffer = s.active_buffer ∧ u.unlinked = s.unlinked)
    (owner : OwnerHolds u u.owner)
    (spared : ∀ k a, k ∈ s.id_list → (s.token k).was_idle = false →
      (s.token k).id_last_used ≤ a → Spared k a s.owner → Spared k a u.owner) : Guarded u := by
  obtain ⟨id_list, token, stealer, buffer, active, unlinked⟩ := same
  refine h.move ⟨id_list, token, stealer⟩ (h.linked.congr ⟨active, unlinked⟩ ?_ ?_) owner
    (Nat.le_of_eq active.symm) ?_ spared
  · exact fun a => by rw [buffer]; exact id
  · exact fun a _ => by rw [buffer]
  · exact fun a => by rw [buffer]; exact id

theorem Guarded.proceed {s : State Kid T} {rest : Rest T} {a : Nat} (h : Guarded s)
    (active : a = s.active_buffer) : Guarded (s.proceed a rest) := by
  cases rest with
  | put => exact h.goto ⟨rfl, rfl, rfl, rfl, rfl, rfl⟩ active fun _ _ _ _ _ _ => trivial
  | ret => exact h.goto ⟨rfl, rfl, rfl, rfl, rfl, rfl⟩ trivial fun _ _ _ _ _ _ => trivial

theorem Guarded.reclaims {s : State Kid T} {rest : Rest T} {a : Nat} (h : Guarded s)
    (active : a = s.active_buffer) : Guarded (s.reclaims rest a) := by
  simp only [State.reclaims]
  split
  · exact h.goto ⟨rfl, rfl, rfl, rfl, rfl, rfl⟩ active fun _ _ _ _ _ _ => trivial
  · exact h.proceed active

theorem Guarded.resize [Inhabited T] {s : State Kid T} {rest : Rest T} {a : Nat} {b t : Int}
    {log_size : Nat} (h : Guarded s) (active : a = s.active_buffer) :
    Guarded (s.resize rest a b t log_size) := by
  subst active
  have freed : ∀ c, ((s.setBuffer (s.active_buffer + 1) (newBuffer log_size)).buffer c).freed = true →
      (s.buffer c).freed = true := fun c gone => by
    rcases freed_setBuffer gone with ⟨-, none⟩ | before
    · cases none
    · exact before
  have linked : Linked (s.resize rest s.active_buffer b t log_size) := by
    refine h.linked.relink.congr ⟨rfl, rfl⟩ freed fun c before => ?_
    have before : c < s.active_buffer := before
    exact congrArg RingBuffer.next (setBuffer_of_ne s (newBuffer log_size) (by omega))
  exact h.move ⟨rfl, rfl, rfl⟩ linked ⟨rfl, rfl⟩ (Nat.le_refl _) freed fun _ _ _ _ _ _ => trivial

theorem Guarded.write {s u : State Kid T} {a : Nat} {r : RingBuffer T} (h : Guarded s)
    (same : u.id_list = s.id_list ∧ u.token = s.token ∧ u.stealer = s.stealer ∧
      u.buffer = (s.setBuffer a r).buffer ∧ u.active_buffer = s.active_buffer ∧
      u.unlinked = s.unlinked)
    (freed : r.freed = (s.buffer a).freed)
    (next : a < s.active_buffer → r.next = (s.buffer a).next) (owner : OwnerHolds u u.owner)
    (spared : ∀ k a, Spared k a u.owner) : Guarded u := by
  obtain ⟨id_list, token, stealer, buffer, active, unlinked⟩ := same
  have kept : ∀ c, (u.buffer c).freed = true → (s.buffer c).freed = true := fun c gone => by
    rw [buffer] at gone
    rcases freed_setBuffer gone with ⟨rfl, mine⟩ | before
    · exact freed ▸ mine
    · exact before
  refine h.move ⟨id_list, token, stealer⟩ (h.linked.congr ⟨active, unlinked⟩ kept fun c before => ?_)
    owner (Nat.le_of_eq active.symm) kept fun k a _ _ _ _ => spared k a
  rw [buffer]
  by_cases mine : c = a
  · subst mine
    rw [setBuffer_self]
    exact next before
  · rw [setBuffer_of_ne s r mine]

theorem storeActive_guarded {s : State Kid T} {rest : Rest T} {a : Nat} (h : Guarded s)
    (at_store : s.owner = .storeActive rest a) :
    Guarded ({ s with active_buffer := a }.reclaims rest a) := by
  have own := h.owner
  rw [at_store] at own
  obtain ⟨rfl, link⟩ := own
  have linked : Linked { s with active_buffer := s.active_buffer + 1, owner := Owner.idle } := by
    refine ⟨fun c gone => ?_, fun first at_first => ?_⟩
    · obtain ⟨old, rest⟩ := h.linked.freed c gone
      exact ⟨Nat.lt_succ_of_lt old, rest⟩
    · obtain ⟨old, chain⟩ := h.linked.chain first at_first
      refine ⟨Nat.le_succ_of_le old, fun c later before => ?_⟩
      rcases Nat.lt_or_eq_of_le (Nat.le_of_lt_succ before) with inside | rfl
      · exact chain c later inside
      · exact link
  have stored : Guarded { s with active_buffer := s.active_buffer + 1, owner := Owner.idle } :=
    h.move ⟨rfl, rfl, rfl⟩ linked trivial (Nat.le_succ _) (fun _ => id) fun _ _ _ _ _ _ => trivial
  exact stored.reclaims rfl

/-- What is freed lies before the limit of the scan. -/
theorem free_guarded {s : State Kid T} {rest : Rest T} {a min_id reclaimed : Nat} (h : Guarded s)
    (at_free : s.owner = .free rest a min_id) (first : s.unlinked = some reclaimed)
    (old : reclaimed < min_id) (unread : ∀ k stolen, s.stealer k ≠ .readId stolen reclaimed) :
    Guarded { s.setBuffer reclaimed { s.buffer reclaimed with freed := true } with
              unlinked := (s.buffer reclaimed).next } := by
  have own := h.owner
  rw [at_free] at own
  obtain ⟨rfl, bound⟩ := own
  have before : reclaimed < s.active_buffer := Nat.lt_of_lt_of_le old bound
  have link := (h.linked.chain reclaimed first).2 reclaimed (Nat.le_refl _) before
  let r := { s.buffer reclaimed with freed := true }
  have links : ∀ c, ((s.setBuffer reclaimed r).buffer c).next = (s.buffer c).next := fun c => by
    by_cases same : c = reclaimed
    · rw [same, setBuffer_self]
    · rw [setBuffer_of_ne s r same]
  refine ⟨⟨fun c gone => ?_, fun next at_next => ?_⟩, ?_, fun k => ?_⟩
  · rw [link]
    rcases freed_setBuffer gone with ⟨rfl, -⟩ | past
    · exact ⟨before, _, rfl, Nat.lt_succ_self _⟩
    · obtain ⟨past, head, at_head, far⟩ := h.linked.freed c past
      cases first.symm.trans at_head
      exact ⟨past, _, rfl, Nat.lt_succ_of_lt far⟩
  · rw [link] at at_next
    cases at_next
    refine ⟨before, fun c later inside => (links c).trans ?_⟩
    exact (h.linked.chain reclaimed first).2 c (by omega) inside
  · change OwnerHolds _ s.owner
    rw [at_free]
    exact ⟨rfl, bound⟩
  · refine (h.stealers k).owner ⟨rfl, rfl⟩ (Nat.le_refl _) (fun c gone live => ?_)
      fun _ _ _ _ => id
    rcases freed_setBuffer gone with ⟨rfl, -⟩ | past
    · refine ⟨fun stolen => unread k stolen, fun safe => ?_⟩
      rw [at_free] at safe
      exact absurd old (Nat.not_lt.mpr safe)
    · cases past.symm.trans live

theorem owner_guarded [Inhabited T] {s u : State Kid T} {junk : Junk T} (h : Guarded s)
    (ok : FreesUnread s (.owner junk)) (taken : ownerStep s junk s.owner = some u) : Guarded u := by
  have own := h.owner
  cases ho : s.owner with
  | idle => rw [ho] at taken; cases taken
  | pushTop =>
    rw [ho] at taken
    cases taken
    exact h.goto ⟨rfl, rfl, rfl, rfl, rfl, rfl⟩ trivial fun _ _ _ _ _ _ => trivial
  | pushBuffer =>
    rw [ho] at taken
    cases taken
    split
    · exact h.resize rfl
    · exact h.reclaims rfl
  | put item b a =>
    rw [ho] at taken
    cases taken
    exact h.write ⟨rfl, rfl, rfl, rfl, rfl, rfl⟩ rfl (fun _ => rfl) trivial fun _ _ => trivial
  | pushBottom | popRestore =>
    rw [ho] at taken
    cases taken
    exact h.goto ⟨rfl, rfl, rfl, rfl, rfl, rfl⟩ trivial fun _ _ _ _ _ _ => trivial
  | popBuffer =>
    rw [ho] at taken
    cases taken
    exact h.goto ⟨rfl, rfl, rfl, rfl, rfl, rfl⟩ rfl fun _ _ _ _ _ _ => trivial
  | popBottom =>
    rw [ho] at taken own
    cases taken
    exact h.goto ⟨rfl, rfl, rfl, rfl, rfl, rfl⟩ own fun _ _ _ _ _ _ => trivial
  | popTop =>
    rw [ho] at taken own
    cases taken
    split
    · exact h.goto ⟨rfl, rfl, rfl, rfl, rfl, rfl⟩ trivial fun _ _ _ _ _ _ => trivial
    · split
      · exact h.goto ⟨rfl, rfl, rfl, rfl, rfl, rfl⟩ own fun _ _ _ _ _ _ => trivial
      · exact h.goto ⟨rfl, rfl, rfl, rfl, rfl, rfl⟩ own fun _ _ _ _ _ _ => trivial
  | popCas =>
    rw [ho] at taken own
    cases taken
    split
    · exact h.goto ⟨rfl, rfl, rfl, rfl, rfl, rfl⟩ own fun _ _ _ _ _ _ => trivial
    · exact h.goto ⟨rfl, rfl, rfl, rfl, rfl, rfl⟩ trivial fun _ _ _ _ _ _ => trivial
  | popLast =>
    rw [ho] at taken
    cases taken
    exact h.goto ⟨rfl, rfl, rfl, rfl, rfl, rfl⟩ trivial fun _ _ _ _ _ _ => trivial
  | popGet =>
    rw [ho] at taken own
    cases taken
    split
    · exact h.resize own
    · exact h.reclaims own
  | copy rest a buffer b i =>
    rw [ho] at taken own
    cases taken
    obtain ⟨rfl, rfl⟩ := own
    split
    · exact h.write ⟨rfl, rfl, rfl, rfl, rfl, rfl⟩ rfl (fun _ => rfl) ⟨rfl, rfl⟩ fun _ _ => trivial
    · refine h.write ⟨rfl, rfl, rfl, rfl, rfl, rfl⟩ rfl (fun same => absurd same (Nat.lt_irrefl _))
        ⟨rfl, ?_⟩ fun _ _ => trivial
      exact congrArg RingBuffer.next (setBuffer_self ..)
  | storeActive =>
    rw [ho] at taken
    cases taken
    exact storeActive_guarded h ho
  | reclaim =>
    rw [ho] at taken own
    cases taken
    exact h.goto ⟨rfl, rfl, rfl, rfl, rfl, rfl⟩ ⟨own, Nat.le_of_eq own⟩
      fun _ _ listed _ _ _ => .inr listed
  | scanIdle rest a min_id head =>
    rw [ho] at taken own
    cases head with
    | nil =>
      cases taken
      refine h.goto ⟨rfl, rfl, rfl, rfl, rfl, rfl⟩ own fun k c _ _ _ safe => ?_
      rw [ho] at safe
      exact safe.resolve_right List.not_mem_nil
    | cons head next =>
      cases taken
      split
      · rename_i idle
        -- a token that is not idle is not the one the scan passes by
        refine h.goto ⟨rfl, rfl, rfl, rfl, rfl, rfl⟩ own fun k c _ busy _ safe => ?_
        rw [ho] at safe
        refine safe.imp_right fun member => (List.mem_cons.mp member).resolve_left fun same => ?_
        cases busy.symm.trans (same ▸ idle)
      · refine h.goto ⟨rfl, rfl, rfl, rfl, rfl, rfl⟩ own fun k c _ _ _ safe => ?_
        rw [ho] at safe
        exact safe.imp_right List.mem_cons.mp
  | scanLast rest a min_id head next =>
    rw [ho] at taken own
    cases taken
    refine h.goto ⟨rfl, rfl, rfl, rfl, rfl, rfl⟩ ⟨own.1, Nat.le_trans (Nat.min_le_left ..) own.2⟩
      fun k c _ _ used safe => ?_
    rw [ho] at safe
    rcases safe with low | rfl | later
    · exact .inl (Nat.le_trans (Nat.min_le_left ..) low)
    · exact .inl (Nat.le_trans (Nat.min_le_right ..) used)
    · exact .inr later
  | free rest a min_id =>
    rw [ho] at taken own
    simp only [ownerStep] at taken
    split at taken
    · split at taken <;> cases taken
      · refine free_guarded h ho ‹_› ‹_› (ok _ ?_)
        rw [ho, Owner.frees, Option.filter_eq_some_iff]
        exact ⟨‹_›, decide_eq_true ‹_›⟩
      · exact h.proceed own.1
    · cases taken
      exact h.proceed own.1

theorem initial_guarded [Inhabited T] : Guarded (initial Kid T) where
  linked := ⟨nofun, nofun⟩
  owner := trivial
  stealers _ := trivial

theorem StealerHolds.other {s u : State Kid T} {k : Kid} {p : Stealer Kid T}
    (h : StealerHolds s k p) (listed : k ∈ s.id_list → k ∈ u.id_list)
    (token : u.token k = s.token k) (same : u.active_buffer = s.active_buffer ∧
      u.buffer = s.buffer ∧ u.owner = s.owner) : StealerHolds u k p := by
  obtain ⟨active, buffer, owner⟩ := same
  cases p with
  | unregistered => trivial
  | registering =>
    simp only [StealerHolds, token, active]
    exact h
  | cas | get =>
    simp only [StealerHolds, token, active, buffer, owner]
    exact ⟨listed h.1, h.2⟩
  | setIdle | reloadActive => exact listed h
  | _ =>
    simp only [StealerHolds, token, active, buffer]
    exact ⟨listed h.1, h.2⟩

/-- The places where a stealer may load the active buffer: no limit is beyond that one. -/
theorem Guarded.spared {s : State Kid T} (h : Guarded s) (k : Kid) : Spared k s.active_buffer s.owner := by
  have own := h.owner
  cases ho : s.owner with
  | scanIdle | scanLast =>
    rw [ho] at own
    exact .inl own.2
  | free =>
    rw [ho] at own
    exact own.2
  | _ => trivial

variable [DecidableEq Kid]

theorem Guarded.setStealer {s u : State Kid T} (h : Guarded s) {k : Kid} {p : Stealer Kid T}
    (stealer : u.stealer = Function.update s.stealer k p)
    (same : u.active_buffer = s.active_buffer ∧ u.buffer = s.buffer ∧ u.owner = s.owner ∧
      u.unlinked = s.unlinked) (listed : ∀ d, d ∈ s.id_list → d ∈ u.id_list)
    (token : ∀ d, d ≠ k → u.token d = s.token d) (holds : StealerHolds u k p) : Guarded u := by
  obtain ⟨active, buffer, owner, unlinked⟩ := same
  refine ⟨h.linked.congr ⟨active, unlinked⟩ (fun a => by rw [buffer]; exact id)
    (fun a _ => by rw [buffer]), ?_, fun d => ?_⟩
  · have own := h.owner
    rw [owner]
    cases ho : s.owner <;> rw [ho] at own <;> simp only [OwnerHolds, active, buffer] <;> exact own
  · rw [stealer, Function.update_apply]
    split
    · rename_i mine
      exact mine ▸ holds
    · exact (h.stealers d).other (listed d) (token d ‹_›) ⟨active, buffer, owner⟩

theorem stealer_guarded {s u : State Kid T} {k : Kid} {junk : Junk T} (h : Guarded s)
    (taken : stealerStep s k junk (s.stealer k) = some u) : Guarded u := by
  have holds := h.stealers k
  have away : ∀ {token : StealerToken} (d : Kid), d ≠ k →
      Function.update s.token k token d = s.token d := fun d other => Function.update_of_ne other ..
  cases hk : s.stealer k with
  | unregistered | registering | idle => rw [hk] at taken; cases taken
  | loadTop =>
    rw [hk] at taken holds
    cases taken
    exact h.setStealer rfl ⟨rfl, rfl, rfl, rfl⟩ (fun _ => id) (fun _ _ => rfl) holds
  | loadBottom =>
    rw [hk] at taken holds
    cases taken
    split
    · exact h.setStealer rfl ⟨rfl, rfl, rfl, rfl⟩ (fun _ => id) (fun _ _ => rfl) holds
    · exact h.setStealer rfl ⟨rfl, rfl, rfl, rfl⟩ (fun _ => id) (fun _ _ => rfl) holds.1
  | loadActive =>
    rw [hk] at taken holds
    cases taken
    exact h.setStealer rfl ⟨rfl, rfl, rfl, rfl⟩ (fun _ => id) (fun _ _ => rfl)
      ⟨holds.1, holds.2.1, holds.2.2, Nat.le_refl _, h.linked.active (Nat.le_refl _), h.spared k⟩
  | cas =>
    rw [hk] at taken holds
    cases taken
    split
    · exact h.setStealer rfl ⟨rfl, rfl, rfl, rfl⟩ (fun _ => id) (fun _ _ => rfl) holds
    · exact h.setStealer rfl ⟨rfl, rfl, rfl, rfl⟩ (fun _ => id) (fun _ _ => rfl) holds.1
  | get =>
    rw [hk] at taken holds
    cases taken
    exact h.setStealer rfl ⟨rfl, rfl, rfl, rfl⟩ (fun _ => id) (fun _ _ => rfl) holds.1
  | setIdle =>
    rw [hk] at taken holds
    cases taken
    exact h.setStealer rfl ⟨rfl, rfl, rfl, rfl⟩ (fun _ => id) away holds
  | reloadActive =>
    rw [hk] at taken holds
    cases taken
    exact h.setStealer rfl ⟨rfl, rfl, rfl, rfl⟩ (fun _ => id) (fun _ _ => rfl)
      ⟨holds, Nat.le_refl _, h.linked.active (Nat.le_refl _)⟩
  | readId stolen a =>
    rw [hk] at taken holds
    cases taken
    obtain ⟨listed, old, live⟩ := holds
    rw [live]
    exact h.setStealer rfl ⟨rfl, rfl, rfl, rfl⟩ (fun _ => id) (fun _ _ => rfl) ⟨listed, old⟩
  | storeId stolen used =>
    rw [hk] at taken holds
    cases taken
    refine h.setStealer rfl ⟨rfl, rfl, rfl, rfl⟩ (fun _ => id) away ⟨holds.1, ?_⟩
    exact (congrArg StealerToken.id_last_used (Function.update_self ..)).trans_le holds.2

theorem register_guarded {s u : State Kid T} {k : Kid} {spurious : Bool} (h : Guarded s)
    (taken : registerStep s k spurious (s.stealer k) = some u) : Guarded u := by
  have holds := h.stealers k
  cases hk : s.stealer k with
  | unregistered =>
    rw [hk] at taken
    cases taken
    refine h.setStealer rfl ⟨rfl, rfl, rfl, rfl⟩ (fun _ => id)
      (fun d other => Function.update_of_ne other ..) ?_
    exact (congrArg StealerToken.id_last_used (Function.update_self ..)).trans_le (Nat.zero_le _)
  | registering next =>
    rw [hk] at taken holds
    simp only [registerStep] at taken
    split at taken <;> cases taken
    · rename_i same
      refine h.setStealer rfl ⟨rfl, rfl, rfl, rfl⟩ (fun d listed => ?_) (fun _ _ => rfl)
        ⟨List.mem_cons_self, holds⟩
      exact List.mem_cons_of_mem k (same.1 ▸ listed)
    · exact h.setStealer rfl ⟨rfl, rfl, rfl, rfl⟩ (fun _ => id) (fun _ _ => rfl) trivial
  | _ => rw [hk] at taken; cases taken

theorem step_guarded [Inhabited T] {s u : State Kid T} {a : Act Kid T} (h : Guarded s)
    (ok : FreesUnread s a) (taken : step s a = some u) : Guarded u := by
  cases a with
  | push | pop =>
    simp only [step] at taken
    split at taken <;> cases taken
    exact h.goto ⟨rfl, rfl, rfl, rfl, rfl, rfl⟩ trivial fun _ _ _ _ _ _ => trivial
  | owner => exact owner_guarded h ok taken
  | register => exact register_guarded h taken
  | popBack k =>
    have holds := h.stealers k
    simp only [step] at taken
    split at taken <;> cases taken
    rename_i idle
    rw [idle] at holds
    have mine : (s.setToken k { s.token k with was_idle := false }).token k =
        { s.token k with was_idle := false } := Function.update_self ..
    exact h.setStealer rfl ⟨rfl, rfl, rfl, rfl⟩ (fun _ => id)
      (fun d other => Function.update_of_ne other ..)
      ⟨holds.1, congrArg StealerToken.was_idle mine,
        (congrArg StealerToken.id_last_used mine).trans_le holds.2⟩
  | stealer => exact stealer_guarded h taken

theorem under_guarded [Inhabited T] {s : State Kid T}
    (reached : ReachedUnder (system Kid T) FreesUnread s) : Guarded s :=
  reached.invariant (I := Guarded) (fun _ eq => eq ▸ initial_guarded)
    fun _ _ _ h ok taken => step_guarded h ok taken

omit [DecidableEq Kid] in
theorem Guarded.safe {s : State Kid T} (h : Guarded s) : SafeAccesses s := by
  have own := h.owner
  refine ⟨fun a member => ?_, fun k a member => ?_⟩
  · cases ho : s.owner with
    | pushBuffer =>
      rw [ho] at member
      exact h.linked.active (Nat.le_of_eq (List.mem_singleton.mp member).symm)
    | put | popLast | popGet | reclaim =>
      rw [ho] at member own
      rw [List.mem_singleton.mp member]
      exact h.linked.active (Nat.le_of_eq (Eq.symm own))
    | copy rest b buffer =>
      rw [ho] at member own
      obtain ⟨rfl, rfl⟩ := own
      rcases List.mem_cons.mp member with rfl | member
      · exact h.linked.active (Nat.le_refl _)
      · rw [List.mem_singleton.mp member]
        exact h.linked.active (Nat.le_succ _)
    | free =>
      rw [ho] at member
      by_contra gone
      obtain ⟨_, first, at_first, before⟩ := h.linked.freed a (Bool.not_eq_false _ ▸ gone)
      have same := Option.mem_toList.mp member
      cases at_first.symm.trans same
      exact Nat.lt_irrefl _ before
    | _ => rw [ho] at member; cases member
  · have holds := h.stealers k
    cases hk : s.stealer k with
    | get =>
      rw [hk] at member holds
      rw [List.mem_singleton.mp member]
      exact holds.2.2.2.2.1
    | readId =>
      rw [hk] at member holds
      rw [List.mem_singleton.mp member]
      exact holds.2.2
    | _ => rw [hk] at member; cases member

/-- No access is to a freed buffer in the runs that free nothing a token is about to be given the
id of; and freeing such a buffer makes the stealer's next access one. -/
theorem reclaim_safe [Inhabited T] :
    (∀ s : State Kid T, ReachedUnder (system Kid T) FreesUnread s → SafeAccesses s) ∧
    ∀ (s u : State Kid T) (a : Act Kid T), Reached (system Kid T) s → ¬ FreesUnread s a →
      step s a = some u → ¬ SafeAccesses u := by
  refine ⟨fun s reached => (under_guarded reached).safe, fun s u a _ read taken safe => ?_⟩
  cases a with
  | owner junk =>
    simp only [FreesUnread, ne_eq, not_forall, not_not] at read
    obtain ⟨reclaimed, frees, k, stolen, reading⟩ := read
    obtain ⟨rest, new_buffer, min_id, at_free, first, old⟩ := frees_eq_some frees
    simp only [step, at_free, ownerStep, first, if_pos old] at taken
    cases taken
    have live := safe.stealer k reclaimed (by
      change reclaimed ∈ (s.stealer k).dereferences
      rw [reading]
      exact List.mem_cons_self)
    have gone : ((s.setBuffer reclaimed { s.buffer reclaimed with freed := true }).buffer
        reclaimed).freed = true := congrArg RingBuffer.freed (setBuffer_self ..)
    cases live.symm.trans gone
  | _ => exact absurd trivial read

def Stealer.reads (a : Nat) : Stealer Kid T → Bool
  | .readId _ b => b = a
  | _ => false

omit [DecidableEq Kid] in
theorem reads_eq_false {p : Stealer Kid T} {a : Nat} :
    p.reads a = false ↔ ∀ stolen, p ≠ .readId stolen a := by
  cases p with
  | readId stolen b => simp [Stealer.reads]
  | _ => simp [Stealer.reads]

instance [Fintype Kid] (s : State Kid T) : (a : Act Kid T) → Decidable (FreesUnread s a)
  | .owner _ => decidable_of_iff
      (∀ reclaimed ∈ s.owner.frees s, ∀ k, (s.stealer k).reads reclaimed = false)
      (by simp only [FreesUnread, reads_eq_false, Option.mem_def])
  | .push _ | .pop | .register _ _ | .popBack _ | .stealer _ _ => isTrue trivial

def reloadRun : List (Act Bool Nat) := registerRun true ++ winRun true

def growRun : List (Act Bool Nat) :=
  (List.range 15).flatMap pushRun ++ .push 15 :: List.replicate 23 (.owner junk)

/-- The stealer has read the id before the buffer is deleted. -/
def grownRun : List (Act Bool Nat) :=
  reloadRun ++ [.stealer true junk] ++ growRun ++ [.stealer true junk]

def grown : State Bool Nat :=
  (replay (system Bool Nat) (initial Bool Nat) grownRun).get (by decide +kernel)

theorem reclaim_safe_grown : (grown.buffer 0).freed = true ∧ SafeAccesses grown := by
  have reached : ReachedUnder (system Bool Nat) FreesUnread grown :=
    (ReachedUnder.start rfl).replay grownRun (by decide +kernel) (Option.some_get _).symm
  exact ⟨by decide +kernel, reclaim_safe.1 grown reached⟩

def reading : State Bool Nat :=
  (replay (system Bool Nat) (initial Bool Nat) (reloadRun ++ growRun)).get (by decide +kernel)

theorem freed_read : ¬ ∀ s : State Bool Nat, Reached (system Bool Nat) s → SafeAccesses s := by
  intro safe
  have reached : Reached (system Bool Nat) reading :=
    (Reached.start rfl).replay (reloadRun ++ growRun) (Option.some_get _).symm
  have gone : (reading.buffer 0).freed = true := by decide +kernel
  have at_read : (reading.stealer true).reads 0 = true := by decide +kernel
  cases hk : reading.stealer true with
  | readId stolen a =>
    rw [hk, Stealer.reads, decide_eq_true_iff] at at_read
    subst at_read
    have live := (safe reading reached).stealer true 0 (by rw [hk]; exact List.mem_cons_self)
    cases live.symm.trans gone
  | _ => rw [hk] at at_read; cases at_read

end Pot.Lfdequeue
