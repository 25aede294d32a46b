import Pot.LfdequeueReclaim

/-! One call of lfdequeue that nothing interrupts: what push, pop and pop_back leave behind, and
that each of them has only so many steps to take. -/
namespace Pot.Lfdequeue
open Transition

variable {Kid T : Type}

/-- The resize and the reclaim, with what follows them. -/
def Owner.tail : Owner Kid T → Option (Rest T)
  | .copy rest _ _ _ _ | .storeActive rest _ | .reclaim rest _ | .scanIdle rest _ _ _
  | .scanLast rest _ _ _ _ | .free rest _ _ => some rest
  | _ => none

/-- log_size of the buffer that is active or will be. -/
def State.logSize (s : State Kid T) : Owner Kid T → Nat
  | .copy _ _ buffer _ _ => (s.buffer buffer).log_size
  | .storeActive _ a => (s.buffer a).log_size
  | _ => (s.buffer s.active_buffer).log_size

structure Kept (s u : State Kid T) : Prop where
  top : u.top = s.top
  bottom : u.bottom = s.bottom
  item : u.item = s.item
  stealer : u.stealer = s.stealer

/-- Where the resize and the reclaim lead. -/
def Rest.Resumed (s u : State Kid T) : Rest T → Prop
  | .put item b => (∃ a, u.owner = .put item b a) ∧ u.returned = s.returned
  | .ret popped => u.owner = .idle ∧ u.returned = s.returned ++ [popped]

theorem log_setBuffer {s : State Kid T} {a : Nat} {r : RingBuffer T}
    (same : r.log_size = (s.buffer a).log_size) (c : Nat) :
    ((s.setBuffer a r).buffer c).log_size = (s.buffer c).log_size := by
  by_cases here : c = a
  · rw [here, setBuffer_self, same]
  · rw [setBuffer_of_ne s r here]

theorem proceed_resumed (s : State Kid T) (rest : Rest T) (a : Nat) :
    Kept s (s.proceed a rest) ∧
      (s.proceed a rest).logSize (s.proceed a rest).owner = (s.buffer s.active_buffer).log_size ∧
      rest.Resumed s (s.proceed a rest) := by
  cases rest with
  | put item b => exact ⟨⟨rfl, rfl, rfl, rfl⟩, rfl, ⟨a, rfl⟩, rfl⟩
  | ret popped => exact ⟨⟨rfl, rfl, rfl, rfl⟩, rfl, rfl, rfl⟩

/-- A step that stays in the tail of a push or pop, or leaves it. -/
structure Follows (rest : Rest T) (log_size : Nat) (s u : State Kid T) : Prop where
  kept : Kept s u
  log_size : u.logSize u.owner = log_size
  place : (u.owner.tail = some rest ∧ u.returned = s.returned) ∨ rest.Resumed s u

theorem reclaims_follows (s : State Kid T) (rest : Rest T) (a : Nat) :
    Follows rest (s.buffer s.active_buffer).log_size s (s.reclaims rest a) := by
  simp only [State.reclaims]
  split
  · exact ⟨⟨rfl, rfl, rfl, rfl⟩, rfl, .inl ⟨rfl, rfl⟩⟩
  · obtain ⟨kept, log_size, resumed⟩ := proceed_resumed s rest a
    exact ⟨kept, log_size, .inr resumed⟩

theorem tail_follows [Inhabited T] {s u : State Kid T} {junk : Junk T} {rest : Rest T}
    (in_tail : s.owner.tail = some rest) (taken : ownerStep s junk s.owner = some u) :
    Follows rest (s.logSize s.owner) s u := by
  cases ho : s.owner with
  | copy r a buffer b i =>
    rw [ho] at in_tail taken
    cases in_tail
    cases taken
    split
    · have put : ((s.setBuffer buffer ((s.buffer buffer).put i (s.read junk a i))).buffer
          buffer).log_size = (s.buffer buffer).log_size := log_setBuffer (by rfl) buffer
      exact ⟨⟨rfl, rfl, rfl, rfl⟩, put, .inl ⟨rfl, rfl⟩⟩
    · have linked : ((s.setBuffer a { s.buffer a with next := some buffer }).buffer
          buffer).log_size = (s.buffer buffer).log_size := log_setBuffer (by rfl) buffer
      exact ⟨⟨rfl, rfl, rfl, rfl⟩, linked, .inl ⟨rfl, rfl⟩⟩
  | storeActive r a =>
    rw [ho] at in_tail taken
    cases in_tail
    cases taken
    obtain ⟨kept, log_size, place⟩ := reclaims_follows { s with active_buffer := a } rest a
    exact ⟨⟨kept.top, kept.bottom, kept.item, kept.stealer⟩, log_size, place⟩
  | reclaim r a =>
    rw [ho] at in_tail taken
    cases in_tail
    cases taken
    exact ⟨⟨rfl, rfl, rfl, rfl⟩, rfl, .inl ⟨rfl, rfl⟩⟩
  | scanIdle r a min_id head =>
    rw [ho] at in_tail taken
    cases in_tail
    cases head with
    | nil =>
      cases taken
      exact ⟨⟨rfl, rfl, rfl, rfl⟩, rfl, .inl ⟨rfl, rfl⟩⟩
    | cons k next =>
      cases taken
      split
      · exact ⟨⟨rfl, rfl, rfl, rfl⟩, rfl, .inl ⟨rfl, rfl⟩⟩
      · exact ⟨⟨rfl, rfl, rfl, rfl⟩, rfl, .inl ⟨rfl, rfl⟩⟩
  | scanLast r a min_id k next =>
    rw [ho] at in_tail taken
    cases in_tail
    cases taken
    exact ⟨⟨rfl, rfl, rfl, rfl⟩, rfl, .inl ⟨rfl, rfl⟩⟩
  | free r a min_id =>
    rw [ho] at in_tail taken
    cases in_tail
    obtain ⟨kept, log_size, resumed⟩ := proceed_resumed s rest a
    simp only [ownerStep] at taken
    split at taken
    · split at taken <;> cases taken
      · rename_i reclaimed _ _
        have freed : ((s.setBuffer reclaimed { s.buffer reclaimed with freed := true }).buffer
            s.active_buffer).log_size = (s.buffer s.active_buffer).log_size :=
          log_setBuffer (by rfl) s.active_buffer
        refine ⟨⟨rfl, rfl, rfl, rfl⟩, ?_, .inl ⟨congrArg Owner.tail ho, rfl⟩⟩
        exact (congrArg (State.logSize _) ho).trans freed
      · exact ⟨kept, log_size, .inr resumed⟩
    · cases taken
      exact ⟨kept, log_size, .inr resumed⟩
  | _ => rw [ho] at in_tail; cases in_tail

/-- Where the owner is between the beginning and the end of a push. -/
def PushPlace (s₀ : State Kid T) (item : T) (s : State Kid T) : Owner Kid T → Prop
  | .idle => s.bottom = s₀.bottom + 1 ∧ s.item = Function.update s₀.item s₀.bottom item
  | .pushTop i b =>
    i = item ∧ b = s₀.bottom ∧ s.bottom = s₀.bottom ∧ s.item = s₀.item ∧
      s.active_buffer = s₀.active_buffer ∧ s.buffer = s₀.buffer
  | .pushBuffer i b t =>
    i = item ∧ b = s₀.bottom ∧ t = s₀.top ∧ s.bottom = s₀.bottom ∧ s.item = s₀.item ∧
      s.active_buffer = s₀.active_buffer ∧ s.buffer = s₀.buffer
  | .put i b _ | .pushBottom i b =>
    i = item ∧ b = s₀.bottom ∧ s.bottom = s₀.bottom ∧ s.item = s₀.item
  | o => o.tail = some (.put item s₀.bottom) ∧ s.bottom = s₀.bottom ∧ s.item = s₀.item

/-- The buffer stays, or there was no room for one more and it doubles. -/
def Grown (s₀ : State Kid T) (log_size : Nat) : Prop :=
  log_size = (s₀.buffer s₀.active_buffer).log_size ∨
    log_size = (s₀.buffer s₀.active_buffer).log_size + 1 ∧
      (s₀.buffer s₀.active_buffer).size - 1 ≤ s₀.bottom - s₀.top

structure Pushing (s₀ : State Kid T) (item : T) (s : State Kid T) : Prop where
  top : s.top = s₀.top
  returned : s.returned = s₀.returned
  stealer : s.stealer = s₀.stealer
  grown : Grown s₀ (s.logSize s.owner)
  place : PushPlace s₀ item s s.owner

theorem Pushing.tail {s₀ s : State Kid T} {item : T} {rest : Rest T} (h : Pushing s₀ item s)
    (in_tail : s.owner.tail = some rest) :
    rest = .put item s₀.bottom ∧ s.bottom = s₀.bottom ∧ s.item = s₀.item := by
  have place := h.place
  cases ho : s.owner <;> rw [ho] at in_tail place <;> cases in_tail
  all_goals
    obtain ⟨same, kept⟩ := place
    cases same
    exact ⟨rfl, kept⟩

theorem PushPlace.of_tail {s₀ s : State Kid T} {item : T} {o : Owner Kid T}
    (in_tail : o.tail = some (.put item s₀.bottom)) (bottom : s.bottom = s₀.bottom)
    (same : s.item = s₀.item) : PushPlace s₀ item s o := by
  cases o <;> cases in_tail
  all_goals exact ⟨rfl, bottom, same⟩

theorem Follows.pushing {s₀ s u : State Kid T} {item : T} {log_size : Nat}
    (follows : Follows (.put item s₀.bottom) log_size s u)
    (same : s.top = s₀.top ∧ s.returned = s₀.returned ∧ s.stealer = s₀.stealer)
    (grown : Grown s₀ log_size) (bottom : s.bottom = s₀.bottom) (items : s.item = s₀.item) :
    Pushing s₀ item u := by
  obtain ⟨kept, log_eq, place⟩ := follows
  have returned : u.returned = s.returned := place.elim (·.2) (·.2)
  refine ⟨kept.top.trans same.1, returned.trans same.2.1, kept.stealer.trans same.2.2,
    log_eq ▸ grown, ?_⟩
  rcases place with ⟨in_tail, -⟩ | ⟨⟨a, at_put⟩, -⟩
  · exact .of_tail in_tail (kept.bottom.trans bottom) (kept.item.trans items)
  · rw [at_put]
    exact ⟨rfl, rfl, kept.bottom.trans bottom, kept.item.trans items⟩

theorem push_step [Inhabited T] {s₀ s u : State Kid T} {item : T} {junk : Junk T}
    (h : Pushing s₀ item s) (taken : ownerStep s junk s.owner = some u) : Pushing s₀ item u := by
  have place := h.place
  have grown := h.grown
  have same := And.intro h.top (And.intro h.returned h.stealer)
  by_cases in_tail : ∃ rest, s.owner.tail = some rest
  · obtain ⟨rest, in_tail⟩ := in_tail
    obtain ⟨rfl, bottom, items⟩ := h.tail in_tail
    exact (tail_follows in_tail taken).pushing same grown bottom items
  · cases ho : s.owner with
    | idle => rw [ho] at taken; cases taken
    | pushTop i b =>
      rw [ho] at taken place grown
      cases taken
      obtain ⟨rfl, rfl, kept⟩ := place
      exact ⟨h.top, h.returned, h.stealer, grown, rfl, rfl, h.top, kept⟩
    | pushBuffer i b t =>
      rw [ho] at taken place grown
      cases taken
      obtain ⟨rfl, rfl, rfl, bottom, items, active, buffer⟩ := place
      split
      · rename_i full
        refine ⟨h.top, h.returned, h.stealer, .inr ⟨?_, ?_⟩, rfl, bottom, items⟩
        · rw [← active, ← buffer]
          exact congrArg RingBuffer.log_size (setBuffer_self ..)
        · rw [← active, ← buffer]
          exact full
      · exact (reclaims_follows s _ s.active_buffer).pushing same grown bottom items
    | put i b a =>
      rw [ho] at taken place grown
      cases taken
      obtain ⟨rfl, rfl, bottom, items⟩ := place
      have put : ((s.setBuffer a ((s.buffer a).put s₀.bottom i)).buffer s.active_buffer).log_size =
          (s.buffer s.active_buffer).log_size := log_setBuffer (by rfl) s.active_buffer
      refine ⟨h.top, h.returned, h.stealer, ?_, rfl, rfl, bottom, items⟩
      change Grown s₀ ((s.setBuffer a ((s.buffer a).put s₀.bottom i)).buffer
        s.active_buffer).log_size
      rw [put]
      exact grown
    | pushBottom i b =>
      rw [ho] at taken place grown
      cases taken
      obtain ⟨rfl, rfl, bottom, items⟩ := place
      exact ⟨h.top, h.returned, h.stealer, grown, rfl, by rw [items]⟩
    | popBuffer | popBottom | popTop | popCas | popLast | popRestore | popGet =>
      rw [ho] at place
      cases place.1
    | _ => rw [ho] at in_tail; exact absurd ⟨_, rfl⟩ in_tail

/-- What a pop that is over has done: nothing to an empty deque, and otherwise the item before
bottom is gone, by way of top when it is the last one. -/
def Popped (s₀ : State Kid T) (top bottom : Int) : Option (Int × T) → Prop
  | none => s₀.bottom ≤ s₀.top ∧ top = s₀.top ∧ bottom = s₀.bottom
  | some popped =>
    popped = (s₀.bottom - 1, s₀.item (s₀.bottom - 1)) ∧
      (top = s₀.top ∧ bottom = s₀.bottom - 1 ∧ s₀.top < bottom ∨
        top = s₀.top + 1 ∧ bottom = s₀.bottom ∧ bottom = top)

def PopPlace (s₀ s : State Kid T) : Owner Kid T → Prop
  | .idle => ∃ popped, Popped s₀ s.top s.bottom popped ∧ s.returned = s₀.returned ++ popped.toList
  | .popBuffer b | .popBottom b _ =>
    b = s₀.bottom ∧ s.top = s₀.top ∧ s.bottom = s₀.bottom ∧ s.returned = s₀.returned
  | .popTop b _ =>
    b = s₀.bottom ∧ s.top = s₀.top ∧ s.bottom = s₀.bottom - 1 ∧ s.returned = s₀.returned
  | .popCas b _ t =>
    b = s₀.bottom ∧ t = s₀.top ∧ s.top = s₀.top ∧ b = t + 1 ∧ s.returned = s₀.returned
  | .popLast b _ t =>
    b = s₀.bottom ∧ t = s₀.top ∧ s.top = s₀.top + 1 ∧ b = t + 1 ∧ s.returned = s₀.returned
  | .popRestore b popped =>
    b = s₀.bottom ∧ Popped s₀ s.top b popped ∧ s.returned = s₀.returned
  | .popGet b _ t =>
    b = s₀.bottom ∧ t = s₀.top ∧ s.top = s₀.top ∧ s.bottom = b - 1 ∧ t + 1 < b ∧
      s.returned = s₀.returned
  | o =>
    ∃ popped, o.tail = some (.ret popped) ∧ Popped s₀ s.top s.bottom (some popped) ∧
      s.returned = s₀.returned

structure Popping (s₀ s : State Kid T) : Prop where
  item : s.item = s₀.item
  stealer : s.stealer = s₀.stealer
  shrunk : s.logSize s.owner ≤ (s₀.buffer s₀.active_buffer).log_size
  place : PopPlace s₀ s s.owner

theorem PopPlace.of_tail {s₀ s : State Kid T} {popped : Int × T} {o : Owner Kid T}
    (in_tail : o.tail = some (.ret popped)) (done : Popped s₀ s.top s.bottom (some popped))
    (returned : s.returned = s₀.returned) : PopPlace s₀ s o := by
  cases o <;> cases in_tail
  all_goals exact ⟨popped, rfl, done, returned⟩

theorem Popping.tail {s₀ s : State Kid T} {rest : Rest T} (h : Popping s₀ s)
    (in_tail : s.owner.tail = some rest) :
    ∃ popped, rest = .ret popped ∧ Popped s₀ s.top s.bottom (some popped) ∧
      s.returned = s₀.returned := by
  have place := h.place
  cases ho : s.owner <;> rw [ho] at in_tail place <;> cases in_tail
  all_goals
    obtain ⟨popped, same, done⟩ := place
    cases same
    exact ⟨popped, rfl, done⟩

theorem Follows.popping {s₀ s u : State Kid T} {popped : Int × T} {log_size : Nat}
    (follows : Follows (.ret popped) log_size s u) (same : s.item = s₀.item ∧ s.stealer = s₀.stealer)
    (shrunk : log_size ≤ (s₀.buffer s₀.active_buffer).log_size)
    (done : Popped s₀ s.top s.bottom (some popped)) (returned : s.returned = s₀.returned) :
    Popping s₀ u := by
  obtain ⟨kept, log_eq, place⟩ := follows
  have done' : Popped s₀ u.top u.bottom (some popped) := by
    rw [kept.top, kept.bottom]
    exact done
  refine ⟨kept.item.trans same.1, kept.stealer.trans same.2, log_eq ▸ shrunk, ?_⟩
  rcases place with ⟨in_tail, unreturned⟩ | ⟨idle, back⟩
  · exact .of_tail in_tail done' (unreturned.trans returned)
  · rw [idle]
    exact ⟨some popped, done', by rw [back, returned]; rfl⟩

theorem pop_step [Inhabited T] {s₀ s u : State Kid T} {junk : Junk T} (inv : Inv s)
    (h : Popping s₀ s) (taken : ownerStep s junk s.owner = some u) : Popping s₀ u := by
  have place := h.place
  have shrunk := h.shrunk
  have own := inv.owner
  have same := And.intro h.item h.stealer
  by_cases in_tail : ∃ rest, s.owner.tail = some rest
  · obtain ⟨rest, in_tail⟩ := in_tail
    obtain ⟨popped, rfl, done, returned⟩ := h.tail in_tail
    exact (tail_follows in_tail taken).popping same shrunk done returned
  · cases ho : s.owner with
    | idle => rw [ho] at taken; cases taken
    | popBuffer b =>
      rw [ho] at taken place shrunk
      cases taken
      exact ⟨h.item, h.stealer, shrunk, place⟩
    | popBottom b a =>
      rw [ho] at taken place shrunk
      cases taken
      obtain ⟨rfl, top, bottom, returned⟩ := place
      exact ⟨h.item, h.stealer, shrunk, rfl, top, rfl, returned⟩
    | popTop b a =>
      rw [ho] at taken place shrunk
      cases taken
      obtain ⟨rfl, top, bottom, returned⟩ := place
      split
      · refine ⟨h.item, h.stealer, shrunk, rfl, ⟨?_, top, rfl⟩, returned⟩
        omega
      · split
        · refine ⟨h.item, h.stealer, shrunk, rfl, top, top, ?_, returned⟩
          omega
        · refine ⟨h.item, h.stealer, shrunk, rfl, top, top, bottom, ?_, returned⟩
          omega
    | popCas b a t =>
      rw [ho] at taken place shrunk
      cases taken
      obtain ⟨rfl, rfl, top, last, returned⟩ := place
      rw [if_pos top]
      exact ⟨h.item, h.stealer, shrunk, rfl, rfl, rfl, last, returned⟩
    | popLast b a t =>
      rw [ho] at taken place shrunk own
      cases taken
      obtain ⟨rfl, rfl, top, last, returned⟩ := place
      obtain ⟨-, rfl, -, -, here⟩ := own
      have read : s.read junk s.active_buffer s₀.top = s.item s₀.top :=
        (inv.core.read_active junk s₀.top).trans here
      have index : s₀.bottom - 1 = s₀.top := by omega
      refine ⟨h.item, h.stealer, shrunk, rfl, ⟨?_, .inr ⟨top, rfl, last.trans top.symm⟩⟩, returned⟩
      rw [read, h.item, index]
    | popRestore b popped =>
      rw [ho] at taken place shrunk
      cases taken
      obtain ⟨rfl, done, returned⟩ := place
      exact ⟨h.item, h.stealer, shrunk, popped, done, by rw [returned]⟩
    | popGet b a t =>
      rw [ho] at taken place shrunk own
      cases taken
      obtain ⟨rfl, rfl, top, bottom, several, returned⟩ := place
      obtain ⟨-, rfl, -, -, -, here⟩ := own
      have read : s.read junk s.active_buffer (s₀.bottom - 1) = s₀.item (s₀.bottom - 1) := by
        rw [inv.core.read_active, here, h.item]
      have done : Popped s₀ s.top s.bottom
          (some (s₀.bottom - 1, s.read junk s.active_buffer (s₀.bottom - 1))) := by
        refine ⟨by rw [read], .inl ⟨top, bottom, ?_⟩⟩
        omega
      split
      · refine ⟨h.item, h.stealer, ?_, _, rfl, done, returned⟩
        have smaller : (((s.resize (.ret (s₀.bottom - 1, s.read junk s.active_buffer
            (s₀.bottom - 1))) s.active_buffer s₀.bottom s₀.top
            ((s.buffer s.active_buffer).log_size - 1)).buffer (s.active_buffer + 1)).log_size) =
            (s.buffer s.active_buffer).log_size - 1 :=
          congrArg RingBuffer.log_size (setBuffer_self ..)
        have before : (s.buffer s.active_buffer).log_size ≤
            (s₀.buffer s₀.active_buffer).log_size := shrunk
        exact smaller.trans_le ((Nat.sub_le ..).trans before)
      · exact (reclaims_follows s _ s.active_buffer).popping same shrunk done returned
    | pushTop | pushBuffer | put | pushBottom =>
      rw [ho] at place
      obtain ⟨popped, none, -⟩ := place
      cases none
    | _ => rw [ho] at in_tail; exact absurd ⟨_, rfl⟩ in_tail

def Owner.left (s : State Kid T) : Owner Kid T → Nat
  | .idle => 0
  | .pushBottom _ _ | .popRestore _ _ => 1
  | .put _ _ _ | .popLast _ _ _ => 2
  | .popCas _ _ _ => 3
  | .free _ _ min_id => 3 + s.unlinked.elim 0 (min_id - ·)
  | .scanIdle _ _ min_id head => 4 + min_id + 2 * head.length
  | .scanLast _ _ min_id _ next => 5 + min_id + 2 * next.length
  | .reclaim _ a => 5 + a + 2 * s.id_list.length
  | .storeActive _ a => 6 + a + 2 * s.id_list.length
  | .copy _ _ buffer b i => 7 + buffer + 2 * s.id_list.length + (b - i).toNat
  | .pushBuffer _ b t => 9 + s.active_buffer + 2 * s.id_list.length + (b - t).toNat
  | .pushTop _ b => 10 + s.active_buffer + 2 * s.id_list.length + (b - s.top).toNat
  | .popGet b a t => 9 + a + 2 * s.id_list.length + (b - t).toNat
  | .popTop b a => 10 + a + 2 * s.id_list.length + (b - s.top).toNat
  | .popBottom b a => 11 + a + 2 * s.id_list.length + (b - s.top).toNat
  | .popBuffer b => 12 + s.active_buffer + 2 * s.id_list.length + (b - s.top).toNat

theorem proceed_left (s : State Kid T) (rest : Rest T) (a : Nat) :
    (s.proceed a rest).owner.left (s.proceed a rest) ≤ 2 := by
  cases rest with
  | put => exact Nat.le_refl _
  | ret => exact Nat.zero_le _

theorem reclaims_left (s : State Kid T) (rest : Rest T) (a : Nat) :
    (s.reclaims rest a).owner.left (s.reclaims rest a) ≤ 5 + a + 2 * s.id_list.length := by
  simp only [State.reclaims]
  split
  · exact Nat.le_refl _
  · exact Nat.le_trans (proceed_left s rest a) (by omega)

theorem owner_left [Inhabited T] {s u : State Kid T} {junk : Junk T} (linked : Linked s)
    (holds : OwnerHolds s s.owner) (taken : ownerStep s junk s.owner = some u) :
    u.owner.left u < s.owner.left s := by
  cases ho : s.owner with
  | idle => rw [ho] at taken; cases taken
  | pushBuffer item b t =>
    rw [ho] at taken
    cases taken
    split
    · simp only [State.resize, State.setBuffer, Owner.left]
      omega
    · refine Nat.lt_of_le_of_lt (reclaims_left s (.put item b) s.active_buffer) ?_
      simp only [Owner.left]
      omega
  | popTop b a =>
    rw [ho] at taken
    cases taken
    split
    · simp only [Owner.left]
      omega
    · split
      · simp only [Owner.left]
        omega
      · simp only [Owner.left]
        omega
  | popCas b a t =>
    rw [ho] at taken
    cases taken
    split
    · simp only [Owner.left]
      omega
    · simp only [Owner.left]
      omega
  | popGet b a t =>
    rw [ho] at taken
    cases taken
    split
    · simp only [State.resize, State.setBuffer, Owner.left]
      omega
    · refine Nat.lt_of_le_of_lt (reclaims_left s _ a) ?_
      simp only [Owner.left]
      omega
  | copy rest a buffer b i =>
    rw [ho] at taken
    cases taken
    split
    · simp only [State.setBuffer, Owner.left]
      omega
    · simp only [State.setBuffer, Owner.left]
      omega
  | storeActive rest a =>
    rw [ho] at taken
    cases taken
    have bound := reclaims_left { s with active_buffer := a } rest a
    simp only [Owner.left] at bound ⊢
    omega
  | scanIdle rest a min_id head =>
    rw [ho] at taken
    cases head with
    | nil =>
      cases taken
      cases hu : s.unlinked with
      | none =>
        simp only [Owner.left, Option.elim, List.length_nil]
        omega
      | some first =>
        simp only [Owner.left, Option.elim, List.length_nil]
        omega
    | cons k next =>
      cases taken
      split
      · simp only [Owner.left, List.length_cons]
        omega
      · simp only [Owner.left, List.length_cons]
        omega
  | scanLast rest a min_id k next =>
    rw [ho] at taken
    cases taken
    have below : min min_id (s.token k).id_last_used ≤ min_id := Nat.min_le_left ..
    simp only [Owner.left]
    omega
  | free rest a min_id =>
    rw [ho] at taken holds
    have done := proceed_left s rest a
    simp only [ownerStep] at taken
    split at taken
    · rename_i reclaimed at_first
      split at taken <;> cases taken
      · obtain ⟨-, low⟩ := holds
        obtain ⟨-, chain⟩ := linked.chain reclaimed at_first
        have next := chain reclaimed (Nat.le_refl _) (by omega)
        simp only [State.setBuffer, ho, Owner.left, at_first, next, Option.elim]
        omega
      · refine Nat.lt_of_le_of_lt done ?_
        simp only [Owner.left]
        omega
    · cases taken
      refine Nat.lt_of_le_of_lt done ?_
      simp only [Owner.left]
      omega
  | _ =>
    rw [ho] at taken
    cases taken
    simp only [Owner.left]
    omega

theorem owner_moves [Inhabited T] (s : State Kid T) (junk : Junk T) (busy : s.owner ≠ .idle) :
    ∃ u, ownerStep s junk s.owner = some u := by
  cases ho : s.owner with
  | idle => exact absurd ho busy
  | scanIdle rest a min_id head =>
    cases head with
    | nil => exact ⟨_, rfl⟩
    | cons => exact ⟨_, rfl⟩
  | free rest a min_id =>
    simp only [ownerStep]
    split
    · split
      · exact ⟨_, rfl⟩
      · exact ⟨_, rfl⟩
    · exact ⟨_, rfl⟩
  | _ => exact ⟨_, rfl⟩

/-- What a thief that is alone finds on its way. -/
def Stolen (s₀ : State Kid T) (top : Int) : Option (Int × T) → Prop
  | none => s₀.bottom ≤ s₀.top ∧ top = s₀.top
  | some stolen =>
    stolen = (s₀.top, s₀.item s₀.top) ∧ top = s₀.top + 1 ∧ s₀.top < s₀.bottom

def StealPlace (s₀ s : State Kid T) : Stealer Kid T → Prop
  | .idle => ∃ stolen, Stolen s₀ s.top stolen ∧ s.returned = s₀.returned ++ stolen.toList
  | .loadTop => s.top = s₀.top ∧ s.returned = s₀.returned
  | .loadBottom t => t = s₀.top ∧ s.top = s₀.top ∧ s.returned = s₀.returned
  | .loadActive t | .cas t _ =>
    t = s₀.top ∧ s.top = s₀.top ∧ s₀.top < s₀.bottom ∧ s.returned = s₀.returned
  | .get t _ =>
    t = s₀.top ∧ s.top = s₀.top + 1 ∧ s₀.top < s₀.bottom ∧ s.returned = s₀.returned
  | .setIdle stolen | .reloadActive stolen | .readId stolen _ | .storeId stolen _ =>
    Stolen s₀ s.top stolen ∧ s.returned = s₀.returned
  | _ => False

def Stealer.left : Stealer Kid T → Nat
  | .unregistered | .registering _ | .idle => 0
  | .storeId _ _ => 1
  | .readId _ _ => 2
  | .reloadActive _ => 3
  | .setIdle _ => 4
  | .get _ _ => 5
  | .cas _ _ => 6
  | .loadActive _ => 7
  | .loadBottom _ => 8
  | .loadTop => 9

variable [DecidableEq Kid]

structure Stealing (s₀ : State Kid T) (k : Kid) (s : State Kid T) : Prop where
  bottom : s.bottom = s₀.bottom
  item : s.item = s₀.item
  owner : s.owner = s₀.owner
  others : ∀ j, j ≠ k → s.stealer j = s₀.stealer j
  log_size : (s.buffer s.active_buffer).log_size = (s₀.buffer s₀.active_buffer).log_size
  place : StealPlace s₀ s (s.stealer k)

theorem stealer_self (s : State Kid T) (k : Kid) (p : Stealer Kid T) :
    (s.setStealer k p).stealer k = p :=
  Function.update_self ..

theorem Stealing.goto {s₀ s u : State Kid T} {k : Kid} (h : Stealing s₀ k s) {p q : Stealer Kid T}
    (same : u.bottom = s.bottom ∧ u.item = s.item ∧ u.owner = s.owner ∧ u.buffer = s.buffer ∧
      u.active_buffer = s.active_buffer)
    (moved : u.stealer = Function.update s.stealer k p) (place : StealPlace s₀ u p)
    (less : p.left < q.left) : Stealing s₀ k u ∧ (u.stealer k).left < q.left := by
  obtain ⟨bottom, item, owner, buffer, active⟩ := same
  have here : u.stealer k = p := by rw [moved, Function.update_self]
  refine ⟨⟨bottom.trans h.bottom, item.trans h.item, owner.trans h.owner, fun j other => ?_, ?_,
    here.symm ▸ place⟩, here.symm ▸ less⟩
  · rw [moved, Function.update_of_ne other]
    exact h.others j other
  · rw [buffer, active]
    exact h.log_size

theorem steal_step {s₀ s u : State Kid T} {k : Kid} {junk : Junk T} (inv : Inv s)
    (safe : SafeAccesses s) (h : Stealing s₀ k s)
    (taken : stealerStep s k junk (s.stealer k) = some u) :
    Stealing s₀ k u ∧ (u.stealer k).left < (s.stealer k).left := by
  have place := h.place
  have found := inv.core.stealers k
  have live := safe.stealer k
  cases hk : s.stealer k with
  | unregistered | registering | idle => rw [hk] at taken; cases taken
  | loadTop =>
    rw [hk] at taken place
    cases taken
    obtain ⟨top, returned⟩ := place
    exact h.goto ⟨rfl, rfl, rfl, rfl, rfl⟩ rfl ⟨top, top, returned⟩ (Nat.lt_succ_self _)
  | loadBottom t =>
    rw [hk] at taken place
    obtain ⟨rfl, top, returned⟩ := place
    have bottom := h.bottom
    by_cases some : s.bottom - s₀.top > 0
    · simp only [stealerStep, if_pos some] at taken
      cases taken
      exact h.goto ⟨rfl, rfl, rfl, rfl, rfl⟩ rfl ⟨rfl, top, by omega, returned⟩
        (Nat.lt_succ_self _)
    · simp only [stealerStep, if_neg some] at taken
      cases taken
      exact h.goto ⟨rfl, rfl, rfl, rfl, rfl⟩ rfl ⟨⟨by omega, top⟩, returned⟩
        (by simp [Stealer.left])
  | loadActive t =>
    rw [hk] at taken place
    cases taken
    exact h.goto ⟨rfl, rfl, rfl, rfl, rfl⟩ rfl place (Nat.lt_succ_self _)
  | cas t a =>
    rw [hk] at taken place
    obtain ⟨rfl, top, some, returned⟩ := place
    simp only [stealerStep, if_pos top] at taken
    cases taken
    exact h.goto ⟨rfl, rfl, rfl, rfl, rfl⟩ rfl ⟨rfl, rfl, some, returned⟩ (Nat.lt_succ_self _)
  | get t a =>
    rw [hk] at taken place found live
    cases taken
    obtain ⟨rfl, top, some, returned⟩ := place
    have alive := live a List.mem_cons_self
    have read : s.read junk a s₀.top = s₀.item s₀.top := by
      rw [State.read, if_neg (by rw [alive]; exact fun same => by cases same), found.2.1, h.item]
    exact h.goto ⟨rfl, rfl, rfl, rfl, rfl⟩ rfl ⟨⟨by rw [read], top, some⟩, returned⟩
      (Nat.lt_succ_self _)
  | setIdle | reloadActive | readId =>
    rw [hk] at taken place
    cases taken
    exact h.goto ⟨rfl, rfl, rfl, rfl, rfl⟩ rfl place (Nat.lt_succ_self _)
  | storeId stolen id =>
    rw [hk] at taken place
    cases taken
    obtain ⟨done, returned⟩ := place
    exact h.goto ⟨rfl, rfl, rfl, rfl, rfl⟩ rfl
      ⟨stolen, done, congrArg (· ++ stolen.toList) returned⟩ (Nat.lt_succ_self _)

theorem stealer_moves {s : State Kid T} {k : Kid} {junk : Junk T} {s₀ : State Kid T}
    (h : Stealing s₀ k s) (busy : s.stealer k ≠ .idle) :
    ∃ u, stealerStep s k junk (s.stealer k) = some u := by
  have place := h.place
  cases hk : s.stealer k with
  | idle => exact absurd hk busy
  | unregistered | registering => rw [hk] at place; exact place.elim
  | _ => exact ⟨_, rfl⟩

end Pot.Lfdequeue
