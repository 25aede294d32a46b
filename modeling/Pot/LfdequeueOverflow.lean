import Pot.LfdequeueLong

/-! Sequential histories of lfdequeue with the long of the machine: which calls come to their end,
and that those which do answer as a list does. -/
namespace Pot.Lfdequeue
open Transition Histories

variable {Kid T : Type} {m : DataModel}

theorem push_ends [Inhabited T] {s₀ s u : State Kid T} {item : T} {junk : Junk T}
    (h : Pushing s₀ item s) (taken : ownerStep s junk s.owner = some u) (idle : u.owner = .idle) :
    s.owner = .pushBottom item s₀.bottom := by
  have place := h.place
  have goes : ∀ {v : State Kid T} {log_size : Nat},
      Follows (.put item s₀.bottom) log_size v u → s.owner = .pushBottom item s₀.bottom := by
    rintro v log_size ⟨-, -, ⟨in_tail, -⟩ | ⟨⟨a, at_put⟩, -⟩⟩
    · rw [idle] at in_tail
      cases in_tail
    · cases idle.symm.trans at_put
  by_cases in_tail : ∃ rest, s.owner.tail = some rest
  · obtain ⟨rest, in_tail⟩ := in_tail
    obtain ⟨rfl, -⟩ := h.tail in_tail
    exact goes (tail_follows in_tail taken)
  · cases ho : s.owner with
    | idle => rw [ho] at taken; cases taken
    | pushTop i b => rw [ho] at taken; cases taken; cases idle
    | pushBuffer i b t =>
      rw [ho] at taken place
      cases taken
      obtain ⟨rfl, rfl, -⟩ := place
      split at idle
      · cases idle
      · rename_i room
        rw [if_neg room] at goes
        exact ho ▸ goes (reclaims_follows s _ s.active_buffer)
    | put i b a => rw [ho] at taken; cases taken; cases idle
    | pushBottom i b =>
      rw [ho] at place
      obtain ⟨rfl, rfl, -⟩ := place
      rfl
    | popBuffer | popBottom | popTop | popCas | popLast | popRestore | popGet =>
      rw [ho] at place
      cases place.1
    | _ => rw [ho] at in_tail; exact absurd ⟨_, rfl⟩ in_tail

variable [DecidableEq Kid] [Inhabited T]

/-- One uninterrupted call in which nothing overflows. -/
structure CallsIn (m : DataModel) (s : State Kid T) (call : Call Kid T) (answer : Option T)
    (u : State Kid T) : Prop where
  rests : Resting s
  run : ∃ as, (∀ a ∈ as, call.goesOn a) ∧
    replay (systemIn m Kid T) s (call.begins :: as) = some u
  ended : call.ended u
  answered : u.returned.map Prod.snd = s.returned.map Prod.snd ++ answer.toList

theorem CallsIn.calls {s u : State Kid T} {call : Call Kid T} {answer : Option T}
    (h : CallsIn m s call answer u) : Calls s call answer u := by
  obtain ⟨as, mine, run⟩ := h.run
  exact ⟨h.rests, ⟨as, mine, replay_of_guarded _ run⟩, h.ended, h.answered⟩

omit [DecidableEq Kid] [Inhabited T] in
theorem begins_fits (s : State Kid T) (call : Call Kid T) : s.Fits m call.begins := by
  cases call <;> exact fun v mem => by cases mem

section Runs

variable {s₀ u : State Kid T} {items : List T} {call : Call Kid T} {answer : Option T}

theorem calls_in {I : State Kid T → Prop}
    (preserves : ∀ s a u, I s → call.goesOn a → step s a = some u → I u)
    (fits : ∀ s a, I s → call.goesOn a → s.Fits m a)
    (begins : ∀ u, step s₀ call.begins = some u → I u) (calls : Calls s₀ call answer u) :
    CallsIn m s₀ call answer u := by
  obtain ⟨as, mine, run⟩ := calls.run
  refine ⟨calls.rests, ⟨as, mine, ?_⟩, calls.ended, calls.answered⟩
  simp only [replay, Option.bind_eq_some_iff] at run
  obtain ⟨v, first, rest⟩ := run
  have guarded := replay_guarded preserves fits (begins v first) as mine rest
  exact (replay_cons (guarded_step.mpr ⟨begins_fits s₀ call, first⟩) as).trans guarded

theorem push_in {item : T} (h : Holds s₀ items) (positions : Positions m s₀)
    (room : (Call.push item : Call Kid T).Room m s₀) (calls : Calls s₀ (.push item) answer u) :
    CallsIn m s₀ (.push item) answer u := by
  refine calls_in (I := fun s => (Sound s ∧ Pushing s₀ item s) ∧ Bounded s₀ s)
    (fun s a u before mine taken => ?_) (fun s a before mine => ?_) (fun v taken => ?_) calls
  · obtain ⟨junk, rfl⟩ := goesOn_push mine
    exact ⟨push_sound h.rests before.1 mine taken, push_bounded before.1.2 before.2 taken⟩
  · obtain ⟨junk, rfl⟩ := goesOn_push mine
    exact push_fits before.1.2 before.2 positions room
  · obtain ⟨w, hw, begun⟩ := push_begins h item
    cases hw.symm.trans taken
    refine ⟨begun, fun rest a buffer b i at_copy => ?_⟩
    simp only [Call.begins, step, h.rests.owner] at taken
    cases taken
    cases at_copy

theorem pop_in (h : Holds s₀ items) (positions : Positions m s₀)
    (room : (Call.pop : Call Kid T).Room m s₀) (calls : Calls s₀ .pop answer u) :
    CallsIn m s₀ .pop answer u := by
  refine calls_in (I := fun s => (Sound s ∧ Popping s₀ s) ∧ Bounded s₀ s ∧
      (s.owner.early → s.active_buffer = s₀.active_buffer ∧ s.buffer = s₀.buffer))
    (fun s a u before mine taken => ?_) (fun s a before mine => ?_) (fun v taken => ?_) calls
  · obtain ⟨junk, rfl⟩ := goesOn_pop mine
    refine ⟨pop_sound h.rests before.1 mine taken, pop_bounded before.1.2 before.2.1 taken,
      fun early => ?_⟩
    obtain ⟨still, active, buffer⟩ := early_step taken early
    exact ⟨active.trans (before.2.2 still).1, buffer.trans (before.2.2 still).2⟩
  · obtain ⟨junk, rfl⟩ := goesOn_pop mine
    exact pop_fits before.1.1.inv before.1.2 before.2.1 positions before.2.2 room
  · obtain ⟨w, hw, begun⟩ := pop_begins h
    cases hw.symm.trans taken
    simp only [Call.begins, step, h.rests.owner] at taken
    cases taken
    refine ⟨begun, ?_, fun _ => ⟨rfl, rfl⟩⟩
    intro rest a buffer b i at_copy
    cases at_copy

theorem popBack_in {k : Kid} (h : Holds s₀ items) (positions : Positions m s₀)
    (calls : Calls s₀ (.popBack k) answer u) : CallsIn m s₀ (.popBack k) answer u := by
  have start := positions.start
  have ordered := positions.ordered
  have held := positions.held
  refine calls_in (I := fun s => Sound s ∧ Stealing s₀ k s) (fun s a u => steal_sound)
    (fun s a before mine => ?_) (fun v taken => ?_) calls
  · obtain ⟨junk, rfl⟩ := goesOn_popBack mine
    have bottom := before.2.bottom
    have place := before.2.place
    intro v mem
    simp only [State.longs] at mem
    cases hk : s.stealer k with
    | loadBottom t =>
      rw [hk] at mem place
      obtain ⟨rfl, -⟩ := place
      rw [List.mem_singleton.mp mem]
      exact long_holds (by omega) (by omega)
    | cas t a =>
      rw [hk] at mem place
      obtain ⟨rfl, -, some, -⟩ := place
      rw [List.mem_singleton.mp mem]
      exact long_holds (by omega) (by omega)
    | _ => rw [hk] at mem; cases mem
  · have registered : s₀.stealer k = .idle := by
      simp only [Call.begins, step] at taken
      split at taken
      · assumption
      · cases taken
    obtain ⟨w, hw, begun⟩ := popBack_begins h registered
    cases hw.symm.trans taken
    exact begun

theorem register_in {k : Kid} (calls : Calls s₀ (.register k) answer u) :
    CallsIn m s₀ (.register k) answer u := by
  refine calls_in (I := fun _ => True) (fun _ _ _ _ _ _ => trivial) (fun s a _ mine => ?_)
    (fun _ _ => trivial) calls
  obtain ⟨spurious, rfl⟩ := goesOn_register mine
  exact fun v mem => by cases mem

/-- A call that finds room comes to its end, with no overflow. -/
theorem returns_in (h : Holds s₀ items) (positions : Positions m s₀) (allowed : call.allowed s₀)
    (room : call.Room m s₀) : ∃ answer u, CallsIn m s₀ call answer u := by
  obtain ⟨answer, u, calls⟩ := call_returns h allowed
  refine ⟨answer, u, ?_⟩
  cases call with
  | push item => exact push_in h positions room calls
  | pop => exact pop_in h positions room calls
  | register k => exact register_in calls
  | popBack k => exact popBack_in h positions calls

theorem call_run_in {I : State Kid T → Prop}
    (preserves : ∀ s a u, I s → call.goesOn a → s.Fits m a → step s a = some u → I u)
    (begins : ∀ u, step s₀ call.begins = some u → I u) (calls : CallsIn m s₀ call answer u) :
    I u := by
  obtain ⟨as, mine, run⟩ := calls.run
  simp only [replay, Option.bind_eq_some_iff] at run
  obtain ⟨v, first, rest⟩ := run
  have kept : ∀ s a u, I s → call.goesOn a → (systemIn m Kid T).step s a = some u → I u :=
    fun s a u before mine taken =>
      preserves s a u before mine (guarded_step.mp taken).1 (guarded_step.mp taken).2
  exact replay_among kept (begins v (guarded_step.mp first).2) as mine rest

theorem push_room {item : T} (h : Holds s₀ items) (calls : CallsIn m s₀ (.push item) answer u) :
    (Call.push item : Call Kid T).Room m s₀ := by
  have kept : (Sound u ∧ Pushing s₀ item u) ∧ (u.owner = .idle → s₀.bottom < m.long.max) ∧
      ((∀ i b, u.owner ≠ .pushTop i b) → (∀ i b t, u.owner ≠ .pushBuffer i b t) → s₀.full →
        (s₀.active_buffer : Int) < m.long.max) := by
    refine call_run_in (I := fun u => (Sound u ∧ Pushing s₀ item u) ∧
      (u.owner = .idle → s₀.bottom < m.long.max) ∧
      ((∀ i b, u.owner ≠ .pushTop i b) → (∀ i b t, u.owner ≠ .pushBuffer i b t) → s₀.full →
        (s₀.active_buffer : Int) < m.long.max)) (fun s a u before mine fits taken => ?_)
      (fun v taken => ?_) calls
    · obtain ⟨junk, rfl⟩ := goesOn_push mine
      obtain ⟨pushing, -, passed⟩ := before
      refine ⟨push_sound h.rests pushing mine taken, fun idle => ?_, fun _ decided full => ?_⟩
      · have ho := push_ends pushing.2 taken idle
        have stored := fits (s₀.bottom + 1)
        simp only [State.longs, ho] at stored
        exact (stored List.mem_cons_self).2
      · have place := pushing.2.place
        by_cases reads : ∃ i b, s.owner = .pushTop i b
        · obtain ⟨i, b, ho⟩ := reads
          have taken : ownerStep s junk s.owner = some u := taken
          rw [ho] at taken
          cases taken
          exact absurd rfl (decided i b s.top)
        · by_cases decides : ∃ i b t, s.owner = .pushBuffer i b t
          · obtain ⟨i, b, t, ho⟩ := decides
            rw [ho] at place
            obtain ⟨-, rfl, rfl, -, -, active, buffer⟩ := place
            have made := fits ((s₀.active_buffer : Int) + 1)
            unfold State.full at full
            simp only [State.longs, ho, Owner.longs, active, buffer, if_pos full] at made
            exact (made (List.mem_cons_of_mem _ List.mem_cons_self)).2
          · exact passed (fun i b ho => reads ⟨i, b, ho⟩)
              (fun i b t ho => decides ⟨i, b, t, ho⟩) full
    · obtain ⟨w, hw, begun⟩ := push_begins h item
      cases hw.symm.trans taken
      simp only [Call.begins, step, h.rests.owner] at taken
      cases taken
      exact ⟨begun, fun idle => (by cases idle), fun no => absurd rfl (no item s₀.bottom)⟩
  have idle : u.owner = .idle := calls.ended
  obtain ⟨-, below, passed⟩ := kept
  exact ⟨below idle, passed (fun _ _ reads => by cases idle.symm.trans reads)
    fun _ _ _ decides => by cases idle.symm.trans decides⟩

theorem pop_room (h : Holds s₀ items) (calls : CallsIn m s₀ .pop answer u) :
    (Call.pop : Call Kid T).Room m s₀ := by
  have kept : (Sound u ∧ Popping s₀ u) ∧
      (u.owner.early → u.active_buffer = s₀.active_buffer ∧ u.buffer = s₀.buffer) ∧
      (¬ u.owner.early → s₀.sparse → (s₀.active_buffer : Int) < m.long.max) := by
    refine call_run_in (I := fun u => (Sound u ∧ Popping s₀ u) ∧
      (u.owner.early → u.active_buffer = s₀.active_buffer ∧ u.buffer = s₀.buffer) ∧
      (¬ u.owner.early → s₀.sparse → (s₀.active_buffer : Int) < m.long.max))
      (fun s a u before mine fits taken => ?_) (fun v taken => ?_) calls
    · obtain ⟨junk, rfl⟩ := goesOn_pop mine
      obtain ⟨popping, same, passed⟩ := before
      refine ⟨pop_sound h.rests popping mine taken, fun early => ?_, fun late sparse => ?_⟩
      · obtain ⟨still, active, buffer⟩ := early_step taken early
        exact ⟨active.trans (same still).1, buffer.trans (same still).2⟩
      · by_cases early : s.owner.early
        · have place := popping.2.place
          have own := popping.1.inv.owner
          have taken : ownerStep s junk s.owner = some u := taken
          have several : s₀.bottom - s₀.top > 2 ^ 4 := sparse.2
          cases ho : s.owner with
          | popBuffer | popBottom =>
            rw [ho] at taken
            cases taken
            exact absurd trivial late
          | popTop b a =>
            rw [ho] at taken place
            cases taken
            obtain ⟨rfl, top, -⟩ := place
            rw [top, if_neg (by omega), if_neg (by omega)] at late
            exact absurd trivial late
          | popGet b a t =>
            rw [ho] at place own
            obtain ⟨rfl, rfl, -⟩ := place
            obtain ⟨-, rfl, -⟩ := own
            obtain ⟨active, buffer⟩ := same early
            have made := fits ((s₀.active_buffer : Int) + 1)
            unfold State.sparse at sparse
            simp only [State.longs, ho, Owner.longs, active, buffer, if_pos sparse] at made
            exact (made (List.mem_cons_of_mem _ List.mem_cons_self)).2
          | _ => rw [ho] at early; exact early.elim
        · exact passed early sparse
    · obtain ⟨w, hw, begun⟩ := pop_begins h
      cases hw.symm.trans taken
      simp only [Call.begins, step, h.rests.owner] at taken
      cases taken
      exact ⟨begun, fun _ => ⟨rfl, rfl⟩, fun no => absurd trivial no⟩
  have idle : u.owner = .idle := calls.ended
  exact kept.2.2 (by rw [idle]; exact id)

/-- A call comes to its end exactly if it finds room. -/
theorem returns_iff (h : Holds s₀ items) (positions : Positions m s₀) (allowed : call.allowed s₀) :
    (∃ answer u, CallsIn m s₀ call answer u) ↔ call.Room m s₀ := by
  refine ⟨fun ⟨answer, u, calls⟩ => ?_, returns_in h positions allowed⟩
  cases call with
  | push item => exact push_room h calls
  | pop => exact pop_room h calls
  | register | popBack => trivial

theorem call_positions (h : Holds s₀ items) (positions : Positions m s₀)
    (calls : CallsIn m s₀ call answer u) : Positions m u := by
  obtain ⟨start, ordered, held⟩ := positions
  cases call with
  | push item =>
    have pushing := (push_run h calls.calls).2
    have place := pushing.place
    have idle : u.owner = .idle := calls.ended
    rw [idle] at place
    have top := pushing.top
    have bottom := place.1
    have room := (push_room h calls).1
    exact ⟨by omega, by omega, by omega⟩
  | pop =>
    have place := (pop_run h calls.calls).2.place
    have idle : u.owner = .idle := calls.ended
    rw [idle] at place
    obtain ⟨popped, done, -⟩ := place
    cases popped with
    | none =>
      obtain ⟨-, top, bottom⟩ := done
      exact ⟨by omega, by omega, by omega⟩
    | some popped =>
      obtain ⟨-, ⟨top, bottom, several⟩ | ⟨top, bottom, last⟩⟩ := done
      · exact ⟨by omega, by omega, by omega⟩
      · exact ⟨by omega, by omega, by omega⟩
  | register k =>
    have same := (register_run h calls.calls).2
    have top := same.top
    have bottom := same.bottom
    exact ⟨by omega, by omega, by omega⟩
  | popBack k =>
    have stealing := (popBack_run h calls.calls).2
    have place := stealing.place
    have idle : u.stealer k = .idle := calls.ended
    rw [idle] at place
    have bottom := stealing.bottom
    obtain ⟨stolen, done, -⟩ := place
    cases stolen with
    | none =>
      have top := done.2
      exact ⟨by omega, by omega, by omega⟩
    | some stolen =>
      obtain ⟨-, top, some⟩ := done
      exact ⟨by omega, by omega, by omega⟩

end Runs

theorem history_calls {h : List (Call Kid T × Option T)} {s : State Kid T}
    (history : History (fun s => s = initial Kid T) (CallsIn m) h s) :
    History (fun s => s = initial Kid T) Calls h s :=
  history.mono fun _ _ _ _ => CallsIn.calls

theorem history_positions {h : List (Call Kid T × Option T)} {s : State Kid T}
    (history : History (fun s => s = initial Kid T) (CallsIn m) h s) : Positions m s := by
  induction history with
  | nil start =>
    cases start
    exact ⟨Int.le_refl 0, Int.le_refl 0, Int.le_of_lt (long_max_pos m)⟩
  | snoc before calls ih =>
    exact call_positions (history_holds (history_calls before)).2 ih calls

/-- lfdequeue without overlapping calls: as far as its calls come to their end the answers are those
of a list on which push and pop work at one end and pop_back at the other, its buffer has a slot to
spare and, with fewer than 2^30 items there at once, a size that is an int; and a call comes to its
end exactly if it finds room. -/
theorem sequential_deque {h : List (Call Kid T × Option T)} {s : State Kid T}
    (history : History (fun s => s = initial Kid T) (CallsIn m) h s) :
    h.map Prod.snd = answers deque [] (h.map Prod.fst) ∧
    s.contents = after deque [] (h.map Prod.fst) ∧
    s.bottom - s.top ≤ (s.buffer s.active_buffer).size - 1 ∧
    (∀ call : Call Kid T, call.allowed s →
      ((∃ answer u, CallsIn m s call answer u) ↔ call.Room m s)) ∧
    ((∀ calls, calls <+: h.map Prod.fst → (after deque [] calls).length < 2 ^ 30) →
      (s.buffer s.active_buffer).log_size ≤ 30) := by
  obtain ⟨same, holds⟩ := history_holds (history_calls history)
  refine ⟨same, holds.contents, ?_, fun call allowed =>
    returns_iff holds (history_positions history) allowed, history_size (history_calls history)⟩
  have room := holds.sound.inv.core.room
  rw [holds.rests.owner] at room
  have room : s.bottom + 1 ≤ s.top + (s.buffer s.active_buffer).size := room
  omega

def shortRun : Call Bool Nat → List (Act Bool Nat)
  | .push _ => List.replicate 4 (.owner junk)
  | .pop => List.replicate 6 (.owner junk)
  | .register k => [.register k false]
  | .popBack k => List.replicate 9 (.stealer k junk)

def shortCall (s : State Bool Nat) (call : Call Bool Nat) : Option (State Bool Nat) :=
  replay (systemIn .llp64 Bool Nat) s (call.begins :: shortRun call)

theorem calls_short {s : State Bool Nat} {call : Call Bool Nat} {answer : Option Nat}
    (rests : Resting s) (returns : (shortCall s call).isSome)
    (ended : call.ended ((shortCall s call).get returns))
    (answered : ((shortCall s call).get returns).returned.map Prod.snd =
      s.returned.map Prod.snd ++ answer.toList) :
    CallsIn .llp64 s call answer ((shortCall s call).get returns) := by
  refine ⟨rests, ⟨shortRun call, fun a mem => ?_, (Option.some_get returns).symm⟩, ended, answered⟩
  cases call with
  | push | pop => rw [List.eq_of_mem_replicate mem]; trivial
  | register => rw [List.mem_singleton.mp mem]; rfl
  | popBack => rw [List.eq_of_mem_replicate mem]; rfl

def pushedOne : State Bool Nat :=
  (shortCall (initial Bool Nat) (.push 7)).get (by decide +kernel)

def pushedTwo : State Bool Nat := (shortCall pushedOne (.push 8)).get (by decide +kernel)

def registered : State Bool Nat := (shortCall pushedTwo (.register true)).get (by decide +kernel)

def stolenFirst : State Bool Nat := (shortCall registered (.popBack true)).get (by decide +kernel)

def poppedLast : State Bool Nat := (shortCall stolenFirst .pop).get (by decide +kernel)

/-- Both ends of a deque of two. -/
theorem sequential_deque_two :
    poppedLast.returned.map Prod.snd = [7, 8] ∧
      [none, none, none, some 7, some 8] =
        answers deque [] [.push 7, .push 8, .register true, .popBack true, .pop] := by
  have each : ∀ {P : Bool → Prop}, P true → P false → ∀ k, P k := fun yes no k => by
    cases k
    · exact no
    · exact yes
  have first : CallsIn .llp64 (initial Bool Nat) (.push 7) none pushedOne :=
    calls_short ⟨rfl, fun _ => .inr rfl⟩ _ rfl rfl
  have second : CallsIn .llp64 pushedOne (.push 8) none pushedTwo :=
    calls_short ⟨rfl, fun _ => .inr rfl⟩ _ rfl rfl
  have third : CallsIn .llp64 pushedTwo (.register true) none registered :=
    calls_short ⟨rfl, fun _ => .inr rfl⟩ _ rfl rfl
  have fourth : CallsIn .llp64 registered (.popBack true) (some 7) stolenFirst :=
    calls_short ⟨rfl, each (.inl rfl) (.inr rfl)⟩ _ rfl (by decide +kernel)
  have fifth : CallsIn .llp64 stolenFirst .pop (some 8) poppedLast :=
    calls_short ⟨rfl, each (.inl rfl) (.inr rfl)⟩ _ rfl (by decide +kernel)
  have start : History (fun s => s = initial Bool Nat) (CallsIn .llp64) [] (initial Bool Nat) :=
    .nil rfl
  have history : History (fun s => s = initial Bool Nat) (CallsIn .llp64)
      [(.push 7, none), (.push 8, none), (.register true, none), (.popBack true, some 7),
        (.pop, some 8)] poppedLast :=
    .snoc (.snoc (.snoc (.snoc (.snoc start first) second) third) fourth) fifth
  exact ⟨by decide +kernel, (sequential_deque history).1⟩

/-- A stealer takes each item that the owner pushes before the next. -/
def rounds : Nat → List (Call Unit Nat)
  | 0 => [.register ()]
  | n + 1 => rounds n ++ [.push 7, .popBack ()]

/-- A buffer of the first size, and nothing in it. -/
structure Emptied (n : Nat) (s : State Unit Nat) : Prop where
  top : s.top = n
  bottom : s.bottom = n
  stealer : s.stealer () = .idle
  log_size : (s.buffer s.active_buffer).log_size = log_initial_size

theorem Emptied.size {n : Nat} {s : State Unit Nat} (h : Emptied n s) :
    (s.buffer s.active_buffer).size = 16 := by
  rw [RingBuffer.size, h.log_size]
  rfl

theorem push_round {n : Nat} {s : State Unit Nat} {items : List Nat} (holds : Holds s items)
    (h : Emptied n s) {answer : Option Nat} {u : State Unit Nat}
    (calls : CallsIn m s (.push 7) answer u) :
    u.top = n ∧ u.bottom = n + 1 ∧ u.stealer () = .idle ∧
      (u.buffer u.active_buffer).log_size = log_initial_size := by
  have pushing := (push_run holds calls.calls).2
  have place := pushing.place
  have idle : u.owner = .idle := calls.ended
  rw [idle] at place
  have size := h.size
  have top := h.top
  have bottom := h.bottom
  refine ⟨pushing.top.trans top, by rw [place.1, bottom], by rw [pushing.stealer, h.stealer], ?_⟩
  rcases (push_calls holds calls.calls).2.2 with same | ⟨-, full⟩
  · exact same.trans h.log_size
  · omega

theorem popBack_round {n : Nat} {s : State Unit Nat} {items : List Nat} (holds : Holds s items)
    (top : s.top = n) (bottom : s.bottom = n + 1)
    (log_size : (s.buffer s.active_buffer).log_size = log_initial_size) {answer : Option Nat}
    {u : State Unit Nat} (calls : CallsIn m s (.popBack ()) answer u) : Emptied (n + 1) u := by
  have stealing := (popBack_run holds calls.calls).2
  have place := stealing.place
  have idle : u.stealer () = .idle := calls.ended
  rw [idle] at place
  obtain ⟨stolen, done, -⟩ := place
  refine ⟨?_, by rw [stealing.bottom, bottom]; rfl, idle, stealing.log_size.trans log_size⟩
  cases stolen with
  | none =>
    have none := done.1
    omega
  | some stolen => rw [done.2.1, top]; rfl

theorem rounds_reached (n : Nat) (held : (n : Int) ≤ m.long.max) :
    ∃ h s, History (fun s => s = initial Unit Nat) (CallsIn m) h s ∧
      h.map Prod.fst = rounds n ∧ Emptied n s := by
  induction n with
  | zero =>
    have start : History (fun s => s = initial Unit Nat) (CallsIn m) [] (initial Unit Nat) :=
      .nil rfl
    have allowed : (Call.register () : Call Unit Nat).allowed (initial Unit Nat) := rfl
    obtain ⟨answer, u, calls⟩ := returns_in initial_holds (history_positions start) allowed trivial
    have same := (register_run initial_holds calls.calls).2
    refine ⟨_, u, .snoc start calls, rfl, same.top, same.bottom, calls.ended, ?_⟩
    rw [same.buffer, same.active]
    rfl
  | succ n ih =>
    obtain ⟨h, s, history, before, emptied⟩ := ih (by omega)
    have holds := (history_holds (history_calls history)).2
    have size := emptied.size
    have bottom := emptied.bottom
    have top := emptied.top
    have room : (Call.push 7 : Call Unit Nat).Room m s := by
      refine ⟨by omega, fun full => ?_⟩
      unfold State.full at full
      omega
    have allowed : (Call.push 7 : Call Unit Nat).allowed s := trivial
    obtain ⟨answer, u, push⟩ := returns_in holds (history_positions history) allowed room
    obtain ⟨top, bottom, idle, log_size⟩ := push_round holds emptied push
    have next := History.snoc history push
    have holds := (history_holds (history_calls next)).2
    have allowed : (Call.popBack () : Call Unit Nat).allowed u := idle
    obtain ⟨stolen, v, steal⟩ := returns_in holds (history_positions next) allowed trivial
    refine ⟨_, v, .snoc next steal, ?_, popBack_round holds top bottom log_size steal⟩
    rw [List.map_append, List.map_append, before, List.append_assoc]
    rfl

/-- After 2147483647 rounds a push on Windows computes 2147483647 + 1 for bottom. -/
theorem bottom_overflows :
    ∃ h s, History (fun s => s = initial Unit Nat) (CallsIn .llp64) h s ∧
      h.map Prod.fst = rounds 2147483647 ∧ s.contents = [] ∧
      ¬ ∃ answer u, CallsIn .llp64 s (.push 7) answer u := by
  have last : ((2147483647 : Nat) : Int) = DataModel.llp64.long.max := by decide
  obtain ⟨h, s, history, calls, emptied⟩ := rounds_reached (m := .llp64) 2147483647
    (Int.le_of_eq last)
  have bottom := emptied.bottom
  have top := emptied.top
  refine ⟨h, s, history, calls, contents_empty (by omega), fun ⟨answer, u, push⟩ => ?_⟩
  have room := push_room (history_holds (history_calls history)).2 push
  have below : s.bottom < DataModel.llp64.long.max := room.1
  omega

end Pot.Lfdequeue
