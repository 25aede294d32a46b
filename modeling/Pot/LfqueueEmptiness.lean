import Pot.LfqueueRefinement

/-! What a nullopt of lfqueue's pop says about the queue. A pop looks at one ticket only: it also
comes back empty while that ticket is claimed and not yet published, whatever lies behind it. -/
namespace Pot.Lfqueue
open Transition

variable {Tid T : Type}

/-- Every push that has returned has had its value claimed by a pop: the last access of a push is
the one that publishes its ticket. -/
def Drained (s : State Tid T) : Prop := ∀ x ∈ s.tickets, x.published = false

/-- The front ticket is claimed and not published, and a later one is published. -/
def Blocked (s : State Tid T) : Prop :=
  s.dequeuePos < s.enqueuePos ∧ s.seqAt s.dequeuePos = s.dequeuePos ∧ ¬ Drained s

/-- No pop looks for the front ticket while it is held up before one that is there. -/
def SeesFront (s : State Tid T) : Tid × Act T → Prop
  | (i, .go _) => match s.pc i with
    | .popLoadSeq pos => pos = s.dequeuePos → ¬ Blocked s
    | _ => True
  | _ => True

instance (s : State Tid T) : Decidable (Drained s) :=
  inferInstanceAs (Decidable (∀ x ∈ s.tickets, _))

theorem drained_of_unpublished {s : State Tid T}
    (none : ∀ q, s.dequeuePos ≤ q → q < s.enqueuePos → s.seqAt q ≠ q + 1) (h : Inv s) :
    Drained s := by
  intro x mem
  obtain ⟨k, at_k⟩ := List.mem_iff_getElem?.mp mem
  have inside := (List.getElem?_eq_some_iff.mp at_k).1
  have length := tickets_length h
  rw [tickets_getElem?, Option.map_eq_some_iff] at at_k
  obtain ⟨msg, -, rfl⟩ := at_k
  exact decide_eq_false (none _ (Nat.le_add_right ..) (by omega))

theorem drained_empty {s : State Tid T} (h : Inv s) (empty : s.dequeuePos = s.enqueuePos) :
    Drained s :=
  drained_of_unpublished (fun q lo hi => absurd lo (by omega)) h

theorem load_front {s : State Tid T} {i : Tid} {pos : Nat} (h : Inv s)
    (at_load : s.pc i = .popLoadSeq pos) (behind : s.seqAt pos < pos + 1) :
    pos = s.dequeuePos := by
  have ok := h.threads i
  rw [at_load] at ok
  by_contra different
  have := seq_of_taken h (Nat.lt_of_le_of_ne ok different)
  omega

variable [DecidableEq Tid]

/-- A pop of thread `i` from its call in `s`: `during` leads to the load in `u` that makes it answer
nullopt, and no other call of `i` comes between. -/
structure NullPop (s : State Tid T) (i : Tid) (during : List (Tid × Act T)) (u : State Tid T) :
    Prop where
  run : replay (system Tid T) s ((i, .pop) :: during) = some u
  one : ∀ a ∈ during, a.1 = i → ∃ spurious, a.2 = .go spurious
  load : ∃ pos, u.pc i = .popLoadSeq pos ∧ u.seqAt pos < pos + 1

/-- At some moment from the call of the pop to its last load the queue of completed pushes is
empty. -/
def Truthful (s : State Tid T) (i : Tid) (during : List (Tid × Act T)) : Prop :=
  ∃ first, first <+: during ∧
    ∃ m, replay (system Tid T) s ((i, .pop) :: first) = some m ∧ Drained m

theorem NullPop.truthful {s u : State Tid T} {i : Tid} {during : List (Tid × Act T)}
    (reached : Reached (system Tid T) s) (call : NullPop s i during u) (spurious : Bool)
    (ok : SeesFront u (i, .go spurious)) : Truthful s i during := by
  have h := reached_inv (reached.replay _ call.run)
  obtain ⟨pos, at_load, behind⟩ := call.load
  have front := load_front h at_load behind
  simp only [SeesFront, at_load] at ok
  refine ⟨during, List.prefix_refl _, u, call.run, ?_⟩
  by_contra some
  have order := h.order
  by_cases empty : u.dequeuePos = u.enqueuePos
  · exact some (drained_empty h empty)
  · subst front
    have inside : u.dequeuePos < u.enqueuePos := Nat.lt_of_le_of_ne order empty
    rcases h.filled u.dequeuePos (Nat.le_refl _) inside with ⟨published, -⟩ | claimed
    · omega
    · exact ok rfl ⟨inside, claimed, some⟩

/-- Behind a ticket that is held up the same thread's next pop finds nothing either, and this time
something is there all along. -/
theorem blocked_lies {s : State Tid T} {i : Tid} {spurious : Bool}
    (broken : ¬ SeesFront s (i, .go spurious)) :
    ∃ t, step s (i, .go spurious) = some t ∧
      ∃ during u, NullPop t i during u ∧ ¬ Truthful t i during := by
  simp only [SeesFront] at broken
  split at broken
  · rename_i pos at_load
    simp only [not_forall, not_not] at broken
    obtain ⟨rfl, inside, claimed, some⟩ := broken
    have negative : ((s.buffer (slot s.dequeuePos)).sequence : Int) - (s.dequeuePos + 1) < 0 := by
      change ((s.seqAt s.dequeuePos : Nat) : Int) - _ < 0
      omega
    have back : step s (i, .go spurious) = Option.some (s.goto i .idle) := by
      simp only [step, at_load, push, pop, Option.none_or]
      rw [if_neg (by omega), if_pos negative]
    have again : (system Tid T).step (s.goto i .idle) (i, .pop) =
        Option.some ((s.goto i .idle).goto i .popLoadPos) := by
      simp only [system, step, goto_self]
    have loads : (system Tid T).step ((s.goto i .idle).goto i .popLoadPos) (i, .go false) =
        Option.some (((s.goto i .idle).goto i .popLoadPos).goto i (.popLoadSeq s.dequeuePos)) := by
      simp only [system, step, goto_self, push, pop, Option.none_or]
      rfl
    refine ⟨s.goto i .idle, back, [(i, .go false)], _,
      ⟨(replay_cons again _).trans (replay_cons loads _), fun a mem _ => ?_, s.dequeuePos,
        goto_self .., ?_⟩, ?_⟩
    · exact ⟨false, congrArg Prod.snd (List.mem_singleton.mp mem)⟩
    · change s.seqAt s.dequeuePos < s.dequeuePos + 1
      omega
    · rintro ⟨first, within, m, run, drained⟩
      have same : m.tickets = s.tickets := by
        cases first with
        | nil =>
          rw [replay_cons again] at run
          cases run
          rfl
        | cons a rest =>
          obtain ⟨rfl, rest_within⟩ := List.cons_prefix_cons.mp within
          obtain rfl := List.prefix_nil.mp rest_within
          rw [replay_cons again, replay_cons loads] at run
          cases run
          rfl
      exact some fun x mem => drained x (by rw [same]; exact mem)
  · exact absurd trivial broken

/-- A pop that answers nullopt says the truth when its last load does not find the front ticket
held up before a published one; and where such a load is made, the thread's next pop can answer
nullopt with a completed push in the queue from its call to its end. -/
theorem nullopt_truthful (Tid T : Type) [DecidableEq Tid] :
    (∀ (s u : State Tid T) i during spurious, Reached (system Tid T) s → NullPop s i during u →
      SeesFront u (i, .go spurious) → Truthful s i during) ∧
    ∀ (s : State Tid T) i spurious, ¬ SeesFront s (i, .go spurious) →
      ∃ t, step s (i, .go spurious) = some t ∧
        ∃ during u, NullPop t i during u ∧ ¬ Truthful t i during :=
  ⟨fun _ _ _ _ spurious reached call ok => call.truthful reached spurious ok,
    fun _ _ _ broken => blocked_lies broken⟩

/-- One producer has published 7, another stops between its claim and its store; 7 is claimed by a
pop. -/
def inFlight : State Bool Nat :=
  (replay (system Bool Nat) initial
    [(false, .push 7), (false, .go false), (false, .go false), (false, .go false),
      (false, .go false), (false, .go false), (true, .push 8), (true, .go false),
      (true, .go false), (true, .go false), (false, .pop), (false, .go false), (false, .go false),
      (false, .go false), (false, .go false), (false, .go false)]).get rfl

def inFlightLoad : State Bool Nat :=
  (replay (system Bool Nat) inFlight [(false, .pop), (false, .go false)]).get rfl

/-- The next pop finds the ticket of the push that is still under way. -/
theorem nullopt_truthful_empty :
    inFlight.tickets.length = 1 ∧ Truthful inFlight false [(false, .go false)] := by
  have reached : Reached (system Bool Nat) inFlight :=
    (Reached.start rfl).replay _ (Option.some_get _).symm
  have call : NullPop inFlight false [(false, .go false)] inFlightLoad :=
    ⟨(Option.some_get _).symm,
      fun a mem _ => ⟨false, congrArg Prod.snd (List.mem_singleton.mp mem)⟩, 1, rfl,
      by decide +kernel⟩
  have empty : Drained inFlightLoad := by decide +kernel
  exact ⟨by decide +kernel, (nullopt_truthful Bool Nat).1 inFlight inFlightLoad false _ false
    reached call fun _ held => held.2.2 empty⟩

/-- One producer stops between its claim and its store; the other pushes 8 and returns. -/
def heldUp : State Bool Nat :=
  (replay (system Bool Nat) initial
    [(true, .push 7), (true, .go false), (true, .go false), (true, .go false), (false, .push 8),
      (false, .go false), (false, .go false), (false, .go false), (false, .go false),
      (false, .go false)]).get rfl

def heldUpCall : State Bool Nat := (replay (system Bool Nat) heldUp [(false, .pop)]).get rfl

def heldUpLoad : State Bool Nat :=
  (replay (system Bool Nat) heldUp [(false, .pop), (false, .go false)]).get rfl

/-- The pop answers nullopt, and 8 is there from its call on. -/
theorem heldUp_lies :
    ¬ ∀ (s u : State Bool Nat) i during, Reached (system Bool Nat) s → NullPop s i during u →
      Truthful s i during := by
  intro truthful
  have reached : Reached (system Bool Nat) heldUp :=
    (Reached.start rfl).replay _ (Option.some_get _).symm
  have called : replay (system Bool Nat) heldUp [(false, .pop)] = some heldUpCall :=
    (Option.some_get _).symm
  have loaded : replay (system Bool Nat) heldUp [(false, .pop), (false, .go false)] =
      some heldUpLoad := (Option.some_get _).symm
  have call : NullPop heldUp false [(false, .go false)] heldUpLoad :=
    ⟨loaded, fun a mem _ => ⟨false, congrArg Prod.snd (List.mem_singleton.mp mem)⟩, 0, rfl,
      by decide +kernel⟩
  obtain ⟨first, within, m, run, drained⟩ := truthful _ _ _ _ reached call
  cases first with
  | nil =>
    obtain rfl := Option.some.inj (called.symm.trans run)
    exact absurd drained (by decide +kernel)
  | cons a rest =>
    obtain ⟨rfl, rest_within⟩ := List.cons_prefix_cons.mp within
    obtain rfl := List.prefix_nil.mp rest_within
    obtain rfl := Option.some.inj (loaded.symm.trans run)
    exact absurd drained (by decide +kernel)

end Pot.Lfqueue
