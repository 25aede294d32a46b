import Pot.LfdequeueInvariant
import Pot.Tally

/-! What the calls return. Every pushed item has been returned, or is in the hands of one call, or
is at its index between top and the owner's bottom. -/
namespace Pot.Lfdequeue
open Transition

variable {Kid T : Type}

/-- A stealer that the owner overtakes returns the new item in place of the one it has won. -/
theorem overtaken [Inhabited T] [DecidableEq Kid] {s : State Kid T} {item : T} {b t : Int}
    {a : Nat} {k : Kid} (at_put : s.owner = .put item b a) (at_get : s.stealer k = .get t a)
    (same : t % (s.buffer a).size = b % (s.buffer a).size) (live : (s.buffer a).freed = false)
    (junk : Junk T) :
    ∃ u v, step s (.owner junk) = some u ∧ step u (.stealer k junk) = some v ∧
      v.stealer k = .setIdle (some (t, item)) := by
  let r := (s.buffer a).put b item
  let u : State Kid T := { s.setBuffer a r with owner := .pushBottom item b }
  have here : u.buffer a = r := setBuffer_self ..
  have found : u.read junk a t = item := by
    rw [State.read, here, if_neg (by rw [show r.freed = _ from live]; exact nofun)]
    change Function.update (s.buffer a).segment (b % (s.buffer a).size) item
      (t % (s.buffer a).size) = item
    rw [same, Function.update_self]
  refine ⟨u, u.setStealer k (.setIdle (some (t, item))), ?_, ?_, Function.update_self ..⟩
  · rw [step, at_put]
    rfl
  · have at_get : u.stealer k = .get t a := at_get
    rw [step, at_get, stealerStep, found]

section Hands
variable [DecidableEq T] (item : Int → T) (e : Int × T)

def Rest.holds : Rest T → Nat
  | .put _ _ => 0
  | .ret popped => if popped = e then 1 else 0

/-- An item that the owner has taken off the deque; before it is read, the one that is to be read. -/
def Owner.holds : Owner Kid T → Nat
  | .popLast _ _ t => if (t, item t) = e then 1 else 0
  | .popRestore _ popped => if popped = some e then 1 else 0
  | .popGet b _ _ => if (b - 1, item (b - 1)) = e then 1 else 0
  | .copy rest _ _ _ _ | .storeActive rest _ | .reclaim rest _ | .scanIdle rest _ _ _
  | .scanLast rest _ _ _ _ | .free rest _ _ => rest.holds e
  | _ => 0

def Stealer.holds : Stealer Kid T → Nat
  | .get t _ => if (t, item t) = e then 1 else 0
  | .setIdle stolen | .reloadActive stolen | .readId stolen _ | .storeId stolen _ =>
    if stolen = some e then 1 else 0
  | _ => 0

end Hands

def State.Here (s : State Kid T) (limit : Int) (e : Int × T) : Prop :=
  s.top ≤ e.1 ∧ e.1 < limit ∧ s.item e.1 = e.2

instance [DecidableEq T] (s : State Kid T) (limit : Int) (e : Int × T) : Decidable (s.Here limit e) :=
  inferInstanceAs (Decidable (_ ∧ _))

variable [DecidableEq T]

theorem count_toList (l : List (Int × T)) (popped : Option (Int × T)) (e : Int × T) :
    (l ++ popped.toList).count e = l.count e + if popped = some e then 1 else 0 := by
  cases popped with
  | none => simp
  | some x =>
    rw [Option.toList_some, Tally.count_push]
    simp only [Option.some.injEq]

theorem here_below {s : State Kid T} {limit : Int} (some : s.top < limit) (e : Int × T) :
    (if s.Here limit e then 1 else 0) =
      (if s.Here (limit - 1) e then 1 else 0) +
        if (limit - 1, s.item (limit - 1)) = e then 1 else 0 := by
  obtain ⟨i, x⟩ := e
  by_cases last : limit - 1 = i
  · subst last
    by_cases same : s.item (limit - 1) = x <;> simp [State.Here, same]
    all_goals omega
  · have kept : s.Here limit (i, x) ↔ s.Here (limit - 1) (i, x) :=
      and_congr_right fun _ => and_congr_left fun _ => by change i < limit ↔ i < limit - 1; omega
    rw [if_neg fun eq : (limit - 1, s.item (limit - 1)) = (i, x) => last (Prod.mk.inj eq).1]
    exact if_congr kept rfl rfl

theorem here_above {s : State Kid T} {limit : Int} (some : s.top < limit) (e : Int × T) :
    (if s.Here limit e then 1 else 0) =
      (if State.Here { s with top := s.top + 1 } limit e then 1 else 0) +
        if (s.top, s.item s.top) = e then 1 else 0 := by
  obtain ⟨i, x⟩ := e
  by_cases first : s.top = i
  · subst first
    by_cases same : s.item s.top = x <;> simp [State.Here, same]
    all_goals omega
  · have kept : s.Here limit (i, x) ↔ State.Here { s with top := s.top + 1 } limit (i, x) :=
      and_congr_left fun _ => by change s.top ≤ i ↔ s.top + 1 ≤ i; omega
    rw [if_neg fun eq : (s.top, s.item s.top) = (i, x) => first (Prod.mk.inj eq).1]
    exact if_congr kept rfl rfl

theorem here_pushed {s : State Kid T} {b : Int} (ordered : s.top ≤ b) (item : T) (e : Int × T) :
    (if State.Here { s with item := Function.update s.item b item } (b + 1) e then 1 else 0) =
      (if s.Here b e then 1 else 0) + if (b, item) = e then 1 else 0 := by
  obtain ⟨i, x⟩ := e
  by_cases last : b = i
  · subst last
    by_cases same : item = x <;> simp [State.Here, same]
    all_goals omega
  · have kept : State.Here { s with item := Function.update s.item b item } (b + 1) (i, x) ↔
        s.Here b (i, x) := by
      refine and_congr_right fun _ => ?_
      change i < b + 1 ∧ Function.update s.item b item i = x ↔ i < b ∧ s.item i = x
      rw [Function.update_of_ne (Ne.symm last)]
      exact and_congr_left fun _ => by omega
    rw [if_neg fun eq : (b, item) = (i, x) => last (Prod.mk.inj eq).1]
    exact if_congr kept rfl rfl

variable [Fintype Kid]

def Balance (s : State Kid T) (e : Int × T) (owner : Nat) (limit : Int) : Prop :=
  s.pushed.count e = s.returned.count e + owner + Tally.total (Stealer.holds s.item e) s.stealer +
    if s.Here limit e then 1 else 0

def Ledger (s : State Kid T) : Prop :=
  ∀ e, Balance s e (s.owner.holds s.item e) (s.owner.limit s.bottom)

theorem ledger_proceed {s : State Kid T} {rest : Rest T} {a : Nat}
    (h : ∀ e, Balance s e (rest.holds e) s.bottom) : Ledger (s.proceed a rest) := by
  cases rest with
  | put => exact h
  | ret popped =>
    intro e
    have before : Balance s e (if popped = e then 1 else 0) s.bottom := h e
    have returned := Tally.count_push s.returned popped e
    change s.pushed.count e = (s.returned ++ [popped]).count e + 0 +
      Tally.total (Stealer.holds s.item e) s.stealer + if s.Here s.bottom e then 1 else 0
    unfold Balance at before
    omega

theorem ledger_reclaims {s : State Kid T} {rest : Rest T} {a : Nat}
    (h : ∀ e, Balance s e (rest.holds e) s.bottom) : Ledger (s.reclaims rest a) := by
  simp only [State.reclaims]
  split
  · exact h
  · exact ledger_proceed h

theorem pushBottom_ledger {s : State Kid T} {item : T} {b : Int} (inv : Inv s) (h : Ledger s)
    (at_store : s.owner = .pushBottom item b) :
    Ledger { s with bottom := b + 1, owner := .idle, item := Function.update s.item b item,
                    pushed := s.pushed ++ [(b, item)] } := by
  intro e
  have before := h e
  have ordered := inv.core.ordered
  have own := inv.owner
  rw [at_store] at before ordered own
  obtain ⟨-, rfl, -⟩ := own
  have before : Balance s e 0 s.bottom := before
  have ordered : s.top ≤ s.bottom := ordered
  have pushed := Tally.count_push s.pushed (s.bottom, item) e
  have here := here_pushed ordered item e
  have hands : Tally.total (Stealer.holds (Function.update s.item s.bottom item) e) s.stealer =
      Tally.total (Stealer.holds s.item e) s.stealer := by
    apply Finset.sum_congr rfl
    intro k _
    have place := inv.core.stealers k
    cases hk : s.stealer k with
    | get t a =>
      rw [hk] at place
      have taken : t ≠ s.bottom := Int.ne_of_lt (Int.lt_of_lt_of_le place.1 ordered)
      simp only [Stealer.holds, Function.update_of_ne taken]
    | _ => rfl
  change (s.pushed ++ [(s.bottom, item)]).count e = s.returned.count e + 0 +
    Tally.total (Stealer.holds (Function.update s.item s.bottom item) e) s.stealer +
    if State.Here { s with item := Function.update s.item s.bottom item } (s.bottom + 1) e then 1
    else 0
  unfold Balance at before
  rw [hands, here, pushed]
  omega

theorem owner_ledger [Inhabited T] {s u : State Kid T} {junk : Junk T} (inv : Inv s) (h : Ledger s)
    (taken : ownerStep s junk s.owner = some u) : Ledger u := by
  have own := inv.owner
  unfold Ledger at h
  cases ho : s.owner with
  | idle => rw [ho] at taken; cases taken
  | pushTop | popBuffer | put | reclaim =>
    rw [ho] at taken h
    cases taken
    exact h
  | pushBuffer item b t =>
    rw [ho] at taken h
    cases taken
    split
    · exact h
    · exact ledger_reclaims h
  | pushBottom item b =>
    rw [ho] at taken
    cases taken
    exact pushBottom_ledger inv h ho
  | popBottom b a =>
    rw [ho] at taken h own
    cases taken
    obtain ⟨rfl, -⟩ := own
    exact h
  | popTop b a =>
    rw [ho] at taken h own
    cases taken
    split
    · exact h
    · split
      · exact h
      · intro e
        have before : Balance s e 0 b := h e
        have below := here_below (s := s) (show s.top < b by omega) e
        have at_bottom : s.bottom = b - 1 := own.1
        change s.pushed.count e = s.returned.count e +
          (if (b - 1, s.item (b - 1)) = e then 1 else 0) +
          Tally.total (Stealer.holds s.item e) s.stealer + if s.Here s.bottom e then 1 else 0
        unfold Balance at before
        rw [at_bottom]
        omega
  | popCas b a t =>
    rw [ho] at taken h own
    cases taken
    split
    · rename_i won
      subst won
      intro e
      have before : Balance s e 0 b := h e
      have inside : s.top < b := by have := own.2.2.1; omega
      have above := here_above inside e
      change s.pushed.count e = s.returned.count e + (if (s.top, s.item s.top) = e then 1 else 0) +
        Tally.total (Stealer.holds s.item e) s.stealer +
        if State.Here { s with top := s.top + 1 } b e then 1 else 0
      unfold Balance at before
      omega
    · exact h
  | popLast b a t =>
    rw [ho] at taken h own
    cases taken
    obtain ⟨-, rfl, -, -, here⟩ := own
    intro e
    rw [inv.core.read_active, here]
    have before : Balance s e (if (t, s.item t) = e then 1 else 0) b := h e
    change Balance s e (if some (t, s.item t) = some e then 1 else 0) b
    simpa only [Option.some.injEq] using before
  | popRestore b popped =>
    rw [ho] at taken h
    cases taken
    intro e
    have before : Balance s e (if popped = some e then 1 else 0) b := h e
    have returned := count_toList s.returned popped e
    change s.pushed.count e = (s.returned ++ popped.toList).count e + 0 +
      Tally.total (Stealer.holds s.item e) s.stealer + if s.Here b e then 1 else 0
    unfold Balance at before
    omega
  | popGet b a t =>
    rw [ho] at taken h own
    cases taken
    obtain ⟨-, rfl, -, -, -, here⟩ := own
    rw [inv.core.read_active, here]
    split
    · exact h
    · exact ledger_reclaims h
  | copy rest a buffer b i =>
    rw [ho] at taken h
    cases taken
    split <;> exact h
  | storeActive rest a =>
    rw [ho] at taken h
    cases taken
    exact ledger_reclaims h
  | scanIdle rest a min_id head =>
    rw [ho] at taken h
    cases head with
    | nil => cases taken; exact h
    | cons k next =>
      cases taken
      split <;> exact h
  | scanLast rest a min_id k next =>
    rw [ho] at taken h
    cases taken
    exact h
  | free rest a min_id =>
    rw [ho] at taken
    simp only [ownerStep] at taken
    split at taken
    · split at taken <;> cases taken
      · exact h
      · rw [ho] at h
        exact ledger_proceed h
    · rw [ho] at h
      cases taken
      exact ledger_proceed h

theorem initial_ledger [Inhabited T] : Ledger (initial Kid T) := by
  intro e
  have hands : Tally.total (Stealer.holds (initial Kid T).item e) (initial Kid T).stealer = 0 :=
    Tally.total_eq_zero.mpr fun _ => rfl
  have none : ¬ (initial Kid T).Here 0 e := fun here => absurd here.1 (Int.not_le.mpr here.2.1)
  change 0 = 0 + 0 + Tally.total (Stealer.holds (initial Kid T).item e) (initial Kid T).stealer +
    if (initial Kid T).Here 0 e then 1 else 0
  rw [hands, if_neg none]

variable [DecidableEq Kid]

theorem ledger_setStealer {s : State Kid T} (h : Ledger s) {k : Kid} {p : Stealer Kid T}
    (same : ∀ e, p.holds s.item e = (s.stealer k).holds s.item e) : Ledger (s.setStealer k p) := by
  intro e
  have before := h e
  have moved := Tally.total_update (Stealer.holds s.item e) s.stealer k p
  rw [same e] at moved
  unfold Balance at before
  change s.pushed.count e = s.returned.count e + s.owner.holds s.item e +
    Tally.total (Stealer.holds s.item e) (Function.update s.stealer k p) +
    if s.Here (s.owner.limit s.bottom) e then 1 else 0
  omega

theorem cas_ledger {s : State Kid T} {k : Kid} {t : Int} {a : Nat} (inv : Inv s) (h : Ledger s)
    (at_cas : s.stealer k = .cas t a) (won : s.top = t) :
    Ledger ({ s with top := t + 1 }.setStealer k (.get t a)) := by
  intro e
  have before := h e
  have place := inv.core.stealers k
  rw [at_cas] at place
  subst won
  have above := here_above (place.2.1 rfl).1 e
  have moved := Tally.total_update (Stealer.holds s.item e) s.stealer k (.get s.top a)
  rw [at_cas] at moved
  change s.pushed.count e = s.returned.count e + s.owner.holds s.item e +
    Tally.total (Stealer.holds s.item e) (Function.update s.stealer k (.get s.top a)) +
    if State.Here { s with top := s.top + 1 } (s.owner.limit s.bottom) e then 1 else 0
  unfold Balance at before
  simp only [Stealer.holds] at moved
  omega

theorem stealer_ledger {s u : State Kid T} {k : Kid} {junk : Junk T} (inv : Inv s) (h : Ledger s)
    (ok : Undisturbed s (.stealer k junk)) (taken : stealerStep s k junk (s.stealer k) = some u) :
    Ledger u := by
  have place := inv.core.stealers k
  cases hk : s.stealer k with
  | unregistered | registering | idle => rw [hk] at taken; cases taken
  | loadTop | loadActive | reloadActive | readId =>
    rw [hk] at taken
    cases taken
    exact ledger_setStealer h fun e => by rw [hk]; rfl
  | loadBottom t =>
    rw [hk] at taken
    cases taken
    apply ledger_setStealer h
    intro e
    rw [hk]
    split <;> rfl
  | cas t a =>
    rw [hk] at taken
    cases taken
    split
    · exact cas_ledger inv h hk ‹_›
    · exact ledger_setStealer h fun e => by rw [hk]; rfl
  | get t a =>
    rw [hk] at taken place
    cases taken
    simp only [Undisturbed, hk] at ok
    apply ledger_setStealer h
    intro e
    rw [hk, State.read, ok, if_neg Bool.false_ne_true, place.2.1]
    simp [Stealer.holds]
  | setIdle stolen =>
    rw [hk] at taken
    cases taken
    exact ledger_setStealer (s := s.setToken k { s.token k with was_idle := true }) h fun e => by
      change _ = (s.stealer k).holds s.item e
      rw [hk]
      rfl
  | storeId stolen id =>
    rw [hk] at taken
    cases taken
    intro e
    have before := h e
    have returned := count_toList s.returned stolen e
    have moved := Tally.total_update (Stealer.holds s.item e) s.stealer k .idle
    rw [hk] at moved
    change s.pushed.count e = (s.returned ++ stolen.toList).count e + s.owner.holds s.item e +
      Tally.total (Stealer.holds s.item e) (Function.update s.stealer k .idle) +
      if s.Here (s.owner.limit s.bottom) e then 1 else 0
    unfold Balance at before
    simp only [Stealer.holds] at moved
    omega

theorem register_ledger {s u : State Kid T} {k : Kid} {spurious : Bool} (h : Ledger s)
    (taken : registerStep s k spurious (s.stealer k) = some u) : Ledger u := by
  cases hk : s.stealer k with
  | unregistered =>
    rw [hk] at taken
    cases taken
    exact ledger_setStealer (s := s.setToken k ⟨0, true⟩) h fun e => by
      change _ = (s.stealer k).holds s.item e
      rw [hk]
      rfl
  | registering next =>
    rw [hk] at taken
    simp only [registerStep] at taken
    split at taken <;> cases taken
    · exact ledger_setStealer (s := { s with id_list := k :: next }) h fun e => by
        change _ = (s.stealer k).holds s.item e
        rw [hk]
        rfl
    · exact ledger_setStealer h fun e => by rw [hk]; rfl
  | _ => rw [hk] at taken; cases taken

theorem step_ledger [Inhabited T] {s u : State Kid T} {a : Act Kid T} (inv : Inv s) (h : Ledger s)
    (ok : Undisturbed s a) (taken : step s a = some u) : Ledger u := by
  cases a with
  | push | pop =>
    simp only [step] at taken
    split at taken <;> cases taken
    rename_i idle
    intro e
    have before := h e
    rw [idle] at before
    exact before
  | owner junk => exact owner_ledger inv h taken
  | register k spurious => exact register_ledger h taken
  | popBack k =>
    simp only [step] at taken
    split at taken <;> cases taken
    rename_i idle
    exact ledger_setStealer (s := s.setToken k { s.token k with was_idle := false }) h fun e => by
      change _ = (s.stealer k).holds s.item e
      rw [idle]
      rfl
  | stealer k junk => exact stealer_ledger inv h ok taken

theorem reached_ledger [Inhabited T] {s : State Kid T}
    (reached : ReachedUnder (system Kid T) Undisturbed s) : Inv s ∧ Ledger s :=
  reached.invariant (I := fun s => Inv s ∧ Ledger s)
    (fun s (eq : s = initial Kid T) => eq ▸ ⟨initial_inv, initial_ledger⟩)
    (fun _ _ _ hi ok taken => ⟨step_inv hi.1 ok taken, step_ledger hi.1 hi.2 ok taken⟩)

def State.quiet (s : State Kid T) : Prop :=
  s.owner = .idle ∧ ∀ k, s.stealer k = .idle ∨ s.stealer k = .unregistered

theorem quiet_conserves [Inhabited T] {s : State Kid T}
    (reached : ReachedUnder (system Kid T) Undisturbed s) (quiet : s.quiet) (i : Int) (x : T) :
    s.pushed.count (i, x) = s.returned.count (i, x) +
      if s.top ≤ i ∧ i < s.bottom ∧ (s.buffer s.active_buffer).get i = x then 1 else 0 := by
  obtain ⟨inv, ledger⟩ := reached_ledger reached
  obtain ⟨idle, idles⟩ := quiet
  have core := inv.core
  have balance := ledger (i, x)
  rw [idle] at core balance
  have hands : Tally.total (Stealer.holds s.item (i, x)) s.stealer = 0 :=
    Tally.total_eq_zero.mpr fun k => by rcases idles k with h | h <;> rw [h] <;> rfl
  have here : s.Here s.bottom (i, x) ↔
      s.top ≤ i ∧ i < s.bottom ∧ (s.buffer s.active_buffer).get i = x := by
    refine and_congr_right fun above => and_congr_right fun below => ?_
    rw [core.live i above below]
  have balance : Balance s (i, x) 0 s.bottom := balance
  unfold Balance at balance
  rw [hands] at balance
  rw [balance, if_congr here rfl rfl]
  rfl

/-- push, pop and pop_back in any interleaving that leaves the stealers undisturbed: every returned
item was pushed, at its index and as often, and with no call under way the others are in the
buffer; and where the owner does not leave them undisturbed, a stealer returns the wrong item. -/
theorem conserves [Inhabited T] {s : State Kid T}
    (reached : ReachedUnder (system Kid T) Undisturbed s) :
    (∀ e, s.returned.count e ≤ s.pushed.count e) ∧
    (s.quiet → ∀ i x, s.pushed.count (i, x) = s.returned.count (i, x) +
      if s.top ≤ i ∧ i < s.bottom ∧ (s.buffer s.active_buffer).get i = x then 1 else 0) ∧
    ∀ item b a k t junk, s.owner = .put item b a → s.stealer k = .get t a →
      t % (s.buffer a).size = b % (s.buffer a).size → (s.buffer a).freed = false →
      ∃ u v, step s (.owner junk) = some u ∧ step u (.stealer k junk) = some v ∧
        v.stealer k = .setIdle (some (t, item)) := by
  refine ⟨fun e => ?_, fun quiet => quiet_conserves reached quiet,
    fun _ _ _ _ _ junk at_put at_get same live => overtaken at_put at_get same live junk⟩
  have balance := (reached_ledger reached).2 e
  unfold Balance at balance
  omega

def junk : Junk Nat := ⟨0, 0⟩

def pushRun (item : Nat) : List (Act Bool Nat) := .push item :: List.replicate 4 (.owner junk)

def winRun (k : Bool) : List (Act Bool Nat) := .popBack k :: List.replicate 4 (.stealer k junk)

def returnRun (k : Bool) : List (Act Bool Nat) := List.replicate 5 (.stealer k junk)

def registerRun (k : Bool) : List (Act Bool Nat) := [.register k false, .register k false]

def stolenRun : List (Act Bool Nat) :=
  registerRun true ++ pushRun 7 ++ pushRun 8 ++ winRun true ++ returnRun true

def stolen : State Bool Nat :=
  (replay (system Bool Nat) (initial Bool Nat) stolenRun).get (by decide +kernel)

theorem conserves_stolen :
    stolen.returned = [(0, 7)] ∧ stolen.returned.count (0, 7) ≤ stolen.pushed.count (0, 7) ∧
    stolen.pushed.count (1, 8) = stolen.returned.count (1, 8) +
      if stolen.top ≤ 1 ∧ 1 < stolen.bottom ∧ (stolen.buffer stolen.active_buffer).get 1 = 8 then 1
      else 0 := by
  have clear : ∀ {s : State Bool Nat} {a : Nat} {n b : Int}, s.stealer true = .idle →
      s.stealer false = .unregistered → ∀ k t, s.stealer k = .get t a → t % n ≠ b % n := by
    intro s a n b hidle hnone k t at_get
    cases k
    · cases hnone.symm.trans at_get
    · cases hidle.symm.trans at_get
  have allowed : ReplaysUnder (system Bool Nat) Undisturbed (initial Bool Nat) stolenRun :=
    ⟨trivial, trivial, trivial, trivial, trivial, clear rfl rfl, trivial,
      trivial, trivial, trivial, clear rfl rfl, trivial,
      trivial, trivial, trivial, trivial, trivial, rfl, trivial, trivial, trivial, trivial, trivial⟩
  have reached : ReachedUnder (system Bool Nat) Undisturbed stolen :=
    (ReachedUnder.start rfl).replay stolenRun allowed (Option.some_get _).symm
  have quiet : stolen.quiet := by
    refine ⟨rfl, fun k => ?_⟩
    cases k
    · exact .inr rfl
    · exact .inl rfl
  obtain ⟨once, rest, -⟩ := conserves reached
  exact ⟨by decide +kernel, once (0, 7), rest quiet 1 8⟩

/-- The first stealer wins index 0 and waits, the second takes index 1, and the owner comes round
to the slot of index 0. -/
def overtakenRun : List (Act Bool Nat) :=
  registerRun true ++ registerRun false ++ (List.range 15).flatMap pushRun ++ winRun true ++
    winRun false ++ returnRun false ++ pushRun 15 ++ pushRun 16 ++ returnRun true

def late : State Bool Nat :=
  (replay (system Bool Nat) (initial Bool Nat) overtakenRun).get (by decide +kernel)

/-- The item pushed at index 16 is returned for index 0. -/
theorem late_get :
    ¬ ∀ s, Reached (system Bool Nat) s → ∀ e, s.returned.count e ≤ s.pushed.count e := by
  intro conserved
  have reached : Reached (system Bool Nat) late :=
    (Reached.start rfl).replay overtakenRun (Option.some_get _).symm
  have returned : late.returned.count (0, 16) = 1 := by decide +kernel
  have pushed : late.pushed.count (0, 16) = 0 := by decide +kernel
  have once := conserved late reached (0, 16)
  omega

end Pot.Lfdequeue
