import Mathlib.Data.Int.ModEq
import Mathlib.Tactic.Ring
import Pot.Lfdequeue

/-! What holds between owner and stealers: every index from top to the owner's bottom has its item
in the active buffer, and a stealer that is past its compare-exchange still finds the item it won
as long as the owner has not come round the ring to its slot. -/
namespace Pot.Lfdequeue
open Transition

variable {Kid T : Type}

theorem size_pos (a : RingBuffer T) : 0 < a.size :=
  Int.pow_pos (by decide)

theorem get_put_self (a : RingBuffer T) (i : Int) (item : T) : (a.put i item).get i = item :=
  Function.update_self ..

theorem get_put_of_ne {a : RingBuffer T} {i j : Int} (item : T) (other : j % a.size ≠ i % a.size) :
    (a.put i item).get j = a.get j :=
  Function.update_of_ne other ..

theorem setBuffer_self (s : State Kid T) (a : Nat) (r : RingBuffer T) :
    (s.setBuffer a r).buffer a = r :=
  Function.update_self ..

theorem setBuffer_of_ne (s : State Kid T) {a c : Nat} (r : RingBuffer T) (other : c ≠ a) :
    (s.setBuffer a r).buffer c = s.buffer c :=
  Function.update_of_ne other ..

theorem freed_setBuffer {s : State Kid T} {a c : Nat} {r : RingBuffer T}
    (freed : ((s.setBuffer a r).buffer c).freed = true) :
    (c = a ∧ r.freed = true) ∨ (s.buffer c).freed = true := by
  by_cases same : c = a
  · rw [same, setBuffer_self] at freed
    exact .inl ⟨same, freed⟩
  · rw [setBuffer_of_ne s r same] at freed
    exact .inr freed

theorem get_setBuffer {s : State Kid T} {a : Nat} {r : RingBuffer T}
    (slots : ∀ j, r.get j = (s.buffer a).get j) (c : Nat) (j : Int) :
    ((s.setBuffer a r).buffer c).get j = (s.buffer c).get j := by
  by_cases same : c = a
  · rw [same, setBuffer_self, slots]
  · rw [setBuffer_of_ne s r same]

theorem slot_ne {i j n : Int} (after : i < j) (near : j < i + n) : i % n ≠ j % n := by
  intro same
  have divides : n ∣ j - i := Int.ModEq.dvd same
  have := Int.le_of_dvd (by omega) divides
  omega

theorem grow_size (a : RingBuffer T) [Inhabited T] :
    (newBuffer (a.log_size + 1) : RingBuffer T).size = 2 * a.size := by
  simp only [RingBuffer.size, newBuffer, pow_succ]
  ring

theorem shrink_size (a : RingBuffer T) [Inhabited T] (large : 1 < a.size) :
    2 * (newBuffer (a.log_size - 1) : RingBuffer T).size = a.size := by
  cases hl : a.log_size with
  | zero => simp [RingBuffer.size, hl] at large
  | succ k =>
    simp only [RingBuffer.size, newBuffer, hl, Nat.add_sub_cancel, pow_succ]
    ring

/-- The end of the items that are the owner's to give: a pop gives up its claim to the last one
when it loads top and finds more than one. -/
def Owner.limit (bottom : Int) : Owner Kid T → Int
  | .popTop b _ | .popCas b _ _ | .popLast b _ _ | .popRestore b _ => b
  | _ => bottom

/-- The rest of a push or pop has room in a buffer of this size. -/
def Rest.Fits (s : State Kid T) (size : Int) : Rest T → Prop
  | .put _ b => b = s.bottom ∧ b + 2 ≤ s.top + size
  | .ret _ => s.bottom + 1 ≤ s.top + size

def OwnerOk (s : State Kid T) : Owner Kid T → Prop
  | .idle => True
  | .pushTop _ b | .popBuffer b => b = s.bottom
  | .pushBuffer _ b t => b = s.bottom ∧ t ≤ s.top ∧ b + 1 ≤ t + (s.buffer s.active_buffer).size
  | .put item b a =>
    a = s.active_buffer ∧ (Rest.put item b).Fits s (s.buffer s.active_buffer).size
  | .pushBottom item b =>
    (s.buffer s.active_buffer).get b = item ∧
      (Rest.put item b).Fits s (s.buffer s.active_buffer).size
  | .popBottom b a => b = s.bottom ∧ a = s.active_buffer
  | .popTop b a => s.bottom = b - 1 ∧ a = s.active_buffer
  | .popCas b a t => s.bottom = b - 1 ∧ a = s.active_buffer ∧ b = t + 1 ∧ t ≤ s.top
  | .popLast b a t =>
    s.bottom = b - 1 ∧ a = s.active_buffer ∧ b = t + 1 ∧ s.top = b ∧
      (s.buffer s.active_buffer).get t = s.item t
  | .popRestore b _ => s.bottom = b - 1 ∧ s.top = b
  | .popGet b a t =>
    s.bottom = b - 1 ∧ a = s.active_buffer ∧ t ≤ s.top ∧ t + 1 < b ∧
      b + 1 ≤ t + (s.buffer s.active_buffer).size ∧
      (s.buffer s.active_buffer).get (b - 1) = s.item (b - 1)
  | .copy rest a new b i =>
    a = s.active_buffer ∧ new = s.active_buffer + 1 ∧ (s.buffer new).freed = false ∧ s.bottom ≤ b ∧
      rest.Fits s (s.buffer new).size ∧
      ∃ t, t ≤ s.top ∧ t ≤ i ∧ b ≤ t + (s.buffer new).size ∧
        ∀ j, t ≤ j → j < i → (s.buffer new).get j = (s.buffer s.active_buffer).get j
  | .storeActive rest new =>
    new = s.active_buffer + 1 ∧ (s.buffer new).freed = false ∧ rest.Fits s (s.buffer new).size ∧
      ∀ j, s.top ≤ j → j < s.bottom → (s.buffer new).get j = s.item j
  | .reclaim rest a => a = s.active_buffer ∧ rest.Fits s (s.buffer s.active_buffer).size
  | .scanIdle rest a min_id _ | .scanLast rest a min_id _ _ | .free rest a min_id =>
    a = s.active_buffer ∧ rest.Fits s (s.buffer s.active_buffer).size ∧ min_id ≤ s.active_buffer

/-- Each place of a stealer: its top is out of date or has its item at hand. -/
def StealerOk (s : State Kid T) (limit : Int) : Stealer Kid T → Prop
  | .loadBottom t => t ≤ s.top
  | .loadActive t => t ≤ s.top ∧ (t = s.top → t < limit)
  | .cas t a =>
    t ≤ s.top ∧ (t = s.top → t < limit ∧ (s.buffer a).get t = s.item t) ∧ a ≤ s.active_buffer
  | .get t a => t < s.top ∧ (s.buffer a).get t = s.item t ∧ a ≤ s.active_buffer
  | _ => True

structure Core (s : State Kid T) (limit : Int) : Prop where
  ordered : s.top ≤ limit
  room : limit + 1 ≤ s.top + (s.buffer s.active_buffer).size
  live : ∀ j, s.top ≤ j → j < limit → (s.buffer s.active_buffer).get j = s.item j
  kept : ∀ a, (s.buffer a).freed = true → a < s.active_buffer
  stealers : ∀ k, StealerOk s limit (s.stealer k)

structure Inv (s : State Kid T) : Prop where
  core : Core s (s.owner.limit s.bottom)
  owner : OwnerOk s s.owner

theorem StealerOk.mono {s u : State Kid T} {limit limit' : Int} {p : Stealer Kid T}
    (h : StealerOk s limit p) (ordered : s.top ≤ limit) (top : s.top ≤ u.top)
    (still : u.top = s.top → s.top < limit → s.top < limit')
    (active : s.active_buffer ≤ u.active_buffer)
    (gets : ∀ t a, p = .cas t a ∧ t = s.top ∨ p = .get t a → t < limit → a ≤ s.active_buffer →
      (u.buffer a).get t = (s.buffer a).get t)
    (items : ∀ i, i ≤ s.top → i < limit → u.item i = s.item i) : StealerOk u limit' p := by
  cases p with
  | loadBottom t => exact Int.le_trans h top
  | loadActive t =>
    refine ⟨Int.le_trans h.1 top, fun now => ?_⟩
    have same : t = s.top := by have := h.1; omega
    exact same ▸ still (by omega) (same ▸ h.2 same)
  | cas t a =>
    obtain ⟨seen, won, old⟩ := h
    refine ⟨Int.le_trans seen top, fun now => ?_, Nat.le_trans old active⟩
    have same : t = s.top := by omega
    obtain ⟨inside, here⟩ := won same
    refine ⟨same ▸ still (by omega) (same ▸ inside), ?_⟩
    rw [gets t a (.inl ⟨rfl, same⟩) inside old, items t seen inside]
    exact here
  | get t a =>
    obtain ⟨before, here, old⟩ := h
    refine ⟨by omega, ?_, Nat.le_trans old active⟩
    rw [gets t a (.inr rfl) (by omega) old, items t (by omega) (by omega)]
    exact here
  | _ => trivial

theorem Core.congr {s u : State Kid T} {limit limit' : Int} (h : Core s limit)
    (same : limit' = limit) (top : u.top = s.top) (active : u.active_buffer = s.active_buffer)
    (buffer : u.buffer = s.buffer) (item : u.item = s.item) (stealer : u.stealer = s.stealer) :
    Core u limit' where
  ordered := by rw [top, same]; exact h.ordered
  room := by rw [top, same, buffer, active]; exact h.room
  live := by rw [top, same, buffer, active, item]; exact h.live
  kept := by rw [buffer, active]; exact h.kept
  stealers k := by
    rw [stealer]
    have place := h.stealers k
    cases hk : s.stealer k <;> rw [hk] at place <;>
      simp only [StealerOk, top, same, buffer, active, item] <;> exact place

theorem Inv.goto {s : State Kid T} (h : Inv s) {o : Owner Kid T} (own : OwnerOk s o)
    (limit : o.limit s.bottom = s.owner.limit s.bottom) : Inv { s with owner := o } :=
  ⟨h.core.congr limit rfl rfl rfl rfl rfl, own⟩

theorem Core.proceed {s : State Kid T} {rest : Rest T} {a : Nat} (h : Core s s.bottom)
    (active : a = s.active_buffer) (fits : rest.Fits s (s.buffer s.active_buffer).size) :
    Inv (s.proceed a rest) := by
  cases rest with
  | put item b => exact ⟨h.congr rfl rfl rfl rfl rfl rfl, active, fits⟩
  | ret popped => exact ⟨h.congr rfl rfl rfl rfl rfl rfl, trivial⟩

theorem Core.reclaims {s : State Kid T} {rest : Rest T} {a : Nat} (h : Core s s.bottom)
    (active : a = s.active_buffer) (fits : rest.Fits s (s.buffer s.active_buffer).size) :
    Inv (s.reclaims rest a) := by
  simp only [State.reclaims]
  split
  · exact ⟨h.congr rfl rfl rfl rfl rfl rfl, active, fits⟩
  · exact h.proceed active fits

theorem Core.contents {s u : State Kid T} {limit : Int} (h : Core s limit) (top : u.top = s.top)
    (active : u.active_buffer = s.active_buffer) (item : u.item = s.item)
    (stealer : u.stealer = s.stealer)
    (size : (u.buffer s.active_buffer).size = (s.buffer s.active_buffer).size)
    (gets : ∀ a i, a ≤ s.active_buffer → (u.buffer a).get i = (s.buffer a).get i)
    (kept : ∀ a, (u.buffer a).freed = true → a < s.active_buffer) : Core u limit where
  ordered := by rw [top]; exact h.ordered
  room := by rw [top, active, size]; exact h.room
  live j above below := by
    rw [active, item, gets _ _ (Nat.le_refl _)]
    exact h.live j (top ▸ above) below
  kept := by rw [active]; exact kept
  stealers k := by
    rw [stealer]
    exact (h.stealers k).mono h.ordered (Int.le_of_eq top.symm) (fun _ => id)
      (Nat.le_of_eq active.symm) (fun t a _ _ old => gets a t old) (fun i _ _ => by rw [item])

theorem Core.resize [Inhabited T] {s : State Kid T} {rest : Rest T} {a : Nat} {b t : Int}
    {log_size : Nat} (h : Core s s.bottom) (active : a = s.active_buffer) (below : s.bottom ≤ b)
    (old : t ≤ s.top) (window : b ≤ t + (newBuffer log_size : RingBuffer T).size)
    (fits : rest.Fits s (newBuffer log_size : RingBuffer T).size) :
    Inv (s.resize rest a b t log_size) := by
  subst active
  have other : ∀ a, a ≤ s.active_buffer →
      (s.setBuffer (s.active_buffer + 1) (newBuffer log_size)).buffer a = s.buffer a :=
    fun a old => setBuffer_of_ne s _ (by omega)
  have fresh := setBuffer_self s (s.active_buffer + 1) (newBuffer log_size)
  refine ⟨h.contents rfl rfl rfl rfl (congrArg _ (other _ (Nat.le_refl _)))
    (fun a i old => congrArg (RingBuffer.get · i) (other a old)) fun a freed => ?_,
    rfl, rfl, congrArg RingBuffer.freed fresh, below, fresh ▸ fits, t, old, Int.le_refl t,
    fresh ▸ window, fun j above below => absurd above (Int.not_le.mpr below)⟩
  rcases freed_setBuffer freed with ⟨-, none⟩ | before
  · cases none
  · exact h.kept a before

/-- The owner never puts an item where a stealer has yet to look for the one it has won, and no
stealer looks into a buffer that has been freed. -/
def Undisturbed (s : State Kid T) : Act Kid T → Prop
  | .owner _ =>
    match s.owner with
    | .put _ b a => ∀ k t, s.stealer k = .get t a → t % (s.buffer a).size ≠ b % (s.buffer a).size
    | _ => True
  | .stealer k _ =>
    match s.stealer k with
    | .get _ a => (s.buffer a).freed = false
    | _ => True
  | _ => True

theorem put_inv {s : State Kid T} {item : T} {b : Int} {a : Nat} (h : Inv s)
    (at_put : s.owner = .put item b a)
    (clear : ∀ k t, s.stealer k = .get t a → t % (s.buffer a).size ≠ b % (s.buffer a).size) :
    Inv { s.setBuffer a ((s.buffer a).put b item) with owner := .pushBottom item b } := by
  obtain ⟨core, own⟩ := h
  rw [at_put] at core own
  obtain ⟨rfl, rfl, room⟩ := own
  let r := (s.buffer s.active_buffer).put s.bottom item
  have here : (s.setBuffer s.active_buffer r).buffer s.active_buffer = r := setBuffer_self ..
  have kept : ∀ j, s.top ≤ j → j < s.bottom → r.get j = (s.buffer s.active_buffer).get j :=
    fun j above below => get_put_of_ne item (slot_ne below (by omega))
  refine ⟨⟨core.ordered, ?_, ?_, ?_, ?_⟩, ?_, rfl, ?_⟩
  · change s.bottom + 1 ≤ s.top + ((s.setBuffer s.active_buffer r).buffer s.active_buffer).size
    rw [here]
    exact core.room
  · intro j above below
    change ((s.setBuffer s.active_buffer r).buffer s.active_buffer).get j = s.item j
    rw [here, kept j above below]
    exact core.live j above below
  · intro a freed
    rcases freed_setBuffer freed with ⟨same, here⟩ | before
    · exact same ▸ core.kept _ here
    · exact core.kept a before
  · intro k
    refine (core.stealers k).mono core.ordered (Int.le_refl _) (fun _ => id) (Nat.le_refl _) ?_
      fun _ _ _ => rfl
    intro t a at_pc below old
    change ((s.setBuffer s.active_buffer r).buffer a).get t = (s.buffer a).get t
    by_cases same : a = s.active_buffer
    · rw [same, here]
      rcases at_pc with ⟨-, now⟩ | at_get
      · exact kept t (Int.le_of_eq now.symm) below
      · exact get_put_of_ne item (clear k t (same ▸ at_get))
    · rw [setBuffer_of_ne s r same]
  · change ((s.setBuffer s.active_buffer r).buffer s.active_buffer).get s.bottom = item
    rw [here]
    exact get_put_self ..
  · change s.bottom + 2 ≤ s.top + ((s.setBuffer s.active_buffer r).buffer s.active_buffer).size
    rw [here]
    exact room

theorem Core.read_active {s : State Kid T} {limit : Int} (h : Core s limit) (junk : Junk T)
    (i : Int) : s.read junk s.active_buffer i = (s.buffer s.active_buffer).get i :=
  if_neg fun freed => Nat.lt_irrefl _ (h.kept _ freed)

theorem pushBottom_inv {s : State Kid T} {item : T} {b : Int} (h : Inv s)
    (at_store : s.owner = .pushBottom item b) :
    Inv { s with bottom := b + 1, owner := .idle, item := Function.update s.item b item,
                 pushed := s.pushed ++ [(b, item)] } := by
  obtain ⟨core, own⟩ := h
  rw [at_store] at core own
  obtain ⟨put, rfl, room⟩ := own
  have ordered : s.top ≤ s.bottom := core.ordered
  refine ⟨⟨Int.le_add_one ordered, ?_, ?_, core.kept, fun k => ?_⟩, trivial⟩
  · change s.bottom + 1 + 1 ≤ s.top + (s.buffer s.active_buffer).size
    omega
  · intro j above below
    change (s.buffer s.active_buffer).get j = Function.update s.item s.bottom item j
    by_cases last : j = s.bottom
    · rw [last, Function.update_self]
      exact put
    · rw [Function.update_of_ne last]
      have below : j < s.bottom + 1 := below
      exact core.live j above (by change j < s.bottom; omega)
  · refine (core.stealers k).mono ordered (Int.le_refl _) (fun _ inside => Int.lt_add_one_of_le
      (Int.le_of_lt inside)) (Nat.le_refl _) (fun _ _ _ _ _ => rfl) fun i _ below => ?_
    exact Function.update_of_ne (Int.ne_of_lt below) ..

theorem copy_inv {s : State Kid T} {junk : Junk T} {rest : Rest T} {a buffer : Nat} {b i : Int}
    (h : Inv s) (at_copy : s.owner = .copy rest a buffer b i) (more : i < b) :
    Inv { s.setBuffer buffer ((s.buffer buffer).put i (s.read junk a i)) with
          owner := .copy rest a buffer b (i + 1) } := by
  obtain ⟨core, own⟩ := h
  rw [at_copy] at core own
  obtain ⟨rfl, rfl, fresh, below, fits, t, old, from_, window, copied⟩ := own
  let r := (s.buffer (s.active_buffer + 1)).put i (s.read junk s.active_buffer i)
  have here : (s.setBuffer (s.active_buffer + 1) r).buffer (s.active_buffer + 1) = r :=
    setBuffer_self ..
  have other : ∀ c, c ≤ s.active_buffer →
      (s.setBuffer (s.active_buffer + 1) r).buffer c = s.buffer c :=
    fun c old => setBuffer_of_ne s r (by omega)
  refine ⟨core.contents rfl rfl rfl rfl (congrArg _ (other _ (Nat.le_refl _)))
    (fun c j old => congrArg (RingBuffer.get · j) (other c old)) fun c freed => ?_,
    rfl, rfl, ?_, below, ?_, t, old, by omega, ?_, ?_⟩
  · rcases freed_setBuffer freed with ⟨-, new⟩ | before
    · cases fresh.symm.trans new
    · exact core.kept c before
  · exact (congrArg RingBuffer.freed here).trans fresh
  · exact (congrArg RingBuffer.size here).symm ▸ fits
  · change b ≤ t + ((s.setBuffer (s.active_buffer + 1) r).buffer (s.active_buffer + 1)).size
    rw [here]
    exact window
  · intro j above before
    change ((s.setBuffer (s.active_buffer + 1) r).buffer (s.active_buffer + 1)).get j =
      ((s.setBuffer (s.active_buffer + 1) r).buffer s.active_buffer).get j
    rw [here, other _ (Nat.le_refl _)]
    by_cases last : j = i
    · rw [last, get_put_self]
      exact core.read_active junk i
    · rw [get_put_of_ne _ (slot_ne (by omega) (by omega))]
      exact copied j above (by omega)

theorem copied_inv {s : State Kid T} {rest : Rest T} {a buffer : Nat} {b i : Int} (h : Inv s)
    (at_copy : s.owner = .copy rest a buffer b i) (last : b ≤ i) :
    Inv { s.setBuffer a { s.buffer a with next := some buffer } with
          owner := .storeActive rest buffer } := by
  obtain ⟨core, own⟩ := h
  rw [at_copy] at core own
  obtain ⟨rfl, rfl, fresh, below, fits, t, old, -, -, copied⟩ := own
  let r := { s.buffer s.active_buffer with next := some (s.active_buffer + 1) }
  have here : (s.setBuffer s.active_buffer r).buffer s.active_buffer = r := setBuffer_self ..
  have other : ∀ c, c ≠ s.active_buffer → (s.setBuffer s.active_buffer r).buffer c = s.buffer c :=
    fun c => setBuffer_of_ne s r
  have next := other (s.active_buffer + 1) (by omega)
  have size : r.size = (s.buffer s.active_buffer).size := rfl
  refine ⟨core.contents rfl rfl rfl rfl ((congrArg RingBuffer.size here).trans size)
    (fun c j _ => get_setBuffer (r := r) (fun _ => rfl) c j) fun c freed => ?_, rfl, ?_, ?_, ?_⟩
  · rcases freed_setBuffer freed with ⟨same, here⟩ | before
    · exact same ▸ core.kept _ here
    · exact core.kept c before
  · exact (congrArg RingBuffer.freed next).trans fresh
  · exact (congrArg RingBuffer.size next).symm ▸ fits
  · intro j above inside
    have inside : j < s.bottom := inside
    have above : s.top ≤ j := above
    change ((s.setBuffer s.active_buffer r).buffer (s.active_buffer + 1)).get j = s.item j
    rw [next, copied j (by omega) (by omega)]
    exact core.live j above inside

theorem storeActive_inv {s : State Kid T} {rest : Rest T} {a : Nat} (h : Inv s)
    (at_store : s.owner = .storeActive rest a) :
    Inv ({ s with active_buffer := a }.reclaims rest a) := by
  obtain ⟨core, own⟩ := h
  rw [at_store] at core own
  obtain ⟨rfl, fresh, fits, copied⟩ := own
  have room : s.bottom + 1 ≤ s.top + (s.buffer (s.active_buffer + 1)).size := by
    cases rest with
    | put item b =>
      obtain ⟨rfl, room⟩ := fits
      omega
    | ret => exact fits
  have core' : Core { s with active_buffer := s.active_buffer + 1 } s.bottom :=
    ⟨core.ordered, room, copied, fun c freed => Nat.lt_succ_of_lt (core.kept c freed), fun k =>
      (core.stealers k).mono core.ordered (Int.le_refl _) (fun _ => id) (Nat.le_succ _)
        (fun _ _ _ _ _ => rfl) fun _ _ _ => rfl⟩
  exact core'.reclaims rfl fits

theorem free_inv {s : State Kid T} {rest : Rest T} {a min_id reclaimed : Nat} (h : Inv s)
    (at_free : s.owner = .free rest a min_id) (old : reclaimed < min_id) (unlinked : Option Nat) :
    Inv { s.setBuffer reclaimed { s.buffer reclaimed with freed := true } with
          unlinked := unlinked } := by
  obtain ⟨core, own⟩ := h
  have own' := own
  rw [at_free] at own' core
  obtain ⟨rfl, fits, bound⟩ := own'
  let r := { s.buffer reclaimed with freed := true }
  have active : (s.setBuffer reclaimed r).buffer s.active_buffer = s.buffer s.active_buffer :=
    setBuffer_of_ne s r (by omega)
  have owner : { s.setBuffer reclaimed r with unlinked := unlinked }.owner = s.owner := rfl
  constructor
  · rw [owner, at_free]
    refine core.contents rfl rfl rfl rfl (congrArg _ active)
      (fun c j _ => get_setBuffer (r := r) (fun _ => rfl) c j) fun c freed => ?_
    rcases freed_setBuffer freed with ⟨same, -⟩ | before
    · omega
    · exact core.kept c before
  · rw [owner, at_free]
    exact ⟨rfl, (congrArg RingBuffer.size active).symm ▸ fits, bound⟩

theorem claim_inv {s : State Kid T} {b : Int} {a : Nat} (h : Inv s)
    (at_load : s.owner = .popTop b a) (more : s.top + 1 < b) :
    Inv { s with owner := .popGet b a s.top } := by
  obtain ⟨core, own⟩ := h
  rw [at_load] at core own
  obtain ⟨below, rfl⟩ := own
  have room : b + 1 ≤ s.top + (s.buffer s.active_buffer).size := core.room
  refine ⟨⟨?_, ?_, fun j above inside => ?_, core.kept, fun k => ?_⟩, below, rfl, Int.le_refl _, more,
    room, core.live (b - 1) (by omega) (Int.sub_one_lt_of_le (Int.le_refl b))⟩
  · change s.top ≤ s.bottom
    omega
  · change s.bottom + 1 ≤ s.top + (s.buffer s.active_buffer).size
    omega
  · have inside : j < s.bottom := inside
    exact core.live j above (by change j < b; omega)
  · refine (core.stealers k).mono core.ordered (Int.le_refl _) (fun _ _ => ?_) (Nat.le_refl _)
      (fun _ _ _ _ _ => rfl) fun _ _ _ => rfl
    change s.top < s.bottom
    omega

theorem won_inv {s : State Kid T} {b : Int} {a : Nat} {t : Int} (h : Inv s)
    (at_cas : s.owner = .popCas b a t) (won : s.top = t) :
    Inv { s with top := t + 1, owner := .popLast b a t } := by
  obtain ⟨core, own⟩ := h
  rw [at_cas] at core own
  obtain ⟨below, rfl, rfl, -⟩ := own
  subst won
  have room : s.top + 1 + 1 ≤ s.top + (s.buffer s.active_buffer).size := core.room
  refine ⟨⟨Int.le_refl _, ?_, fun j above inside => ?_, core.kept, fun k => ?_⟩, below, rfl, rfl, rfl,
    core.live s.top (Int.le_refl _) (Int.lt_succ _)⟩
  · change s.top + 1 + 1 ≤ s.top + 1 + (s.buffer s.active_buffer).size
    omega
  · exact absurd above (Int.not_le.mpr inside)
  · exact (core.stealers k).mono core.ordered (Int.le_of_lt (Int.lt_succ _))
      (fun now => by have now : s.top + 1 = s.top := now; omega) (Nat.le_refl _)
      (fun _ _ _ _ _ => rfl) fun _ _ _ => rfl

theorem push_room_inv [Inhabited T] {s : State Kid T} {item : T} {b t : Int} (h : Inv s)
    (at_load : s.owner = .pushBuffer item b t) :
    Inv (if b - t ≥ (s.buffer s.active_buffer).size - 1
      then s.resize (.put item b) s.active_buffer b t ((s.buffer s.active_buffer).log_size + 1)
      else s.reclaims (.put item b) s.active_buffer) := by
  obtain ⟨core, own⟩ := h
  rw [at_load] at core own
  obtain ⟨rfl, old, room⟩ := own
  have pos := size_pos (s.buffer s.active_buffer)
  split
  · have grown := grow_size (s.buffer s.active_buffer)
    exact Core.resize core rfl (Int.le_refl _) old (by omega) ⟨rfl, by omega⟩
  · exact Core.reclaims core rfl ⟨rfl, by omega⟩

theorem popGet_inv [Inhabited T] {s : State Kid T} {b t : Int} {a : Nat} (h : Inv s)
    (at_get : s.owner = .popGet b a t) (popped : Int × T) :
    Inv (if b - t ≤ (s.buffer a).size / 3 ∧ b - t > 2 ^ log_initial_size
      then s.resize (.ret popped) a b t ((s.buffer a).log_size - 1)
      else s.reclaims (.ret popped) a) := by
  obtain ⟨core, own⟩ := h
  rw [at_get] at core own
  obtain ⟨below, rfl, old, more, room, -⟩ := own
  split
  · rename_i small
    simp only [log_initial_size] at small
    have halved := shrink_size (s.buffer s.active_buffer) (by omega)
    apply Core.resize core rfl (by omega) old (by omega)
    change s.bottom + 1 ≤
      s.top + (newBuffer ((s.buffer s.active_buffer).log_size - 1) : RingBuffer T).size
    omega
  · exact Core.reclaims core rfl core.room

theorem owner_inv [Inhabited T] {s u : State Kid T} {junk : Junk T} (h : Inv s)
    (ok : Undisturbed s (.owner junk)) (taken : ownerStep s junk s.owner = some u) : Inv u := by
  have own := h.owner
  have ordered := h.core.ordered
  have room := h.core.room
  cases ho : s.owner with
  | idle => rw [ho] at taken; cases taken
  | pushTop item b =>
    rw [ho] at taken own room
    cases taken
    exact h.goto ⟨own, Int.le_refl _, own ▸ room⟩ (by rw [ho]; rfl)
  | pushBuffer item b t =>
    rw [ho] at taken
    cases taken
    exact push_room_inv h ho
  | put item b a =>
    rw [ho] at taken
    cases taken
    simp only [Undisturbed, ho] at ok
    exact put_inv h ho ok
  | pushBottom item b =>
    rw [ho] at taken
    cases taken
    exact pushBottom_inv h ho
  | popBuffer b =>
    rw [ho] at taken own
    cases taken
    exact h.goto ⟨own, rfl⟩ (by rw [ho]; rfl)
  | popBottom b a =>
    rw [ho] at taken own
    cases taken
    obtain ⟨rfl, active⟩ := own
    exact ⟨h.core.congr (by rw [ho]; rfl) rfl rfl rfl rfl rfl, rfl, active⟩
  | popTop b a =>
    rw [ho] at taken own ordered
    cases taken
    have ordered : s.top ≤ b := ordered
    obtain ⟨below, active⟩ := own
    split
    · exact h.goto ⟨below, by omega⟩ (by rw [ho]; rfl)
    · split
      · exact h.goto ⟨below, active, by omega, Int.le_refl _⟩ (by rw [ho]; rfl)
      · exact claim_inv h ho (by omega)
  | popCas b a t =>
    rw [ho] at taken own ordered
    cases taken
    have ordered : s.top ≤ b := ordered
    obtain ⟨below, active, last, old⟩ := own
    split
    · exact won_inv h ho ‹_›
    · exact h.goto ⟨below, by omega⟩ (by rw [ho]; rfl)
  | popLast b a t =>
    rw [ho] at taken own
    cases taken
    exact h.goto ⟨own.1, own.2.2.2.1⟩ (by rw [ho]; rfl)
  | popRestore b popped =>
    rw [ho] at taken own
    cases taken
    exact ⟨h.core.congr (by rw [ho]; rfl) rfl rfl rfl rfl rfl, trivial⟩
  | popGet b a t =>
    rw [ho] at taken
    cases taken
    exact popGet_inv h ho _
  | copy rest a buffer b i =>
    rw [ho] at taken
    cases taken
    split
    · exact copy_inv h ho ‹_›
    · exact copied_inv h ho (Int.not_lt.mp ‹_›)
  | storeActive rest a =>
    rw [ho] at taken
    cases taken
    exact storeActive_inv h ho
  | reclaim rest a =>
    rw [ho] at taken own
    cases taken
    exact h.goto ⟨own.1, own.2, Nat.le_of_eq own.1⟩ (by rw [ho]; rfl)
  | scanIdle rest a min_id head =>
    rw [ho] at taken own
    cases head with
    | nil =>
      cases taken
      exact h.goto own (by rw [ho]; rfl)
    | cons k next =>
      cases taken
      split
      · exact h.goto own (by rw [ho]; rfl)
      · exact h.goto own (by rw [ho]; rfl)
  | scanLast rest a min_id k next =>
    rw [ho] at taken own
    cases taken
    exact h.goto ⟨own.1, own.2.1, Nat.le_trans (Nat.min_le_left ..) own.2.2⟩ (by rw [ho]; rfl)
  | free rest a min_id =>
    rw [ho] at taken own
    have core : Core s s.bottom := h.core.congr (by rw [ho]; rfl) rfl rfl rfl rfl rfl
    simp only [ownerStep] at taken
    split at taken
    · split at taken <;> cases taken
      · exact free_inv h ho ‹_› _
      · exact core.proceed own.1 own.2.1
    · cases taken
      exact core.proceed own.1 own.2.1

/-- A stealer's compare-exchange takes nothing from what the owner relies on. -/
theorem OwnerOk.advance {s : State Kid T} {o : Owner Kid T} (h : OwnerOk s o)
    (inside : s.top < o.limit s.bottom) : OwnerOk { s with top := s.top + 1 } o := by
  have fits : ∀ {size : Int} {rest : Rest T}, rest.Fits s size →
      rest.Fits { s with top := s.top + 1 } size := by
    intro size rest fits
    cases rest with
    | put item b => exact ⟨fits.1, by have := fits.2; change b + 2 ≤ s.top + 1 + size; omega⟩
    | ret => change s.bottom + 1 ≤ s.top + 1 + size; have : s.bottom + 1 ≤ s.top + size := fits; omega
  have later : ∀ {t : Int}, t ≤ s.top → t ≤ s.top + 1 := fun old => by omega
  cases o with
  | idle | pushTop | popBuffer | popBottom | popTop => exact h
  | pushBuffer item b t => exact ⟨h.1, later h.2.1, h.2.2⟩
  | put item b a => exact ⟨h.1, fits h.2⟩
  | pushBottom item b => exact ⟨h.1, fits h.2⟩
  | popCas b a t => exact ⟨h.1, h.2.1, h.2.2.1, later h.2.2.2⟩
  | popLast b a t => exact absurd h.2.2.2.1 (Int.ne_of_lt inside)
  | popRestore b popped => exact absurd h.2 (Int.ne_of_lt inside)
  | popGet b a t => exact ⟨h.1, h.2.1, later h.2.2.1, h.2.2.2⟩
  | copy rest a buffer b i =>
    obtain ⟨active, next, fresh, below, room, t, old, copied⟩ := h
    exact ⟨active, next, fresh, below, fits room, t, later old, copied⟩
  | storeActive rest a =>
    exact ⟨h.1, h.2.1, fits h.2.2.1, fun j above => h.2.2.2 j
      (Int.le_trans (Int.le_of_lt (Int.lt_succ _)) above)⟩
  | reclaim rest a => exact ⟨h.1, fits h.2⟩
  | scanIdle | scanLast | free => exact ⟨h.1, fits h.2.1, h.2.2⟩

theorem Inv.congr {s u : State Kid T} (h : Inv s) (top : u.top = s.top)
    (bottom : u.bottom = s.bottom) (active : u.active_buffer = s.active_buffer)
    (buffer : u.buffer = s.buffer) (item : u.item = s.item) (owner : u.owner = s.owner)
    (stealer : u.stealer = s.stealer) : Inv u := by
  refine ⟨h.core.congr (by rw [owner, bottom]) top active buffer item stealer, ?_⟩
  obtain ⟨top', bottom', unlinked, id_list, active', buffer', token, owner', stealer', item', pushed,
    returned⟩ := u
  cases top
  cases bottom
  cases active
  cases buffer
  cases item
  cases owner
  exact h.owner

theorem initial_inv [Inhabited T] : Inv (initial Kid T) where
  core :=
    { ordered := Int.le_refl _
      room := by
        change (0 : Int) + 1 ≤ 0 + 2 ^ log_initial_size
        decide
      live := fun j above below => absurd above (Int.not_le.mpr below)
      kept := nofun
      stealers := fun _ => trivial }
  owner := trivial

variable [DecidableEq Kid]

theorem Inv.setStealer {s : State Kid T} (h : Inv s) {k : Kid} {p : Stealer Kid T}
    (place : StealerOk s (s.owner.limit s.bottom) p) : Inv (s.setStealer k p) := by
  refine ⟨⟨h.core.ordered, h.core.room, h.core.live, h.core.kept, fun d => ?_⟩, h.owner⟩
  change StealerOk s (s.owner.limit s.bottom) (Function.update s.stealer k p d)
  simp only [Function.update_apply]
  split
  · exact place
  · exact h.core.stealers d

theorem cas_inv {s : State Kid T} {k : Kid} {t : Int} {a : Nat} (h : Inv s)
    (at_cas : s.stealer k = .cas t a) (won : s.top = t) :
    Inv ({ s with top := t + 1 }.setStealer k (.get t a)) := by
  have place := h.core.stealers k
  rw [at_cas] at place
  subst won
  obtain ⟨inside, here⟩ := place.2.1 rfl
  have core := h.core
  have advanced : Inv { s with top := s.top + 1 } := by
    refine ⟨⟨inside, ?_, fun j above => core.live j
      (Int.le_trans (Int.le_of_lt (Int.lt_succ _)) above), core.kept, fun d => ?_⟩,
      h.owner.advance inside⟩
    · have room := core.room
      change s.owner.limit s.bottom + 1 ≤ s.top + 1 + (s.buffer s.active_buffer).size
      omega
    · exact (core.stealers d).mono core.ordered (Int.le_of_lt (Int.lt_succ _))
        (fun now => by have now : s.top + 1 = s.top := now; omega) (Nat.le_refl _)
        (fun _ _ _ _ _ => rfl) fun _ _ _ => rfl
  exact advanced.setStealer ⟨Int.lt_succ _, here, place.2.2⟩

theorem stealer_inv {s u : State Kid T} {k : Kid} {junk : Junk T} (h : Inv s)
    (taken : stealerStep s k junk (s.stealer k) = some u) : Inv u := by
  have place := h.core.stealers k
  cases hk : s.stealer k with
  | unregistered | registering | idle => rw [hk] at taken; cases taken
  | loadTop =>
    rw [hk] at taken
    cases taken
    exact h.setStealer (Int.le_refl _)
  | loadBottom t =>
    rw [hk] at taken place
    cases taken
    split
    · rename_i some
      refine h.setStealer ⟨place, fun _ => ?_⟩
      have below : s.bottom ≤ s.owner.limit s.bottom := by
        have own := h.owner
        cases ho : s.owner with
        | popTop | popCas | popLast | popRestore =>
          rw [ho] at own
          have bottom := own.1
          simp only [Owner.limit]
          omega
        | _ => exact Int.le_refl _
      omega
    · exact h.setStealer trivial
  | loadActive t =>
    rw [hk] at taken place
    cases taken
    refine h.setStealer ⟨place.1, fun now => ⟨place.2 now, ?_⟩, Nat.le_refl _⟩
    exact h.core.live t (Int.le_of_eq now.symm) (place.2 now)
  | cas t a =>
    rw [hk] at taken
    cases taken
    split
    · exact cas_inv h hk ‹_›
    · exact h.setStealer trivial
  | get | reloadActive | readId =>
    rw [hk] at taken
    cases taken
    exact h.setStealer trivial
  | setIdle =>
    rw [hk] at taken
    cases taken
    exact (h.congr rfl rfl rfl rfl rfl rfl rfl : Inv (s.setToken k _)).setStealer trivial
  | storeId stolen id =>
    rw [hk] at taken
    cases taken
    exact (h.congr rfl rfl rfl rfl rfl rfl rfl : Inv { s.setToken k _ with
      returned := s.returned ++ stolen.toList }).setStealer trivial

theorem register_inv {s u : State Kid T} {k : Kid} {spurious : Bool} (h : Inv s)
    (taken : registerStep s k spurious (s.stealer k) = some u) : Inv u := by
  cases hk : s.stealer k with
  | unregistered =>
    rw [hk] at taken
    cases taken
    exact (h.congr rfl rfl rfl rfl rfl rfl rfl : Inv (s.setToken k _)).setStealer trivial
  | registering next =>
    rw [hk] at taken
    simp only [registerStep] at taken
    split at taken <;> cases taken
    · exact (h.congr rfl rfl rfl rfl rfl rfl rfl : Inv { s with id_list := k :: next }).setStealer
        trivial
    · exact h.setStealer trivial
  | _ => rw [hk] at taken; cases taken

theorem step_inv [Inhabited T] {s u : State Kid T} {a : Act Kid T} (h : Inv s)
    (ok : Undisturbed s a) (taken : step s a = some u) : Inv u := by
  cases a with
  | push item =>
    simp only [step] at taken
    split at taken <;> cases taken
    rename_i idle
    exact h.goto rfl (by rw [idle]; rfl)
  | pop =>
    simp only [step] at taken
    split at taken <;> cases taken
    rename_i idle
    exact h.goto rfl (by rw [idle]; rfl)
  | owner junk => exact owner_inv h ok taken
  | register k spurious => exact register_inv h taken
  | popBack k =>
    simp only [step] at taken
    split at taken <;> cases taken
    exact (h.congr rfl rfl rfl rfl rfl rfl rfl : Inv (s.setToken k _)).setStealer trivial
  | stealer k junk => exact stealer_inv h taken

end Pot.Lfdequeue
