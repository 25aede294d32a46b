import Pot.Integral
import Pot.LfdequeueHistory

/-! lfdequeue with the long of the machine: its positions only ever go up, and a call that computes
a position or an id beyond the end of the type does not come to an end that C++ defines. -/
namespace Pot.Lfdequeue
open Transition Histories

variable {Kid T : Type}

/-- A long is as wide as an int on Windows and has 64 bits elsewhere. -/
inductive DataModel where
  | llp64
  | lp64

def DataModel.long : DataModel → Integral.Kind
  | .llp64 => Integral.int
  | .lp64 => Integral.int64

/-- The values that the owner's next access computes in a long, ids included. -/
def Owner.longs (s : State Kid T) : Owner Kid T → List Int
  | .pushBuffer _ b t =>
    (b - t) :: if b - t ≥ (s.buffer s.active_buffer).size - 1 then [(s.active_buffer : Int) + 1]
      else []
  | .pushBottom _ b => [b + 1]
  | .popBottom b _ => [b - 1]
  | .popTop b _ => [b - s.top]
  | .popCas _ _ t => [t + 1]
  | .popGet b a t =>
    (b - 1) :: if b - t ≤ (s.buffer a).size / 3 ∧ b - t > 2 ^ log_initial_size then [(a : Int) + 1]
      else []
  | .copy _ _ _ b i => if i < b then [i + 1] else []
  | _ => []

def Stealer.longs (s : State Kid T) : Stealer Kid T → List Int
  | .loadBottom t => [s.bottom - t]
  | .cas t _ => [t + 1]
  | _ => []

def State.longs (s : State Kid T) : Act Kid T → List Int
  | .owner _ => s.owner.longs s
  | .stealer k _ => (s.stealer k).longs s
  | _ => []

/-- Nothing that the step computes overflows. -/
def State.Fits (m : DataModel) (s : State Kid T) (a : Act Kid T) : Prop :=
  ∀ v ∈ s.longs a, m.long.Holds v

instance (m : DataModel) (s : State Kid T) (a : Act Kid T) : Decidable (s.Fits m a) :=
  inferInstanceAs (Decidable (∀ v ∈ s.longs a, m.long.Holds v))

/-- An overflow is undefined behaviour: the step is not there. -/
def systemIn (m : DataModel) (Kid T : Type) [DecidableEq Kid] [Inhabited T] :
    System (State Kid T) (Act Kid T) :=
  (system Kid T).guarded (State.Fits m)

def State.full (s : State Kid T) : Prop :=
  s.bottom - s.top ≥ (s.buffer s.active_buffer).size - 1

def State.sparse (s : State Kid T) : Prop :=
  s.bottom - s.top ≤ (s.buffer s.active_buffer).size / 3 ∧ s.bottom - s.top > 2 ^ log_initial_size

/-- There is a position for one more item, and an id if the call makes a buffer. -/
def Call.Room (m : DataModel) (s : State Kid T) : Call Kid T → Prop
  | .push _ => s.bottom < m.long.max ∧ (s.full → (s.active_buffer : Int) < m.long.max)
  | .pop => s.sparse → (s.active_buffer : Int) < m.long.max
  | .register _ | .popBack _ => True

variable {m : DataModel}

theorem long_min (m : DataModel) : m.long.min = -m.long.max - 1 := by
  cases m <;> decide

theorem long_max_pos (m : DataModel) : 0 < m.long.max := by
  cases m <;> decide

theorem long_holds {v : Int} (lower : -1 ≤ v) (upper : v ≤ m.long.max) : m.long.Holds v := by
  have := long_min m
  have := long_max_pos m
  exact ⟨by omega, upper⟩

/-- Before the owner has decided whether the buffer shrinks. -/
def Owner.early : Owner Kid T → Prop
  | .popBuffer _ | .popBottom _ _ | .popTop _ _ | .popGet _ _ _ => True
  | _ => False

/-- Neither before that decision nor in the loop of a resize. -/
def Owner.late (o : Owner Kid T) : Prop :=
  ¬ o.early ∧ ∀ rest a buffer b i, o ≠ .copy rest a buffer b i

theorem proceed_late (s : State Kid T) (rest : Rest T) (a : Nat) :
    (s.proceed a rest).owner.late := by
  cases rest <;> exact ⟨id, fun _ _ _ _ _ other => by cases other⟩

theorem reclaims_late (s : State Kid T) (rest : Rest T) (a : Nat) :
    (s.reclaims rest a).owner.late := by
  simp only [State.reclaims]
  split
  · exact ⟨id, fun _ _ _ _ _ other => by cases other⟩
  · exact proceed_late s rest a

theorem early_step [Inhabited T] {s u : State Kid T} {junk : Junk T}
    (taken : ownerStep s junk s.owner = some u) (early : u.owner.early) :
    s.owner.early ∧ u.active_buffer = s.active_buffer ∧ u.buffer = s.buffer := by
  cases ho : s.owner with
  | idle => rw [ho] at taken; cases taken
  | popBuffer | popBottom =>
    rw [ho] at taken
    cases taken
    exact ⟨trivial, rfl, rfl⟩
  | popTop b a =>
    rw [ho] at taken
    cases taken
    exact ⟨trivial, rfl, rfl⟩
  | pushBuffer item b t | popGet b a t =>
    rw [ho] at taken
    cases taken
    split at early
    · exact early.elim
    · exact ((reclaims_late ..).1 early).elim
  | storeActive rest a =>
    rw [ho] at taken
    cases taken
    exact ((reclaims_late ..).1 early).elim
  | popCas b a t | copy rest a buffer b i =>
    rw [ho] at taken
    cases taken
    split at early <;> exact early.elim
  | scanIdle rest a min_id head =>
    rw [ho] at taken
    cases head with
    | nil => cases taken; exact early.elim
    | cons k next =>
      cases taken
      simp only at early
      split at early <;> exact early.elim
  | free rest a min_id =>
    rw [ho] at taken
    simp only [ownerStep] at taken
    split at taken
    · split at taken
      · cases taken
        rw [show ({ s.setBuffer _ _ with unlinked := _ } : State Kid T).owner = s.owner from rfl, ho]
          at early
        exact early.elim
      · cases taken
        exact ((proceed_late ..).1 early).elim
    · cases taken
      exact ((proceed_late ..).1 early).elim
  | _ =>
    rw [ho] at taken
    cases taken
    exact early.elim

theorem copy_step [Inhabited T] {s u : State Kid T} {junk : Junk T}
    (taken : ownerStep s junk s.owner = some u) {rest : Rest T} {a buffer : Nat} {b i : Int}
    (at_copy : u.owner = .copy rest a buffer b i) :
    (∃ item, s.owner = .pushBuffer item b i) ∨ (∃ a, s.owner = .popGet b a i) ∨
      ∃ j ≤ i, s.owner = .copy rest a buffer b j := by
  cases ho : s.owner with
  | idle => rw [ho] at taken; cases taken
  | pushBuffer item b' t =>
    rw [ho] at taken
    cases taken
    split at at_copy
    · cases at_copy
      exact .inl ⟨item, rfl⟩
    · exact ((reclaims_late ..).2 _ _ _ _ _ at_copy).elim
  | popGet b' a' t =>
    rw [ho] at taken
    cases taken
    split at at_copy
    · cases at_copy
      exact .inr (.inl ⟨_, rfl⟩)
    · exact ((reclaims_late ..).2 _ _ _ _ _ at_copy).elim
  | copy r c d b' j =>
    rw [ho] at taken
    cases taken
    split at at_copy
    · cases at_copy
      exact .inr (.inr ⟨j, Int.le_add_one (Int.le_refl j), rfl⟩)
    · cases at_copy
  | storeActive r c =>
    rw [ho] at taken
    cases taken
    exact ((reclaims_late ..).2 _ _ _ _ _ at_copy).elim
  | popTop b' c =>
    rw [ho] at taken
    cases taken
    simp only at at_copy
    split at at_copy
    · cases at_copy
    · split at at_copy <;> cases at_copy
  | popCas b' c t =>
    rw [ho] at taken
    cases taken
    split at at_copy <;> cases at_copy
  | scanIdle r c min_id head =>
    rw [ho] at taken
    cases head with
    | nil => cases taken; cases at_copy
    | cons k next =>
      cases taken
      simp only at at_copy
      split at at_copy <;> cases at_copy
  | free r c min_id =>
    rw [ho] at taken
    simp only [ownerStep] at taken
    split at taken
    · split at taken
      · cases taken
        cases ho.symm.trans at_copy
      · cases taken
        exact ((proceed_late ..).2 _ _ _ _ _ at_copy).elim
    · cases taken
      exact ((proceed_late ..).2 _ _ _ _ _ at_copy).elim
  | _ =>
    rw [ho] at taken
    cases taken
    cases at_copy

/-- A loop of resize goes from the top to the bottom that the call has found. -/
def Bounded (s₀ s : State Kid T) : Prop :=
  ∀ rest a buffer b i, s.owner = .copy rest a buffer b i → b = s₀.bottom ∧ s₀.top ≤ i

theorem push_bounded [Inhabited T] {s₀ s u : State Kid T} {item : T} {junk : Junk T}
    (h : Pushing s₀ item s) (bounded : Bounded s₀ s)
    (taken : ownerStep s junk s.owner = some u) : Bounded s₀ u := by
  intro rest a buffer b i at_copy
  have place := h.place
  rcases copy_step taken at_copy with ⟨j, ho⟩ | ⟨c, ho⟩ | ⟨j, before, ho⟩
  · rw [ho] at place
    exact ⟨place.2.1, Int.le_of_eq place.2.2.1.symm⟩
  · rw [ho] at place
    cases place.1
  · obtain ⟨same, above⟩ := bounded _ _ _ _ _ ho
    exact ⟨same, above.trans before⟩

theorem pop_bounded [Inhabited T] {s₀ s u : State Kid T} {junk : Junk T}
    (h : Popping s₀ s) (bounded : Bounded s₀ s)
    (taken : ownerStep s junk s.owner = some u) : Bounded s₀ u := by
  intro rest a buffer b i at_copy
  have place := h.place
  rcases copy_step taken at_copy with ⟨j, ho⟩ | ⟨c, ho⟩ | ⟨j, before, ho⟩
  · rw [ho] at place
    obtain ⟨_, none, -⟩ := place
    cases none
  · rw [ho] at place
    exact ⟨place.1, Int.le_of_eq place.2.1.symm⟩
  · obtain ⟨same, above⟩ := bounded _ _ _ _ _ ho
    exact ⟨same, above.trans before⟩

/-- The positions between two calls. -/
structure Positions (m : DataModel) (s : State Kid T) : Prop where
  start : 0 ≤ s.top
  ordered : s.top ≤ s.bottom
  held : s.bottom ≤ m.long.max

theorem Bounded.fits {s₀ s : State Kid T} (bounded : Bounded s₀ s) (h : Positions m s₀)
    {rest : Rest T} {a buffer : Nat} {b i : Int} (at_copy : s.owner = .copy rest a buffer b i) :
    ∀ v ∈ s.owner.longs s, m.long.Holds v := by
  obtain ⟨rfl, above⟩ := bounded _ _ _ _ _ at_copy
  have start := h.start
  have held := h.held
  rw [at_copy]
  intro v mem
  simp only [Owner.longs] at mem
  split at mem
  · rw [List.mem_singleton.mp mem]
    exact long_holds (by omega) (by omega)
  · cases mem

theorem push_fits {s₀ s : State Kid T} {item : T} (h : Pushing s₀ item s)
    (bounded : Bounded s₀ s) (positions : Positions m s₀)
    (room : (Call.push item : Call Kid T).Room m s₀) :
    ∀ v ∈ s.owner.longs s, m.long.Holds v := by
  have start := positions.start
  have ordered := positions.ordered
  obtain ⟨below, more⟩ := room
  have place := h.place
  cases ho : s.owner with
  | copy rest a buffer b i =>
    rw [← ho]
    exact bounded.fits positions ho
  | pushBuffer i b t =>
    rw [ho] at place
    obtain ⟨-, rfl, rfl, -, -, active, buffer⟩ := place
    simp only [Owner.longs, active, buffer, List.forall_mem_cons]
    refine ⟨long_holds (by omega) (by omega), fun v mem => ?_⟩
    split at mem
    · rename_i full
      have := more full
      rw [List.mem_singleton.mp mem]
      exact long_holds (by omega) (by omega)
    · cases mem
  | pushBottom i b =>
    rw [ho] at place
    obtain ⟨-, rfl, -⟩ := place
    intro v mem
    rw [List.mem_singleton.mp mem]
    exact long_holds (by omega) (by omega)
  | popBottom | popTop | popCas | popGet =>
    rw [ho] at place
    cases place.1
  | _ => exact fun v mem => by cases mem

theorem pop_fits {s₀ s : State Kid T} (inv : Inv s) (h : Popping s₀ s) (bounded : Bounded s₀ s)
    (positions : Positions m s₀)
    (early : s.owner.early → s.active_buffer = s₀.active_buffer ∧ s.buffer = s₀.buffer)
    (room : (Call.pop : Call Kid T).Room m s₀) : ∀ v ∈ s.owner.longs s, m.long.Holds v := by
  have start := positions.start
  have ordered := positions.ordered
  have held := positions.held
  have place := h.place
  have own := inv.owner
  cases ho : s.owner with
  | copy rest a buffer b i =>
    rw [← ho]
    exact bounded.fits positions ho
  | popBottom b a =>
    rw [ho] at place
    obtain ⟨rfl, -⟩ := place
    intro v mem
    rw [List.mem_singleton.mp mem]
    exact long_holds (by omega) (by omega)
  | popTop b a =>
    rw [ho] at place
    obtain ⟨rfl, top, -⟩ := place
    intro v mem
    rw [List.mem_singleton.mp mem]
    exact long_holds (by omega) (by omega)
  | popCas b a t =>
    rw [ho] at place
    obtain ⟨rfl, rfl, -, last, -⟩ := place
    intro v mem
    rw [List.mem_singleton.mp mem]
    exact long_holds (by omega) (by omega)
  | popGet b a t =>
    rw [ho] at place own early
    obtain ⟨rfl, rfl, -, -, several, -⟩ := place
    obtain ⟨-, rfl, -⟩ := own
    obtain ⟨active, buffer⟩ := early trivial
    simp only [Owner.longs, active, buffer, List.forall_mem_cons]
    refine ⟨long_holds (by omega) (by omega), fun v mem => ?_⟩
    split at mem
    · rename_i sparse
      have := room sparse
      rw [List.mem_singleton.mp mem]
      exact long_holds (by omega) (by omega)
    · cases mem
  | pushBuffer | pushBottom =>
    rw [ho] at place
    obtain ⟨_, none, -⟩ := place
    cases none
  | _ => exact fun v mem => by cases mem

end Pot.Lfdequeue
