import Mathlib.Logic.Function.Basic

/-! Event counts. Waiters read a counter, look for work, and block only while the counter still
has the value they read; whoever makes work advances the counter afterwards and then wakes one
waiter. A view of a program is what it shows of such a counter. -/
namespace EventCount

inductive Waiter where
  | away
  /-- has read the counter and not looked since -/
  | loaded (v : Nat)
  /-- found nothing since it read the counter -/
  | looked (v : Nat)
  | asleep (v : Nat)
  deriving DecidableEq

structure View (W : Type*) where
  epoch : Nat
  waiter : W → Waiter
  work : W → Prop
  /-- somebody has made work and not advanced the counter -/
  owing : Prop
  /-- somebody has advanced the counter and not woken anybody -/
  ringing : Prop

variable {W : Type*}

def Waiter.value : Waiter → Option Nat
  | .away => none
  | .loaded v | .looked v | .asleep v => some v

/-- The value of a waiter that relies on having found nothing. -/
def Waiter.relies : Waiter → Option Nat
  | .looked v | .asleep v => some v
  | _ => none

structure Good (x : View W) : Prop where
  bound : ∀ w v, (x.waiter w).value = some v → v ≤ x.epoch
  found : ∀ w v, (x.waiter w).relies = some v → x.work w → v < x.epoch ∨ x.owing
  last : (∀ w, ∃ v, x.waiter w = .asleep v) → ¬ x.ringing → ∃ w, x.waiter w = .asleep x.epoch

/-- How one waiter may go on; `y` is the view afterwards. -/
inductive Turn (x y : View W) (w : W) : Waiter → Waiter → Prop where
  | stay {a} : Turn x y w a a
  | leave {a} : Turn x y w a .away
  | load {a} : Turn x y w a (.loaded x.epoch)
  | look {v} (nothing : ¬ y.work w) : Turn x y w (.loaded v) (.looked v)
  | sleep : Turn x y w (.looked x.epoch) (.asleep x.epoch)
  | wake {v} : Turn x y w (.asleep v) (.looked v)

inductive Step (x y : View W) : Prop where
  /-- work appears only with its maker about to advance the counter -/
  | post (epoch : y.epoch = x.epoch) (waiter : y.waiter = x.waiter)
    (work : ∀ w, y.work w → x.work w ∨ y.owing) (owing : x.owing → y.owing)
    (ringing : x.ringing → y.ringing)
  | turn (w : W) (epoch : y.epoch = x.epoch) (others : ∀ u, u ≠ w → y.waiter u = x.waiter u)
    (turn : Turn x y w (x.waiter w) (y.waiter w))
    (work : ∀ w, y.work w → x.work w ∨ y.owing) (owing : x.owing → y.owing)
    (ringing : x.ringing → y.ringing)
  | advance (epoch : x.epoch < y.epoch) (waiter : y.waiter = x.waiter) (ringing : y.ringing)
  | notify (epoch : y.epoch = x.epoch)
    (waiter : ∀ w, y.waiter w = x.waiter w ∨
      ∃ v, x.waiter w = .asleep v ∧ y.waiter w = .looked v)
    (wakes : ∀ w v, x.waiter w = .asleep v → v < x.epoch →
      ∃ u v, x.waiter u = .asleep v ∧ y.waiter u = .looked v)
    (work : ∀ w, y.work w → x.work w) (owing : x.owing → y.owing)

theorem relies_value {a : Waiter} {v : Nat} (h : a.relies = some v) : a.value = some v := by
  cases a <;> first | exact h | cases h

theorem Good.turn {x y : View W} (h : Good x) (w : W) (epoch : y.epoch = x.epoch)
    (others : ∀ u, u ≠ w → y.waiter u = x.waiter u)
    (turn : Turn x y w (x.waiter w) (y.waiter w))
    (work : ∀ w, y.work w → x.work w ∨ y.owing) (owing : x.owing → y.owing)
    (ringing : x.ringing → y.ringing) : Good y := by
  have kept : ∀ u v, (x.waiter u).relies = some v → y.work u → v < y.epoch ∨ y.owing :=
    fun u v hu hw => by
      rcases work u hw with before | owed
      · exact (h.found u v hu before).imp (epoch ▸ id) owing
      · exact .inr owed
  refine ⟨fun u v hu => ?_, fun u v hu hw => ?_, fun all quiet => ?_⟩
  · by_cases same : u = w
    · subst same
      rw [epoch]
      generalize hb : y.waiter u = b at turn hu
      generalize ha : x.waiter u = a at turn
      cases turn with
      | leave => cases hu
      | load => exact Nat.le_of_eq (Option.some.inj hu).symm
      | stay => exact h.bound u v (by rw [ha]; exact hu)
      | look => exact h.bound u v (by rw [ha]; exact hu)
      | sleep => exact Nat.le_of_eq (Option.some.inj hu).symm
      | wake => exact h.bound u v (by rw [ha]; exact hu)
    · rw [others u same] at hu
      exact epoch ▸ h.bound u v hu
  · by_cases same : u = w
    · subst same
      generalize hb : y.waiter u = b at turn hu
      generalize ha : x.waiter u = a at turn
      cases turn with
      | leave => cases hu
      | load => cases hu
      | stay => exact kept u v (by rw [ha]; exact hu) hw
      | look nothing => exact absurd hw nothing
      | sleep => exact kept u v (by rw [ha]; exact hu) hw
      | wake => exact kept u v (by rw [ha]; exact hu) hw
    · rw [others u same] at hu
      exact kept u v hu hw
  · obtain ⟨v, hv⟩ := all w
    rw [hv] at turn
    generalize ha : x.waiter w = a at turn
    cases turn with
    | stay =>
      have same : y.waiter = x.waiter := by
        funext u
        by_cases eq : u = w
        · rw [eq, hv, ha]
        · exact others u eq
      obtain ⟨u, hu⟩ := h.last (same ▸ all) (mt ringing quiet)
      exact ⟨u, by rw [same, epoch, hu]⟩
    | sleep => exact ⟨w, by rw [hv, epoch]⟩

theorem Step.good {x y : View W} [Nonempty W] (h : Good x) (step : Step x y) : Good y := by
  cases step with
  | post epoch waiter work owing ringing =>
    refine ⟨fun w v hv => ?_, fun w v hv hw => ?_, fun all quiet => ?_⟩
    · exact epoch ▸ h.bound w v (waiter ▸ hv)
    · rcases work w hw with before | owed
      · exact (h.found w v (waiter ▸ hv) before).imp (epoch ▸ id) owing
      · exact .inr owed
    · obtain ⟨w, hw⟩ := h.last (waiter ▸ all) (mt ringing quiet)
      exact ⟨w, by rw [waiter, epoch, hw]⟩
  | turn w epoch others turn work owing ringing =>
    exact h.turn w epoch others turn work owing ringing
  | advance epoch waiter ringing =>
    refine ⟨fun w v hv => ?_, fun w v hv _ => .inl ?_, fun _ quiet => absurd ringing quiet⟩
    · have := h.bound w v (waiter ▸ hv)
      omega
    · have := h.bound w v (relies_value (waiter ▸ hv))
      omega
  | notify epoch waiter wakes work owing =>
    have value : ∀ w, (y.waiter w).value = (x.waiter w).value ∧
        (y.waiter w).relies = (x.waiter w).relies := fun w => by
      rcases waiter w with same | ⟨v, before, after⟩
      · rw [same]
        exact ⟨rfl, rfl⟩
      · rw [before, after]
        exact ⟨rfl, rfl⟩
    refine ⟨fun w v hv => ?_, fun w v hv hw => ?_, fun all quiet => ?_⟩
    · exact epoch ▸ h.bound w v ((value w).1 ▸ hv)
    · exact (h.found w v ((value w).2 ▸ hv) (work w hw)).imp (epoch ▸ id) owing
    · -- nobody has been woken, so nobody could be
      have same : ∀ w, y.waiter w = x.waiter w := fun w => by
        rcases waiter w with same | ⟨v, _, after⟩
        · exact same
        · obtain ⟨u, hu⟩ := all w
          cases after.symm.trans hu
      obtain ⟨w⟩ := ‹Nonempty W›
      obtain ⟨v, hv⟩ := all w
      have asleep : x.waiter w = .asleep v := (same w).symm.trans hv
      have bound := h.bound w v (by rw [asleep]; rfl)
      have current : ¬ v < x.epoch := fun stale => by
        obtain ⟨u, k, before, after⟩ := wakes w v asleep stale
        cases (before.symm.trans (same u).symm).trans after
      exact ⟨w, by rw [hv, epoch]; congr 1; omega⟩

/-- Everybody blocked and nobody about to wake anybody: somebody of them has no work. -/
theorem Good.idle {x : View W} (h : Good x) (asleep : ∀ w, ∃ v, x.waiter w = .asleep v)
    (paid : ¬ x.owing) (quiet : ¬ x.ringing) : ∃ w, ¬ x.work w := by
  obtain ⟨w, hw⟩ := h.last asleep quiet
  refine ⟨w, fun some => ?_⟩
  rcases h.found w x.epoch (by rw [hw]; rfl) some with less | owed
  · exact absurd less (Nat.lt_irrefl _)
  · exact paid owed

end EventCount
