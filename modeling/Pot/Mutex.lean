import Mathlib.Logic.Function.Basic

/-! What a mutex gives: whoever is inside a section that it protects owns it, so nobody else is
inside one. -/
namespace Mutex

variable {P : Type*} {owner : Option P} {inside after : P → Bool} {p : P}

def Guards (owner : Option P) (inside : P → Bool) : Prop := ∀ p, inside p = true → owner = some p

theorem Guards.free (h : Guards none inside) (p : P) : inside p = false := by
  by_contra entered
  cases h p (Bool.not_eq_false _ ▸ entered)

theorem Guards.alone (h : Guards owner inside) (entered : inside p = true) {q : P} (other : q ≠ p) :
    inside q = false := by
  by_contra also
  have first := h p entered
  have second := h q (Bool.not_eq_false _ ▸ also)
  exact other (Option.some.inj (second.symm.trans first))

theorem Guards.acquire (h : Guards none inside) (others : ∀ q, q ≠ p → after q = inside q) :
    Guards (some p) after := by
  intro q entered
  by_contra different
  have other : q ≠ p := fun same => different (same ▸ rfl)
  rw [others q other, h.free q] at entered
  cases entered

theorem Guards.release (h : Guards owner inside) (entered : inside p = true)
    (others : ∀ q, q ≠ p → after q = inside q) (left : after p = false) : Guards none after := by
  intro q still
  by_cases same : q = p
  · rw [same, left] at still
    cases still
  · rw [others q same, h.alone entered same] at still
    cases still

theorem Guards.move (h : Guards owner inside) (others : ∀ q, q ≠ p → after q = inside q)
    (stays : after p = true → inside p = true) : Guards owner after := by
  intro q entered
  by_cases same : q = p
  · exact h q (by rw [same] at entered ⊢; exact stays entered)
  · exact h q (others q same ▸ entered)

end Mutex
