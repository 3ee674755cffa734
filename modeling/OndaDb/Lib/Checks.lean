import Mathlib.Logic.Basic

-- Computations that check their input and stop at the first thing that is wrong.
namespace Checks

variable {ε α β : Type}

theorem then_eq_ok {x : Except ε α} {b : β} :
    (x >>= f) = .ok b ↔ ∃ a, x = .ok a ∧ f a = .ok b := by
  cases x
  case error => exact ⟨nofun, nofun⟩
  case ok a => exact ⟨fun h => ⟨a, rfl, h⟩, fun h => by obtain ⟨_, ⟨⟩, h⟩ := h; exact h⟩

theorem guard_eq_ok {c : Prop} [Decidable c] {e : ε} {x : Except ε β} {b : β} :
    (if c then .error e else x) = .ok b ↔ ¬c ∧ x = .ok b := by
  split <;> simp [*]

end Checks
