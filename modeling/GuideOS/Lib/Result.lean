import Mathlib.Logic.Basic

/-!
# Calls that may fail

A call that may panic has a result in `Except`.  If what was made of the result is a
value then the call returned.
-/

namespace GuideOS
namespace Lib

variable {ε α β : Type*} {x : Except ε α} {b : β}

theorem exists_ok_of_map {f : α → β} (h : x.map f = .ok b) : ∃ a, x = .ok a ∧ f a = b := by
  cases x with
  | error e => cases h
  | ok a => exact ⟨a, rfl, Except.ok.inj h⟩

theorem exists_ok_of_toOption {f : α → β} (h : x.toOption.map f = some b) :
    ∃ a, x = .ok a ∧ f a = b := by
  cases x with
  | error e => cases h
  | ok a => exact ⟨a, rfl, Option.some.inj h⟩

theorem exists_ok_of_bind {γ δ : Type} {y : Except ε γ} {f : γ → Except ε δ} {d : δ}
    (h : y >>= f = .ok d) : ∃ a, y = .ok a ∧ f a = .ok d := by
  cases y with
  | error e => cases h
  | ok a => exact ⟨a, rfl, h⟩

end Lib
end GuideOS
