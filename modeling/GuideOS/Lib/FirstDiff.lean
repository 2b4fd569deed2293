import Mathlib.Order.Basic

/-!
# The first difference of two strings

Two strings are compared by the first characters in which they differ.  A string that
ends counts as going on with the terminator `z`, which is below all characters, so that
a proper prefix comes first.
-/

namespace GuideOS
namespace Lib

variable {α : Type*} [DecidableEq α] {z a b : α} {as bs : List α}

/-- The first characters in which two strings differ. -/
def firstDiff (z : α) : List α → List α → Option (α × α)
  | [], [] => none
  | [], b :: _ => some (z, b)
  | a :: _, [] => some (a, z)
  | a :: as, b :: bs => if a = b then firstDiff z as bs else some (a, b)

@[simp] theorem firstDiff_nil_nil : firstDiff z ([] : List α) [] = none := rfl

@[simp] theorem firstDiff_nil_cons : firstDiff z [] (b :: bs) = some (z, b) := rfl

@[simp] theorem firstDiff_cons_nil : firstDiff z (a :: as) [] = some (a, z) := rfl

theorem firstDiff_cons_self : firstDiff z (a :: as) (a :: bs) = firstDiff z as bs := if_pos rfl

theorem firstDiff_cons_of_ne (h : a ≠ b) : firstDiff z (a :: as) (b :: bs) = some (a, b) := if_neg h

theorem ne_of_firstDiff (ha : ∀ c ∈ as, c ≠ z) (hb : ∀ c ∈ bs, c ≠ z)
    (h : firstDiff z as bs = some (a, b)) : a ≠ b := by
  induction as generalizing bs with
  | nil =>
      cases bs with
      | nil => cases h
      | cons y bs =>
          cases h
          exact (hb b List.mem_cons_self).symm
  | cons x as ih =>
      obtain ⟨hx, has⟩ := List.forall_mem_cons.mp ha
      cases bs with
      | nil =>
          cases h
          exact hx
      | cons y bs =>
          by_cases hxy : x = y
          · subst hxy
            rw [firstDiff_cons_self] at h
            exact ih has (List.forall_mem_cons.mp hb).2 h
          · rw [firstDiff_cons_of_ne hxy] at h
            cases h
            exact hxy

/-- Strings are in the order of the first characters in which they differ. -/
theorem compare_firstDiff [Ord α] [Std.LawfulEqOrd α] (hlt : ∀ c ≠ z, compare z c = .lt)
    (hgt : ∀ c ≠ z, compare c z = .gt) (ha : ∀ c ∈ as, c ≠ z) (hb : ∀ c ∈ bs, c ≠ z) :
    compare as bs = (firstDiff z as bs).elim .eq fun r => compare r.1 r.2 := by
  induction as generalizing bs with
  | nil =>
      cases bs with
      | nil => rfl
      | cons y bs => exact (hlt y (hb y List.mem_cons_self)).symm
  | cons x as ih =>
      obtain ⟨hx, has⟩ := List.forall_mem_cons.mp ha
      cases bs with
      | nil => exact (hgt x hx).symm
      | cons y bs =>
          rw [List.compare_cons_cons]
          by_cases hxy : x = y
          · subst hxy
            have hself : compare x x = .eq := Std.ReflCmp.compare_self
            rw [firstDiff_cons_self, hself, ← ih has (List.forall_mem_cons.mp hb).2]
            rfl
          · have hne : compare x y ≠ .eq := fun h => hxy (Std.LawfulEqCmp.eq_of_compare h)
            rw [firstDiff_cons_of_ne hxy, Option.elim]
            cases hcmp : compare x y with
            | lt => rfl
            | gt => rfl
            | eq => exact absurd hcmp hne

end Lib
end GuideOS
