import Mathlib.Order.Interval.Set.Basic

/-!
# Separated intervals

A family of half-open intervals no two of which overlap or touch is determined by
the points it covers: its members are the longest intervals among these points.
-/

namespace GuideOS
namespace Lib

variable {α : Type*} [LinearOrder α] {S T : Set (α × α)}

/-- Non-empty intervals, by their ends, with a gap between any two. -/
structure Separated (S : Set (α × α)) : Prop where
  proper : ∀ p ∈ S, p.1 < p.2
  gap : ∀ p ∈ S, ∀ q ∈ S, p ≠ q → p.2 < q.1 ∨ q.2 < p.1

/-- The points of a family of intervals. -/
def points (S : Set (α × α)) : Set α := {x | ∃ p ∈ S, x ∈ Set.Ico p.1 p.2}

theorem Separated.end_notMem (h : Separated S) {p : α × α} (hp : p ∈ S) : p.2 ∉ points S := by
  rintro ⟨q, hq, hle, hlt⟩
  have hne : p ≠ q := fun e => lt_irrefl _ (e ▸ hlt)
  rcases h.gap p hp q hq hne with hpq | hqp
  · exact absurd hle (not_le_of_gt hpq)
  · exact lt_asymm (hlt.trans hqp) (h.proper p hp)

/-- An interval of covered points that meets a member lies inside it. -/
theorem Separated.inside (h : Separated S) {p : α × α} (hp : p ∈ S) {a b x : α}
    (hab : Set.Ico a b ⊆ points S) (hx : x ∈ Set.Ico a b) (hxp : x ∈ Set.Ico p.1 p.2) :
    p.1 ≤ a ∧ b ≤ p.2 := by
  constructor
  · by_contra hlt
    have hap : a < p.1 := lt_of_not_ge hlt
    obtain ⟨q, hq, hqa, haq⟩ := hab ⟨le_refl a, hx.1.trans_lt hx.2⟩
    have hne : q ≠ p := fun e => absurd (e ▸ hqa) hlt
    -- The member that covers `a` ends before `p`, at a point that is not covered.
    rcases h.gap q hq p hp hne with hqp | hpq
    · refine h.end_notMem hq (hab ⟨haq.le, ?_⟩)
      exact (hqp.trans_le hxp.1).trans hx.2
    · exact absurd hqa (not_le_of_gt ((hap.trans (h.proper p hp)).trans hpq))
  · by_contra hlt
    refine h.end_notMem hp (hab ⟨?_, lt_of_not_ge hlt⟩)
    exact (hx.1.trans_lt hxp.2).le

/-- Separated intervals that cover the same points are the same. -/
theorem Separated.eq_of_points (hS : Separated S) (hT : Separated T) (h : points S = points T) :
    S = T := by
  have key : ∀ {S T : Set (α × α)}, Separated S → Separated T → points S = points T → S ⊆ T := by
    intro S T hS hT h p hp
    have hpS : Set.Ico p.1 p.2 ⊆ points S := fun x hx => ⟨p, hp, hx⟩
    have hstart : p.1 ∈ Set.Ico p.1 p.2 := ⟨le_refl _, hS.proper p hp⟩
    obtain ⟨q, hq, hpq⟩ : p.1 ∈ points T := h ▸ hpS hstart
    have hqT : Set.Ico q.1 q.2 ⊆ points T := fun x hx => ⟨q, hq, hx⟩
    obtain ⟨hle, hend⟩ := hT.inside hq (h ▸ hpS) hstart hpq
    obtain ⟨hle', hend'⟩ := hS.inside hp (h ▸ hqT) hpq hstart
    have e : p = q := Prod.ext (le_antisymm hle' hle) (le_antisymm hend hend')
    rw [e]
    exact hq
  exact Set.Subset.antisymm (key hS hT h) (key hT hS h.symm)

end Lib
end GuideOS
