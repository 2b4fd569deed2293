import Mathlib.Algebra.Ring.Int.Defs
import Mathlib.Data.List.Infix

/-!
# Editing a line of bounded length

A line of at most `cap` characters is typed and erased at its end.  A character that
does not fit is lost, and erasing the empty line does nothing.

The line is full at the end exactly if the edits have an end part that types `cap` more
characters than it erases, and that nowhere from a point in it on erases more than it
types.
-/

namespace GuideOS
namespace Lib

variable {α : Type*}

inductive Edit (α : Type*)
  | type (a : α)
  | erase
  | skip

def Edit.apply (cap : Nat) (l : List α) : Edit α → List α
  | .type a => if l.length < cap then l ++ [a] else l
  | .erase => l.dropLast
  | .skip => l

def edited (cap : Nat) (l : List α) (es : List (Edit α)) : List α := es.foldl (Edit.apply cap) l

def Edit.weight : Edit α → Int
  | .type _ => 1
  | .erase => -1
  | .skip => 0

/-- Characters typed minus characters erased. -/
def net (es : List (Edit α)) : Int := (es.map Edit.weight).sum

/-- The edits leave a full line. -/
def Fills (cap : Nat) (es : List (Edit α)) : Prop :=
  ∃ u, u <:+ es ∧ cap ≤ net u ∧ ∀ v, v <:+ u → 0 ≤ net v

variable {cap : Nat} {l : List α} {e : Edit α} {es : List (Edit α)}

theorem net_nil : net ([] : List (Edit α)) = 0 := rfl

theorem net_cons (e : Edit α) (es : List (Edit α)) : net (e :: es) = e.weight + net es := rfl

theorem edited_nil (cap : Nat) (l : List α) : edited cap l [] = l := rfl

theorem edited_cons (cap : Nat) (l : List α) (e : Edit α) (es : List (Edit α)) :
    edited cap l (e :: es) = edited cap (e.apply cap l) es := rfl

theorem edited_append (cap : Nat) (l : List α) (es es' : List (Edit α)) :
    edited cap l (es ++ es') = edited cap (edited cap l es) es' := List.foldl_append

theorem length_apply_le (h : l.length ≤ cap) : (e.apply cap l).length ≤ cap := by
  cases e with
  | type a =>
      rw [Edit.apply]
      split
      · rw [List.length_append, List.length_singleton]
        omega
      · exact h
  | erase =>
      rw [Edit.apply, List.length_dropLast]
      omega
  | skip => exact h

/-- One edit changes the length by its weight, unless the line is full or empty. -/
theorem length_apply (h : l.length ≤ cap) :
    ((e.apply cap l).length : Int) = l.length + e.weight ∨
      (l.length = cap ∧ e.weight = 1 ∧ (e.apply cap l).length = cap) ∨
      (l.length = 0 ∧ e.weight = -1 ∧ (e.apply cap l).length = 0) := by
  cases e with
  | type a =>
      rw [Edit.apply]
      split
      · left
        rw [List.length_append, List.length_singleton, Edit.weight]
        omega
      · right
        left
        exact ⟨by omega, rfl, by omega⟩
  | erase =>
      rw [Edit.apply, List.length_dropLast, Edit.weight]
      omega
  | skip =>
      left
      rw [Edit.apply, Edit.weight]
      omega

theorem length_edited_le (h : l.length ≤ cap) : (edited cap l es).length ≤ cap := by
  induction es generalizing l with
  | nil => exact h
  | cons e es ih => exact ih (length_apply_le h)

/-- Edits that never erase what was there before them lose only what does not fit. -/
theorem le_length_edited (h : l.length ≤ cap) (hes : ∀ v, v <:+ es → 0 ≤ net v) :
    min (cap : Int) (l.length + net es) ≤ (edited cap l es).length := by
  induction es generalizing l with
  | nil =>
      rw [edited_nil, net_nil]
      omega
  | cons e es ih =>
      have hrest := ih (length_apply_le (e := e) h) fun v hv => hes v (hv.trans (List.suffix_cons e es))
      have hnet := hes es (List.suffix_cons e es)
      rw [edited_cons, net_cons]
      rcases length_apply (e := e) h with hstep | ⟨_, hweight, hstep⟩ | ⟨_, hweight, hstep⟩ <;> omega

/-- A line that is full at the end was empty at some point from which on the edits fill
it, or they fill it from the beginning. -/
theorem fills_or_of_length (h : l.length ≤ cap) (hfull : (edited cap l es).length = cap) :
    Fills cap es ∨ ((cap : Int) ≤ l.length + net es ∧ ∀ v, v <:+ es → 0 ≤ net v) := by
  induction es generalizing l with
  | nil =>
      right
      rw [edited_nil] at hfull
      refine ⟨by rw [net_nil]; omega, fun v hv => ?_⟩
      rw [List.suffix_nil.mp hv]
      exact Int.le_refl 0
  | cons e es ih =>
      rcases ih (length_apply_le (e := e) h) hfull with ⟨u, hu, hfills⟩ | ⟨hcap, hsuffix⟩
      · exact Or.inl ⟨u, hu.trans (List.suffix_cons e es), hfills⟩
      · have hnet := hsuffix es List.suffix_rfl
        have hstep := length_apply (e := e) h
        by_cases hempty : l.length = 0 ∧ e.weight = -1
        · exact Or.inl ⟨es, List.suffix_cons e es, by omega, hsuffix⟩
        · have hcap' : (cap : Int) ≤ l.length + net (e :: es) := by
            rw [net_cons]
            omega
          refine Or.inr ⟨hcap', fun v hv => ?_⟩
          rcases List.suffix_cons_iff.mp hv with rfl | hv
          · omega
          · exact hsuffix v hv

/-- A line that begins empty is full at the end exactly if the edits fill it. -/
theorem length_edited_eq_iff : (edited cap [] es).length = cap ↔ Fills cap es := by
  constructor
  · intro hfull
    rcases fills_or_of_length (l := []) (Nat.zero_le cap) hfull with hfills | ⟨hcap, hsuffix⟩
    · exact hfills
    · rw [List.length_nil] at hcap
      exact ⟨es, List.suffix_rfl, by omega, hsuffix⟩
  · rintro ⟨u, ⟨t, rfl⟩, hcap, hsuffix⟩
    have hstart : (edited cap ([] : List α) t).length ≤ cap := length_edited_le (Nat.zero_le cap)
    have hge := le_length_edited hstart hsuffix
    have hle : (edited cap (edited cap [] t) u).length ≤ cap := length_edited_le hstart
    rw [edited_append]
    omega

end Lib
end GuideOS
