import Mathlib.Data.List.Nodup
import Mathlib.Logic.Function.Basic

/-!
# Null-terminated chains

A singly linked list in memory is a start pointer and a map `next` from a cell
to the pointer stored in it.  `Seg null next p l q` says that following `next`
from `p` visits exactly the cells of `l` and stops at `q`; `Chain` is the
segment that ends at the null pointer.

The map is a parameter, so the same lemmas serve a chain kept in its own field
and a chain whose pointers are read out of byte memory.  Edits are stated by
what the new map does on the cells of the chain, not as one fixed update.
-/

namespace GuideOS
namespace Lib

variable {α : Type*} {null : α} {next next' : α → α} {p q : α} {l r : List α}

/-- Following `next` from `p` visits the cells of the list in order and then
holds `q`. -/
def Seg (null : α) (next : α → α) : α → List α → α → Prop
  | p, [], q => p = q
  | p, a :: l, q => p = a ∧ a ≠ null ∧ Seg null next (next a) l q

/-- A segment that ends at the null pointer. -/
def Chain (null : α) (next : α → α) (p : α) (l : List α) : Prop :=
  Seg null next p l null

@[simp] theorem seg_nil : Seg null next p [] q ↔ p = q := Iff.rfl

@[simp] theorem seg_cons {a : α} :
    Seg null next p (a :: l) q ↔ p = a ∧ a ≠ null ∧ Seg null next (next a) l q :=
  Iff.rfl

@[simp] theorem chain_nil : Chain null next p [] ↔ p = null := Iff.rfl

@[simp] theorem chain_cons {a : α} :
    Chain null next p (a :: l) ↔ p = a ∧ a ≠ null ∧ Chain null next (next a) l :=
  Iff.rfl

theorem seg_append :
    Seg null next p (l ++ r) q ↔ ∃ m, Seg null next p l m ∧ Seg null next m r q := by
  induction l generalizing p with
  | nil => simp
  | cons a l ih =>
      simp only [List.cons_append, seg_cons, ih]
      constructor
      · rintro ⟨hp, ha, m, hl, hr⟩
        exact ⟨m, ⟨hp, ha, hl⟩, hr⟩
      · rintro ⟨m, ⟨hp, ha, hl⟩, hr⟩
        exact ⟨hp, ha, m, hl, hr⟩

theorem chain_append :
    Chain null next p (l ++ r) ↔ ∃ m, Seg null next p l m ∧ Chain null next m r :=
  seg_append

/-- A segment reads `next` on its own cells only. -/
theorem Seg.congr (h : Seg null next p l q) (hag : ∀ a ∈ l, next' a = next a) :
    Seg null next' p l q := by
  induction l generalizing p with
  | nil => exact h
  | cons a l ih =>
      obtain ⟨hp, ha, hl⟩ := h
      refine ⟨hp, ha, ?_⟩
      rw [hag a List.mem_cons_self]
      exact ih hl fun b hb => hag b (List.mem_cons_of_mem a hb)

theorem Chain.congr (h : Chain null next p l) (hag : ∀ a ∈ l, next' a = next a) :
    Chain null next' p l :=
  Seg.congr h hag

theorem Chain.ne_null (h : Chain null next p l) {a : α} (ha : a ∈ l) : a ≠ null := by
  induction l generalizing p with
  | nil => exact absurd ha List.not_mem_nil
  | cons b l ih =>
      rcases List.mem_cons.mp ha with rfl | hl
      · exact h.2.1
      · exact ih h.2.2 hl

theorem Chain.eq_nil_iff (h : Chain null next p l) : l = [] ↔ p = null := by
  cases l with
  | nil => simpa using h
  | cons a l =>
      obtain ⟨rfl, ha, _⟩ := h
      simpa using ha

/-- The cells of a chain are determined by its start. -/
theorem Chain.unique (h : Chain null next p l) (h' : Chain null next p r) : l = r := by
  induction l generalizing p r with
  | nil =>
      have hp : p = null := h
      exact ((h'.eq_nil_iff).mpr hp).symm
  | cons a l ih =>
      obtain ⟨rfl, ha, hl⟩ := h
      cases r with
      | nil => exact absurd h' ha
      | cons b r =>
          obtain ⟨rfl, _, hr⟩ := h'
          rw [ih hl hr]

/-- The part of a chain that starts at one of its cells. -/
theorem Chain.suffix {a : α} (h : Chain null next p (l ++ a :: r)) :
    Chain null next a (a :: r) := by
  obtain ⟨m, _, hm⟩ := chain_append.mp h
  obtain ⟨rfl, ha, hr⟩ := hm
  exact ⟨rfl, ha, hr⟩

/-- A chain that reaches null visits no cell twice: a repeated cell would start
two different suffixes. -/
theorem Chain.nodup (h : Chain null next p l) : l.Nodup := by
  induction l generalizing p with
  | nil => exact List.nodup_nil
  | cons a l ih =>
      refine List.nodup_cons.mpr ⟨fun hmem => ?_, ih h.2.2⟩
      obtain ⟨u, v, rfl⟩ := List.append_of_mem hmem
      have hlong : Chain null next a (a :: (u ++ a :: v)) := ⟨rfl, h.2.1, h.2.2⟩
      have hshort : Chain null next a (a :: v) := Chain.suffix h.2.2
      have hlen := congrArg List.length (hlong.unique hshort)
      simp only [List.length_cons, List.length_append] at hlen
      omega

/-- Link a new cell in front. -/
theorem Chain.push {a : α} (h : Chain null next p l) (ha : a ≠ null) (hal : a ∉ l)
    (hnew : next' a = p) (hag : ∀ b ∈ l, b ≠ a → next' b = next b) :
    Chain null next' a (a :: l) := by
  refine ⟨rfl, ha, ?_⟩
  rw [hnew]
  exact h.congr fun b hb => hag b hb fun e => hal (e ▸ hb)

/-- Unlink the cell that follows `b`, by storing its successor in `b`. -/
theorem Chain.unlink {a b : α} (h : Chain null next p (l ++ b :: a :: r))
    (hb : next' b = next a) (hag : ∀ c ∈ l ++ r, next' c = next c) :
    Chain null next' p (l ++ b :: r) := by
  obtain ⟨m, hl, hm⟩ := chain_append.mp h
  obtain ⟨rfl, hb0, ha⟩ := hm
  obtain ⟨hba, ha0, hr⟩ := ha
  refine chain_append.mpr ⟨m, hl.congr fun c hc => hag c (List.mem_append_left r hc), rfl, hb0, ?_⟩
  rw [hb]
  exact Chain.congr hr fun c hc => hag c (List.mem_append_right l hc)

theorem Chain.unlink_update [DecidableEq α] {a b : α}
    (h : Chain null next p (l ++ b :: a :: r)) :
    Chain null (Function.update next b (next a)) p (l ++ b :: r) := by
  have hnd := h.nodup
  refine h.unlink (Function.update_self b _ _) fun c hc => Function.update_of_ne ?_ _ _
  rintro rfl
  have hcount := List.nodup_iff_count_le_one.mp hnd c
  simp only [List.count_append, List.count_cons_self] at hcount
  have hpos := List.count_pos_iff.mpr hc
  rw [List.count_append] at hpos
  have hle : List.count c r ≤ List.count c (a :: r) := List.count_le_count_cons
  omega

/-- Link a new cell after `b`. -/
theorem Chain.insertAfter {a b : α} (h : Chain null next p (l ++ b :: r)) (ha : a ≠ null)
    (hb : next' b = a) (hnew : next' a = next b) (hag : ∀ c ∈ l ++ r, next' c = next c) :
    Chain null next' p (l ++ b :: a :: r) := by
  obtain ⟨m, hl, hm⟩ := chain_append.mp h
  obtain ⟨rfl, hb0, hr⟩ := hm
  refine chain_append.mpr
    ⟨m, hl.congr fun c hc => hag c (List.mem_append_left r hc), rfl, hb0, hb, ha, ?_⟩
  rw [hnew]
  exact Chain.congr hr fun c hc => hag c (List.mem_append_right l hc)

/-! ## Reading a chain back -/

/-- Follow `next` for at most `fuel` cells. -/
def walk [DecidableEq α] (null : α) (next : α → α) : Nat → α → List α
  | 0, _ => []
  | fuel + 1, p => if p = null then [] else p :: walk null next fuel (next p)

/-- Enough fuel reads the whole chain. -/
theorem Chain.walk_eq [DecidableEq α] {fuel : Nat} (h : Chain null next p l)
    (hfuel : l.length ≤ fuel) : walk null next fuel p = l := by
  induction l generalizing p fuel with
  | nil =>
      have hp : p = null := h
      cases fuel <;> simp [walk, hp]
  | cons a l ih =>
      obtain ⟨rfl, ha, hl⟩ := h
      cases fuel with
      | zero => simp at hfuel
      | succ fuel =>
          rw [walk, if_neg ha, ih hl (by simpa using hfuel)]

end Lib
end GuideOS
