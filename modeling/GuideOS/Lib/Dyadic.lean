import Mathlib.Algebra.Group.Nat.Even
import Mathlib.Algebra.Order.Interval.Finset.SuccPred
import Mathlib.Data.Nat.Bitwise
import Mathlib.Order.Interval.Finset.Nat
import Mathlib.Tactic.Ring

/-!
# Dyadic blocks and their coalesced decompositions

A block of order `o` at `i` is the interval of `2 ^ o` indices from `i`; it is
aligned when `2 ^ o` divides `i`.  Two aligned blocks are either nested or
disjoint, and an aligned block together with its buddy is the aligned block of
the next order.

A set of indices has at most one decomposition into aligned, pairwise disjoint
blocks of order at most `top` in which no two buddies below `top` occur
together.  `Coalesced` states those conditions for a family `D` of blocks,
`Coalesced.exists_block` says that every aligned run of covered indices already
sits inside one block of the family, and `Coalesced.ext_cover` is the
uniqueness.
-/

namespace GuideOS
namespace Lib

/-- The indices of the block of order `o` at `i`. -/
def block (i o : Nat) : Finset Nat := Finset.Ico i (i + 2 ^ o)

/-- The other half of the block of order `o + 1` that contains `i`. -/
def buddy (i o : Nat) : Nat := i ^^^ 2 ^ o

/-- The start of the block of order `o + 1` that contains `i`. -/
def parent (i o : Nat) : Nat := i / 2 ^ (o + 1) * 2 ^ (o + 1)

@[simp] theorem mem_block {i o p : Nat} : p ∈ block i o ↔ i ≤ p ∧ p < i + 2 ^ o :=
  Finset.mem_Ico

theorem self_mem_block (i o : Nat) : i ∈ block i o := by
  have := Nat.two_pow_pos o
  rw [mem_block]
  omega

theorem card_block (i o : Nat) : (block i o).card = 2 ^ o := by
  rw [block, Nat.card_Ico, Nat.add_sub_cancel_left]

/-! ## Aligned blocks nest -/

theorem mem_block_iff_div {i o p : Nat} (hi : 2 ^ o ∣ i) :
    p ∈ block i o ↔ p / 2 ^ o = i / 2 ^ o := by
  obtain ⟨k, rfl⟩ := hi
  have hpos := Nat.two_pow_pos o
  rw [mem_block, Nat.mul_div_cancel_left k hpos, Nat.div_eq_iff hpos, Nat.mul_comm k]
  omega

/-- Two aligned blocks with an index in common are nested. -/
theorem block_subset {i o i' o' p : Nat} (hi : 2 ^ o ∣ i) (hi' : 2 ^ o' ∣ i') (ho : o ≤ o')
    (hp : p ∈ block i o) (hp' : p ∈ block i' o') : block i o ⊆ block i' o' := by
  intro x hx
  rw [mem_block_iff_div hi] at hp hx
  rw [mem_block_iff_div hi'] at hp' ⊢
  have hdiv : ∀ y, y / 2 ^ o' = y / 2 ^ o / 2 ^ (o' - o) := by
    intro y
    rw [Nat.div_div_eq_div_mul, ← Nat.pow_add, Nat.add_sub_cancel' ho]
  rw [hdiv, hx, ← hp, ← hdiv, hp']

/-- Aligned blocks of the same order with an index in common are equal. -/
theorem eq_of_mem_block {i i' o p : Nat} (hi : 2 ^ o ∣ i) (hi' : 2 ^ o ∣ i')
    (hp : p ∈ block i o) (hp' : p ∈ block i' o) : i = i' := by
  have h := mem_block.mp (block_subset hi hi' le_rfl hp hp' (self_mem_block i o))
  have h' := mem_block.mp (block_subset hi' hi le_rfl hp' hp (self_mem_block i' o))
  omega

/-! ## Buddies -/

theorem xor_one_eq (k : Nat) : k ^^^ 1 = if k % 2 = 0 then k + 1 else k - 1 := by
  split
  next h => exact Nat.xor_one_of_even (Nat.even_iff.mpr h)
  next h => exact Nat.xor_one_of_odd (Nat.odd_iff.mpr (by omega))

theorem buddy_mul (k o : Nat) : buddy (2 ^ o * k) o = 2 ^ o * (k ^^^ 1) := by
  have h := Nat.shiftLeft_xor_distrib (a := k) (b := 1) (i := o)
  simp only [Nat.shiftLeft_eq, Nat.one_mul] at h
  rw [buddy, Nat.mul_comm, ← h, Nat.mul_comm]

theorem parent_mul (k o : Nat) : parent (2 ^ o * k) o = 2 ^ o * (k / 2 * 2) := by
  have hpos := Nat.two_pow_pos o
  rw [parent, Nat.pow_succ, ← Nat.div_div_eq_div_mul, Nat.mul_div_cancel_left k hpos]
  ring

theorem dvd_buddy {i o : Nat} (hi : 2 ^ o ∣ i) : 2 ^ o ∣ buddy i o := by
  obtain ⟨k, rfl⟩ := hi
  rw [buddy_mul]
  exact Dvd.intro _ rfl

theorem dvd_parent (i o : Nat) : 2 ^ (o + 1) ∣ parent i o := Dvd.intro_left _ rfl

theorem buddy_ne {i o : Nat} (hi : 2 ^ o ∣ i) : buddy i o ≠ i := by
  obtain ⟨k, rfl⟩ := hi
  rw [buddy_mul]
  intro h
  have hk := Nat.eq_of_mul_eq_mul_left (Nat.two_pow_pos o) h
  rw [xor_one_eq] at hk
  split at hk <;> omega

/-- A block and its buddy lie in the same pair. -/
theorem buddy_div {i o : Nat} (hi : 2 ^ o ∣ i) :
    buddy i o / 2 ^ (o + 1) = i / 2 ^ (o + 1) := by
  obtain ⟨k, rfl⟩ := hi
  have hpos := Nat.two_pow_pos o
  rw [buddy_mul, Nat.pow_succ, ← Nat.div_div_eq_div_mul, ← Nat.div_div_eq_div_mul,
    Nat.mul_div_cancel_left _ hpos, Nat.mul_div_cancel_left _ hpos, xor_one_eq]
  split <;> omega

/-- A pair has two members: a block and its buddy. -/
theorem eq_or_eq_buddy {i j o : Nat} (hi : 2 ^ o ∣ i) (hj : 2 ^ o ∣ j)
    (h : j / 2 ^ (o + 1) = i / 2 ^ (o + 1)) : j = i ∨ j = buddy i o := by
  obtain ⟨k, rfl⟩ := hi
  obtain ⟨m, rfl⟩ := hj
  have hpos := Nat.two_pow_pos o
  rw [Nat.pow_succ, ← Nat.div_div_eq_div_mul, ← Nat.div_div_eq_div_mul,
    Nat.mul_div_cancel_left _ hpos, Nat.mul_div_cancel_left _ hpos] at h
  rw [buddy_mul]
  have hm : m = k ∨ m = k ^^^ 1 := by
    rw [xor_one_eq]
    split <;> omega
  rcases hm with rfl | rfl
  · exact Or.inl rfl
  · exact Or.inr rfl

/-- A block and its buddy make up the block of the next order. -/
theorem mem_block_parent {i o p : Nat} (hi : 2 ^ o ∣ i) :
    p ∈ block (parent i o) (o + 1) ↔ p ∈ block i o ∨ p ∈ block (buddy i o) o := by
  obtain ⟨k, rfl⟩ := hi
  rw [mem_block, mem_block, mem_block, buddy_mul, parent_mul, xor_one_eq, Nat.pow_succ]
  have hsucc : ∀ m, 2 ^ o * (2 * m + 1) = 2 ^ o * (2 * m) + 2 ^ o := fun m => Nat.mul_succ _ _
  rcases Nat.even_or_odd' k with ⟨m, rfl | rfl⟩ <;> have := hsucc m
  · rw [if_pos (by omega), show 2 * m / 2 * 2 = 2 * m by omega]
    omega
  · rw [if_neg (by omega), show (2 * m + 1) / 2 * 2 = 2 * m by omega,
      show 2 * m + 1 - 1 = 2 * m by omega]
    omega

/-- The two halves of an aligned block of order `o + 1`. -/
theorem parent_eq_self {i o : Nat} (hi : 2 ^ (o + 1) ∣ i) : parent i o = i := by
  rw [parent, Nat.div_mul_cancel hi]

theorem dvd_of_dvd_succ {i o : Nat} (hi : 2 ^ (o + 1) ∣ i) : 2 ^ o ∣ i :=
  dvd_trans (Nat.pow_dvd_pow 2 (Nat.le_succ o)) hi

/-! ## Coalesced decompositions -/

/-- A family of blocks, given as the relation "`D o i`: the block of order `o`
at `i` belongs to the family". -/
structure Coalesced (top : Nat) (D : Nat → Nat → Prop) : Prop where
  le_top : ∀ {o i}, D o i → o ≤ top
  aligned : ∀ {o i}, D o i → 2 ^ o ∣ i
  /-- An index belongs to at most one block. -/
  disjoint : ∀ {o i o' i' p}, D o i → D o' i' → p ∈ block i o → p ∈ block i' o' →
    o = o' ∧ i = i'
  /-- Buddies below the top order have been merged. -/
  merged : ∀ {o i}, o < top → D o i → ¬ D o (buddy i o)

/-- The indices covered by a family of blocks. -/
def cover (D : Nat → Nat → Prop) : Set Nat := {p | ∃ o i, D o i ∧ p ∈ block i o}

theorem mem_cover {D : Nat → Nat → Prop} {p : Nat} :
    p ∈ cover D ↔ ∃ o i, D o i ∧ p ∈ block i o := Iff.rfl

namespace Coalesced

variable {top : Nat} {D D' : Nat → Nat → Prop}

/-- Every aligned run of covered indices lies inside one block of the family.
The induction is on the order of the run: its halves lie inside blocks of at
least half its order, and if both are no larger they are two merged buddies. -/
theorem exists_block (h : Coalesced top D) {o i : Nat} (ho : o ≤ top) (hi : 2 ^ o ∣ i)
    (hcov : ∀ p ∈ block i o, p ∈ cover D) :
    ∃ o' i', D o' i' ∧ o ≤ o' ∧ block i o ⊆ block i' o' := by
  induction o generalizing i with
  | zero =>
      obtain ⟨o', i', hD, hp⟩ := hcov i (self_mem_block i 0)
      exact ⟨o', i', hD, Nat.zero_le _,
        block_subset hi (h.aligned hD) (Nat.zero_le _) (self_mem_block i 0) hp⟩
  | succ o ih =>
      have hi₀ : 2 ^ o ∣ i := dvd_of_dvd_succ hi
      have hsplit : ∀ {p}, p ∈ block i (o + 1) ↔ p ∈ block i o ∨ p ∈ block (buddy i o) o := by
        intro p
        rw [← mem_block_parent hi₀, parent_eq_self hi]
      obtain ⟨o₁, i₁, hD₁, ho₁, hs₁⟩ :=
        ih (by omega) hi₀ fun p hp => hcov p (hsplit.mpr (Or.inl hp))
      obtain ⟨o₂, i₂, hD₂, ho₂, hs₂⟩ :=
        ih (by omega) (dvd_buddy hi₀) fun p hp => hcov p (hsplit.mpr (Or.inr hp))
      have hmem₁ := hs₁ (self_mem_block i o)
      have hmem₂ := hs₂ (self_mem_block (buddy i o) o)
      by_cases hlt₁ : o + 1 ≤ o₁
      · exact ⟨o₁, i₁, hD₁, hlt₁, block_subset hi (h.aligned hD₁) hlt₁
          (self_mem_block i (o + 1)) hmem₁⟩
      by_cases hlt₂ : o + 1 ≤ o₂
      · exact ⟨o₂, i₂, hD₂, hlt₂, block_subset hi (h.aligned hD₂) hlt₂
          (hsplit.mpr (Or.inr (self_mem_block _ o))) hmem₂⟩
      -- Both halves are blocks of the family, which `merged` excludes.
      obtain rfl : o₁ = o := by omega
      obtain rfl : o₂ = o₁ := by omega
      have e₁ : i = i₁ := eq_of_mem_block hi₀ (h.aligned hD₁) (self_mem_block i _) hmem₁
      have e₂ : buddy i _ = i₂ :=
        eq_of_mem_block (dvd_buddy hi₀) (h.aligned hD₂) (self_mem_block _ _) hmem₂
      subst e₁
      subst e₂
      exact absurd hD₂ (h.merged (by omega) hD₁)

/-- A block belongs to the family exactly when it is a maximal aligned run of
covered indices. -/
theorem mem_iff (h : Coalesced top D) {o i : Nat} :
    D o i ↔ o ≤ top ∧ 2 ^ o ∣ i ∧ (∀ p ∈ block i o, p ∈ cover D) ∧
      (o < top → ∃ p ∈ block (parent i o) (o + 1), p ∉ cover D) := by
  constructor
  · intro hD
    have hi := h.aligned hD
    refine ⟨h.le_top hD, hi, fun p hp => ⟨o, i, hD, hp⟩, fun hlt => ?_⟩
    by_contra hall
    push Not at hall
    obtain ⟨o', i', hD', hle, hsub⟩ := h.exists_block hlt (dvd_parent i o) hall
    have hmem : i ∈ block i' o' :=
      hsub ((mem_block_parent hi).mpr (Or.inl (self_mem_block i o)))
    have := (h.disjoint hD hD' (self_mem_block i o) hmem).1
    omega
  · rintro ⟨ho, hi, hcov, hmax⟩
    obtain ⟨o', i', hD', hle, hsub⟩ := h.exists_block ho hi hcov
    have hmem := hsub (self_mem_block i o)
    rcases Nat.eq_or_lt_of_le hle with rfl | hlt
    · obtain rfl := eq_of_mem_block hi (h.aligned hD') (self_mem_block i o) hmem
      exact hD'
    · obtain ⟨p, hp, hnot⟩ := hmax (lt_of_lt_of_le hlt (h.le_top hD'))
      have hin : i ∈ block (parent i o) (o + 1) :=
        (mem_block_parent hi).mpr (Or.inl (self_mem_block i o))
      have hsub' := block_subset (dvd_parent i o) (h.aligned hD') hlt hin hmem
      exact absurd ⟨o', i', hD', hsub' hp⟩ hnot

/-- Two coalesced families that cover the same indices are equal. -/
theorem ext_cover (h : Coalesced top D) (h' : Coalesced top D') (hc : cover D = cover D')
    (o i : Nat) : D o i ↔ D' o i := by
  rw [h.mem_iff, h'.mem_iff, hc]

end Coalesced

end Lib
end GuideOS
