import GuideOS.Mem.Kmalloc
import Mathlib.Algebra.BigOperators.Group.List.Basic
import Mathlib.Data.List.Sort

/-!
# The free list as a list

What the pointer code of `kmalloc.c` computes, on the list of free blocks.
`mergeBlk` is the coalescing pass of `add_block`, `addBlk` all of it, and
`takeFit` the search of `find_fit_block`.  The heap invariant is proved here, on
lists; the byte-level functions are shown to compute these in the next module.
-/

namespace GuideOS
namespace Kmalloc

/-- A block, by the address of its header and its usable size. -/
@[ext]
structure Blk where
  addr : Nat
  size : Nat
deriving DecidableEq, Repr

namespace Blk

/-- The first address after the block. -/
def stop (b : Blk) : Nat := b.addr + totalMetadataSize + b.size

theorem stop_eq (b : Blk) : b.stop = b.addr + 16 + b.size := rfl

def Has (b : Blk) (x : Nat) : Prop := b.addr ≤ x ∧ x < b.stop

def Apart (b c : Blk) : Prop := b.stop ≤ c.addr ∨ c.stop ≤ b.addr

def Le (b c : Blk) : Prop := b.size ≤ c.size

instance : DecidableRel Le := fun b c => Nat.decLe b.size c.size

instance : Std.Total Le := ⟨fun b c => Nat.le_total b.size c.size⟩

instance : IsTrans Blk Le := ⟨fun _ _ _ => Nat.le_trans⟩

theorem Apart.symm {b c : Blk} (h : b.Apart c) : c.Apart b := Or.symm h

instance : Std.Symm Apart := ⟨fun _ _ => Apart.symm⟩

/-- Blocks with no byte in common are apart. -/
theorem apart_of_no_common {b c : Blk} (h : ∀ x, b.Has x → ¬ c.Has x) : b.Apart c := by
  have hb := h (max b.addr c.addr)
  have := b.stop_eq
  have := c.stop_eq
  unfold Has at hb
  unfold Apart
  omega

theorem Apart.not_has {b c : Blk} (h : b.Apart c) {x : Nat} (hb : b.Has x) : ¬ c.Has x := by
  unfold Apart at h
  unfold Has at *
  omega

end Blk

open Blk

/-- The bytes of a list of blocks. -/
def Covers (l : List Blk) (x : Nat) : Prop := ∃ b ∈ l, b.Has x

def total (l : List Blk) : Nat := (l.map fun b => totalMetadataSize + b.size).sum

theorem covers_cons {b : Blk} {l : List Blk} {x : Nat} :
    Covers (b :: l) x ↔ b.Has x ∨ Covers l x := by
  simp [Covers]

theorem covers_append {l r : List Blk} {x : Nat} : Covers (l ++ r) x ↔ Covers l x ∨ Covers r x := by
  simp [Covers, or_and_right, exists_or]

theorem covers_perm {l r : List Blk} (h : l.Perm r) {x : Nat} : Covers l x ↔ Covers r x := by
  simp [Covers, h.mem_iff]

theorem total_cons (b : Blk) (l : List Blk) : total (b :: l) = 16 + b.size + total l := by
  simp [total, totalMetadataSize]

theorem total_append (l r : List Blk) : total (l ++ r) = total l + total r := by
  simp [total]

theorem total_perm {l r : List Blk} (h : l.Perm r) : total l = total r :=
  (h.map _).sum_eq

/-- A block that is apart from every block of a list is apart from whatever lies
in the bytes of the list. -/
theorem apart_of_covers {b c : Blk} {l : List Blk} (h : ∀ d ∈ l, b.Apart d)
    (hc : ∀ x, c.Has x → Covers l x) : b.Apart c := by
  refine apart_of_no_common fun x hb hx => ?_
  obtain ⟨d, hd, hdx⟩ := hc x hx
  exact (h d hd).not_has hb hdx

theorem pairwise_apart_perm {l r : List Blk} (h : l.Perm r) :
    l.Pairwise Apart ↔ r.Pairwise Apart :=
  h.pairwise_iff Apart.symm

/-! ## Coalescing -/

/-- The coalescing pass over the list.  `lo` and `hi` are the ends of the block
being added and `m` is what it has grown to. -/
def mergeBlk (lo hi : Nat) : List Blk → Blk → List Blk × Blk
  | [], m => ([], m)
  | b :: bs, m =>
      if b.stop = lo then mergeBlk lo hi bs ⟨b.addr, b.size + (m.size + totalMetadataSize)⟩
      else if hi = b.addr then mergeBlk lo hi bs ⟨m.addr, m.size + (b.size + totalMetadataSize)⟩
      else (b :: (mergeBlk lo hi bs m).1, (mergeBlk lo hi bs m).2)

def addBlk (l : List Blk) (b : Blk) : List Blk :=
  let r := mergeBlk b.addr b.stop l b
  r.1.orderedInsert Le r.2

theorem mergeBlk_fst (lo hi : Nat) (l : List Blk) (m : Blk) :
    (mergeBlk lo hi l m).1 = l.filter fun c => ¬ c.stop = lo ∧ ¬ hi = c.addr := by
  induction l generalizing m with
  | nil => rfl
  | cons b bs ih =>
      rw [mergeBlk]
      by_cases hlo : b.stop = lo
      · rw [if_pos hlo, ih, List.filter_cons_of_neg (by simp [hlo])]
      · by_cases hhi : hi = b.addr
        · rw [if_neg hlo, if_pos hhi, ih, List.filter_cons_of_neg (by simp [hhi])]
        · rw [if_neg hlo, if_neg hhi, List.filter_cons_of_pos (by simp [hlo, hhi]), ih]

/-- The block being added always spans from at most `lo` to at least `hi`, so a
block that ends at `lo` or starts at `hi` touches it without overlapping. -/
structure Spans (lo hi : Nat) (m : Blk) : Prop where
  left : m.addr ≤ lo
  proper : lo < hi
  right : hi ≤ m.stop

theorem Spans.front {lo hi : Nat} {m b : Blk} (h : Spans lo hi m) (ha : m.Apart b)
    (hb : b.stop = lo) : b.stop = m.addr := by
  obtain ⟨hl, hp, hr⟩ := h
  have := b.stop_eq
  unfold Apart at ha
  omega

theorem Spans.back {lo hi : Nat} {m b : Blk} (h : Spans lo hi m) (ha : m.Apart b)
    (hb : hi = b.addr) : m.stop = b.addr := by
  obtain ⟨hl, hp, hr⟩ := h
  have := b.stop_eq
  unfold Apart at ha
  omega

/-- Two touching blocks joined into one. -/
structure Joins (a b m : Blk) : Prop where
  addr : m.addr = a.addr
  touch : a.stop = b.addr
  stop : m.stop = b.stop

theorem joins_size {a b : Blk} (h : a.stop = b.addr) (n : Nat)
    (hn : n = a.size + (b.size + totalMetadataSize)) : Joins a b ⟨a.addr, n⟩ where
  addr := rfl
  touch := h
  stop := by
    have := a.stop_eq
    have := b.stop_eq
    simp only [Blk.stop, totalMetadataSize] at *
    omega

theorem Joins.has {a b m : Blk} (h : Joins a b m) {x : Nat} : m.Has x ↔ a.Has x ∨ b.Has x := by
  obtain ⟨h₁, h₂, h₃⟩ := h
  have := a.stop_eq
  have := b.stop_eq
  unfold Has
  omega

theorem Joins.apart {a b m c : Blk} (h : Joins a b m) (ha : a.Apart c) (hb : b.Apart c) :
    m.Apart c := by
  refine apart_of_no_common fun x hm hc => ?_
  rcases h.has.mp hm with hx | hx
  · exact ha.not_has hx hc
  · exact hb.not_has hx hc

/-- What the coalescing pass keeps. -/
structure Merged (lo hi : Nat) (l : List Blk) (m : Blk) (r : List Blk × Blk) : Prop where
  apart : (r.2 :: r.1).Pairwise Apart
  total : total (r.2 :: r.1) = total (m :: l)
  covers : ∀ x, Covers (r.2 :: r.1) x ↔ Covers (m :: l) x
  addr : r.2.addr = m.addr ∨ ∃ f ∈ l, f.stop = lo ∧ r.2.addr = f.addr
  stop : r.2.stop = m.stop ∨ ∃ k ∈ l, k.addr = hi ∧ r.2.stop = k.stop
  size : m.size ≤ r.2.size

/-- A block of the list has been joined to the block being added. -/
theorem Merged.join {lo hi : Nat} {b m m' : Blk} {bs : List Blk} {r : List Blk × Blk}
    (h : Merged lo hi bs m' r) (hsize : m'.size = m.size + (b.size + totalMetadataSize))
    (hhas : ∀ x, m'.Has x ↔ m.Has x ∨ b.Has x)
    (haddr : m'.addr = m.addr ∨ b.stop = lo ∧ m'.addr = b.addr)
    (hstop : m'.stop = m.stop ∨ b.addr = hi ∧ m'.stop = b.stop) :
    Merged lo hi (b :: bs) m r where
  apart := h.apart
  total := by
    rw [h.total, total_cons, total_cons, total_cons, hsize, totalMetadataSize]
    omega
  covers x := by
    rw [h.covers, covers_cons, covers_cons, covers_cons, hhas, or_assoc]
  addr := by
    rcases h.addr with e | ⟨f, hf, hlo, e⟩
    · rcases haddr with e' | ⟨hlo, e'⟩
      · exact Or.inl (e.trans e')
      · exact Or.inr ⟨b, List.mem_cons_self, hlo, e.trans e'⟩
    · exact Or.inr ⟨f, List.mem_cons_of_mem b hf, hlo, e⟩
  stop := by
    rcases h.stop with e | ⟨k, hk, hhi, e⟩
    · rcases hstop with e' | ⟨hhi, e'⟩
      · exact Or.inl (e.trans e')
      · exact Or.inr ⟨b, List.mem_cons_self, hhi, e.trans e'⟩
    · exact Or.inr ⟨k, List.mem_cons_of_mem b hk, hhi, e⟩
  size := by
    have := h.size
    omega

theorem mergeBlk_merged {lo hi : Nat} {l : List Blk} {m : Blk} (hap : (m :: l).Pairwise Apart)
    (hm : Spans lo hi m) : Merged lo hi l m (mergeBlk lo hi l m) := by
  induction l generalizing m with
  | nil => exact ⟨hap, rfl, fun _ => Iff.rfl, Or.inl rfl, Or.inl rfl, Nat.le_refl _⟩
  | cons b bs ih =>
      obtain ⟨hmb, hbbs⟩ := List.pairwise_cons.mp hap
      obtain ⟨hb, hbs⟩ := List.pairwise_cons.mp hbbs
      have hab := hmb b List.mem_cons_self
      have hmbs : ∀ c ∈ bs, m.Apart c := fun c hc => hmb c (List.mem_cons_of_mem b hc)
      have hbstop := b.stop_eq
      have hmstop := m.stop_eq
      obtain ⟨hleft, hproper, hright⟩ := hm
      rw [mergeBlk]
      by_cases hlo : b.stop = lo
      · -- `b` ends where the added block starts: it becomes the new front.
        have hj : Joins b m ⟨b.addr, b.size + (m.size + totalMetadataSize)⟩ :=
          joins_size (Spans.front ⟨hleft, hproper, hright⟩ hab hlo) _ rfl
        have hstop' := hj.stop
        rw [if_pos hlo]
        refine (ih (List.pairwise_cons.mpr ⟨fun c hc => hj.apart (hb c hc) (hmbs c hc), hbs⟩)
          ⟨by show b.addr ≤ lo; omega, hproper, by rw [hstop']; exact hright⟩).join ?_ ?_ ?_ ?_
        · simp only [totalMetadataSize]
          omega
        · intro x
          rw [hj.has, or_comm]
        · exact Or.inr ⟨hlo, rfl⟩
        · exact Or.inl hstop'
      · by_cases hhi : hi = b.addr
        · -- `b` starts where the added block ends.
          have hj : Joins m b ⟨m.addr, m.size + (b.size + totalMetadataSize)⟩ :=
            joins_size (Spans.back ⟨hleft, hproper, hright⟩ hab hhi) _ rfl
          have hstop' := hj.stop
          rw [if_neg hlo, if_pos hhi]
          refine (ih (List.pairwise_cons.mpr ⟨fun c hc => hj.apart (hmbs c hc) (hb c hc), hbs⟩)
            ⟨hleft, hproper, by rw [hstop']; omega⟩).join rfl (fun x => hj.has) ?_ ?_
          · exact Or.inl rfl
          · exact Or.inr ⟨hhi.symm, hstop'⟩
        · rw [if_neg hlo, if_neg hhi]
          have h := ih (List.pairwise_cons.mpr ⟨hmbs, hbs⟩) ⟨hleft, hproper, hright⟩
          have hbr : ∀ c ∈ (mergeBlk lo hi bs m).2 :: (mergeBlk lo hi bs m).1, b.Apart c := by
            intro c hc
            refine apart_of_covers (l := m :: bs) ?_ fun x hx => (h.covers x).mp ⟨c, hc, hx⟩
            intro d hd
            rcases List.mem_cons.mp hd with rfl | hd
            · exact hab.symm
            · exact hb d hd
          have hswap := List.Perm.swap b (mergeBlk lo hi bs m).2 (mergeBlk lo hi bs m).1
          constructor
          · exact (pairwise_apart_perm hswap).mpr (List.pairwise_cons.mpr ⟨hbr, h.apart⟩)
          · have := h.total
            simp only [total_cons] at this ⊢
            omega
          · intro x
            have hcovers := h.covers x
            simp only [covers_cons] at hcovers ⊢
            rw [or_left_comm, hcovers, or_left_comm]
          · exact h.addr.imp id fun ⟨f, hf, e⟩ => ⟨f, List.mem_cons_of_mem b hf, e⟩
          · exact h.stop.imp id fun ⟨k, hk, e⟩ => ⟨k, List.mem_cons_of_mem b hk, e⟩
          · exact h.size

/-! ## The invariant of the list -/

structure FreeListInv (l : List Blk) : Prop where
  sorted : l.Pairwise Le
  minSize : ∀ b ∈ l, 8 ≤ b.size
  apart : l.Pairwise Apart
  notAdjacent : ∀ b ∈ l, ∀ c ∈ l, b.stop ≠ c.addr

theorem spans_self (b : Blk) : Spans b.addr b.stop b :=
  ⟨Nat.le_refl _, by have := b.stop_eq; omega, Nat.le_refl _⟩

theorem addBlk_perm (l : List Blk) (b : Blk) :
    (addBlk l b).Perm ((mergeBlk b.addr b.stop l b).2 :: (mergeBlk b.addr b.stop l b).1) :=
  List.perm_orderedInsert Le _ _

theorem addBlk_covers {l : List Blk} {b : Blk} (h : (b :: l).Pairwise Apart) (x : Nat) :
    Covers (addBlk l b) x ↔ b.Has x ∨ Covers l x := by
  rw [covers_perm (addBlk_perm l b), (mergeBlk_merged h (spans_self b)).covers, covers_cons]

theorem addBlk_total {l : List Blk} {b : Blk} (h : (b :: l).Pairwise Apart) :
    total (addBlk l b) = 16 + b.size + total l := by
  rw [total_perm (addBlk_perm l b), (mergeBlk_merged h (spans_self b)).total, total_cons]

/-- Adding a block keeps the list sorted, apart and free of adjacent blocks: a
block that touched the result would have touched either the added block, and
been joined, or one of the two blocks joined to it. -/
theorem FreeListInv.addBlk {l : List Blk} {b : Blk} (hl : FreeListInv l) (hb : 8 ≤ b.size)
    (hap : (b :: l).Pairwise Apart) : FreeListInv (addBlk l b) := by
  have hm := mergeBlk_merged hap (spans_self b)
  have hfst := mergeBlk_fst b.addr b.stop l b
  have hmem : ∀ {c}, c ∈ (mergeBlk b.addr b.stop l b).1 →
      c ∈ l ∧ c.stop ≠ b.addr ∧ b.stop ≠ c.addr := by
    intro c hc
    rw [hfst, List.mem_filter] at hc
    simpa using hc
  have hfront : ∀ c ∈ (mergeBlk b.addr b.stop l b).1, c.stop ≠ (mergeBlk b.addr b.stop l b).2.addr := by
    intro c hc e
    rcases hm.addr with ha | ⟨f, hf, _, ha⟩
    · exact (hmem hc).2.1 (e.trans ha)
    · exact hl.notAdjacent c (hmem hc).1 f hf (e.trans ha)
  have hback : ∀ c ∈ (mergeBlk b.addr b.stop l b).1, (mergeBlk b.addr b.stop l b).2.stop ≠ c.addr := by
    intro c hc e
    rcases hm.stop with hs | ⟨k, hk, _, hs⟩
    · exact (hmem hc).2.2 (hs.symm.trans e)
    · exact hl.notAdjacent k hk c (hmem hc).1 (hs.symm.trans e)
  have hself : (mergeBlk b.addr b.stop l b).2.stop ≠ (mergeBlk b.addr b.stop l b).2.addr := by
    have := (mergeBlk b.addr b.stop l b).2.stop_eq
    omega
  have hperm := addBlk_perm l b
  constructor
  · refine List.Pairwise.orderedInsert _ _ ?_
    rw [hfst]
    exact hl.sorted.filter _
  · intro c hc
    rcases List.mem_cons.mp (hperm.mem_iff.mp hc) with rfl | hc
    · exact Nat.le_trans hb hm.size
    · exact hl.minSize c (hmem hc).1
  · exact (pairwise_apart_perm hperm).mpr hm.apart
  · intro c hc d hd
    rcases List.mem_cons.mp (hperm.mem_iff.mp hc) with rfl | hc <;>
      rcases List.mem_cons.mp (hperm.mem_iff.mp hd) with rfl | hd
    · exact hself
    · exact hback d hd
    · exact hfront c hc
    · exact hl.notAdjacent c (hmem hc).1 d (hmem hd).1

/-! ## Taking a block -/

/-- The test of `find_fit_block`. -/
def Fits (requestSize : Nat) (b : Blk) : Prop :=
  b.size = requestSize ∨ b.size ≥ requestSize + minBlockSize

instance (requestSize : Nat) (b : Blk) : Decidable (Fits requestSize b) :=
  inferInstanceAs (Decidable (_ ∨ _))

/-- The first block that fits, and the list without it. -/
def takeFit (requestSize : Nat) : List Blk → Option (Blk × List Blk)
  | [] => none
  | b :: bs =>
      if Fits requestSize b then some (b, bs)
      else (takeFit requestSize bs).map fun r => (r.1, b :: r.2)

/-- The block handed out for a request, and the free list after it. -/
def carve (requestSize : Nat) (b : Blk) (l : List Blk) : Blk × List Blk :=
  if b.size = requestSize then (b, l)
  else
    let oldBlockSize := b.size - (requestSize + totalMetadataSize)
    (⟨b.addr + totalMetadataSize + oldBlockSize, requestSize⟩, addBlk l ⟨b.addr, oldBlockSize⟩)

def allocBlk (l : List Blk) (requestSize : Nat) : Option (Blk × List Blk) :=
  (takeFit requestSize l).map fun r => carve requestSize r.1 r.2

theorem takeFit_some {n : Nat} {l r : List Blk} {b : Blk} (h : takeFit n l = some (b, r)) :
    Fits n b ∧ ∃ u v, l = u ++ b :: v ∧ r = u ++ v ∧ ∀ c ∈ u, ¬ Fits n c := by
  induction l generalizing r with
  | nil => simp [takeFit] at h
  | cons c cs ih =>
      rw [takeFit] at h
      by_cases hc : Fits n c
      · rw [if_pos hc, Option.some.injEq, Prod.mk.injEq] at h
        obtain ⟨rfl, rfl⟩ := h
        exact ⟨hc, [], cs, rfl, rfl, fun d hd => absurd hd List.not_mem_nil⟩
      · rw [if_neg hc, Option.map_eq_some_iff] at h
        obtain ⟨⟨b', r'⟩, htake, hpair⟩ := h
        rw [Prod.mk.injEq] at hpair
        obtain ⟨rfl, rfl⟩ := hpair
        obtain ⟨hfit, u, v, rfl, hr, hu⟩ := ih htake
        refine ⟨hfit, c :: u, v, rfl, by rw [hr]; rfl, fun d hd => ?_⟩
        rcases List.mem_cons.mp hd with rfl | hd
        · exact hc
        · exact hu d hd

/-- The two parts of a block that is split. -/
theorem joins_split {n : Nat} {b : Blk} (hn : n + minBlockSize ≤ b.size) :
    Joins ⟨b.addr, b.size - (n + totalMetadataSize)⟩
      ⟨b.addr + totalMetadataSize + (b.size - (n + totalMetadataSize)), n⟩ b where
  addr := rfl
  touch := rfl
  stop := by
    simp only [Blk.stop, totalMetadataSize, minBlockSize] at *
    omega

/-- A split never leaves a block below the minimum. -/
theorem le_carve {n s : Nat} (hn : n + minBlockSize ≤ s) : 8 ≤ s - (n + totalMetadataSize) := by
  simp only [minBlockSize, totalMetadataSize] at *
  omega

/-- What taking a block out of the list keeps: the block handed out and the free
list after it have the bytes of the list before. -/
structure Carved (n : Nat) (l : List Blk) (r : Blk × List Blk) : Prop where
  inv : FreeListInv r.2
  size : r.1.size = n
  apart : (r.1 :: r.2).Pairwise Apart
  covers : ∀ x, Covers (r.1 :: r.2) x ↔ Covers l x
  total : total (r.1 :: r.2) = total l

theorem FreeListInv.sublist {l r : List Blk} (hl : FreeListInv l) (h : r.Sublist l) :
    FreeListInv r :=
  ⟨hl.sorted.sublist h, fun b hb => hl.minSize b (h.subset hb), hl.apart.sublist h,
    fun b hb c hc => hl.notAdjacent b (h.subset hb) c (h.subset hc)⟩

theorem carve_carved {n : Nat} {u v : List Blk} {b : Blk} (hl : FreeListInv (u ++ b :: v))
    (hfit : Fits n b) : Carved n (u ++ b :: v) (carve n b (u ++ v)) := by
  have hperm : (u ++ b :: v).Perm (b :: (u ++ v)) := List.perm_middle
  have hbuv := (pairwise_apart_perm hperm).mp hl.apart
  have hrest := hl.sublist (List.Sublist.append_left (List.sublist_cons_self b v) u)
  rw [carve]
  by_cases hexact : b.size = n
  · rw [if_pos hexact]
    exact ⟨hrest, hexact, hbuv, fun x => (covers_perm hperm).symm, (total_perm hperm).symm⟩
  · rw [if_neg hexact]
    have hn : n + minBlockSize ≤ b.size := hfit.resolve_left hexact
    have hj := joins_split hn
    obtain ⟨hbc, huv⟩ := List.pairwise_cons.mp hbuv
    have hleft : (⟨b.addr, b.size - (n + totalMetadataSize)⟩ :: (u ++ v)).Pairwise Apart :=
      List.pairwise_cons.mpr ⟨fun c hc => apart_of_no_common fun x hx =>
        (hbc c hc).not_has (hj.has.mpr (Or.inl hx)), huv⟩
    have hinv := hrest.addBlk (le_carve hn) hleft
    refine ⟨hinv, rfl, List.pairwise_cons.mpr ⟨fun c hc => ?_, hinv.apart⟩, ?_, ?_⟩
    · refine apart_of_covers (l := ⟨b.addr, b.size - (n + totalMetadataSize)⟩ :: (u ++ v)) ?_
        fun x hx => covers_cons.mpr ((addBlk_covers hleft x).mp ⟨c, hc, hx⟩)
      intro d hd
      rcases List.mem_cons.mp hd with rfl | hd
      · exact Or.inr (Nat.le_of_eq hj.touch)
      · exact apart_of_no_common fun x hx => (hbc d hd).not_has (hj.has.mpr (Or.inr hx))
    · intro x
      rw [covers_perm hperm, covers_cons, covers_cons, addBlk_covers hleft, hj.has, ← or_assoc]
      exact or_congr_left or_comm
    · rw [total_perm hperm, total_cons, total_cons, addBlk_total hleft]
      simp only [minBlockSize, totalMetadataSize] at *
      omega

theorem allocBlk_carved {n : Nat} {l : List Blk} {r : Blk × List Blk} (hl : FreeListInv l)
    (h : allocBlk l n = some r) : Carved n l r := by
  obtain ⟨⟨b, rest⟩, htake, rfl⟩ := Option.map_eq_some_iff.mp h
  obtain ⟨hfit, u, v, rfl, rfl, _⟩ := takeFit_some htake
  exact carve_carved hl hfit

end Kmalloc
end GuideOS
