import GuideOS.Mem.PageAlloc.Run

/-!
# Completeness and canonicity of the buddy lists

The free blocks of a state are a coalesced decomposition of its free pages.
Every aligned run of free pages therefore lies inside one block on the lists, so
an allocation fails only when no such run exists; and the decomposition is
unique, so the lists as sets and the bitmaps are a function of the free pages,
whatever calls led there.
-/

namespace GuideOS
namespace PageAlloc

open Lib

/-! ## Completeness -/

/-- `pgalloc_allocate` returns null exactly when no aligned run of free pages is
large enough, and then changes nothing. -/
theorem run_complete {h : History} {s : State} (hrun : Run h s) {order : Nat}
    (ho : order ≤ maxOrder) :
    ∃ r s', pgallocAllocate s order = .ok (r, s') ∧
      (r = 0 ↔ ¬ ∃ i, 2 ^ order ∣ i ∧ ∀ p, i ≤ p → p < i + 2 ^ order → p ∈ freePages s) ∧
      (r = 0 → s' = s) := by
  obtain ⟨l, hinv⟩ := hrun.inv
  rcases pgallocAllocate_ok hinv order with ⟨hok, hnone⟩ | ⟨i, s', hok, hnz, _, htaken⟩
  · refine ⟨0, s, hok, iff_of_true rfl ?_, fun _ => rfl⟩
    rintro ⟨i, hi, hfree⟩
    obtain ⟨o, j, hon, hle⟩ := hinv.exists_onList ho hi fun p hp =>
      hfree p (mem_block.mp hp).1 (mem_block.mp hp).2
    exact hnone o j hle hon
  · refine ⟨pageVa i, s', hok, iff_of_false hnz (not_not.mpr ?_), fun e => absurd e hnz⟩
    exact ⟨i, htaken.aligned, fun p hp hp' => htaken.free (mem_block.mpr ⟨hp, hp'⟩)⟩

theorem run_complete_feed :
    ∃ h s, Run h s ∧ ∃ r s', pgallocAllocate s (10 : Nat) = .ok (r, s') ∧ r ≠ 0 := by
  obtain ⟨s, hrun, _, hpages⟩ := exists_run_feed
  obtain ⟨r, s', hok, hnull, _⟩ := run_complete hrun (show 10 ≤ maxOrder by decide)
  refine ⟨_, s, hrun, r, s', hok, fun hr => hnull.mp hr ⟨0, Nat.dvd_zero _, fun p _ hp => ?_⟩⟩
  rw [hpages, Finset.mem_range]
  omega

/-! ## Canonicity -/

/-- The same blocks on every list and the same bit for every pair. -/
def SameBlocks (s t : State) : Prop :=
  ∀ o ≤ maxOrder, (∀ i, i ∈ freeList s o ↔ i ∈ freeList t o) ∧
    ∀ k, bitmapTest (s.bin o).bitmap k = bitmapTest (t.bin o).bitmap k

theorem sameBlocks_of_freePages {s t : State} {l m : Nat → List Nat} (hs : Inv s l) (ht : Inv t m)
    (hpages : freePages s = freePages t) : SameBlocks s t := by
  have hcover : cover (OnList l) = cover (OnList m) := by
    ext p
    rw [← hs.mem_freePages, ← ht.mem_freePages, hpages]
  intro o ho
  have hmem : ∀ i, i ∈ l o ↔ i ∈ m o := by
    intro i
    have := hs.coalesced.ext_cover ht.coalesced hcover o i
    simpa [OnList, ho] using this
  have hperm : (l o).Perm (m o) := (List.perm_ext_iff_of_nodup (hs.nodup ho) (ht.nodup ho)).mpr hmem
  refine ⟨fun i => by rw [hs.freeList_eq ho, ht.freeList_eq ho, hmem], fun k => ?_⟩
  rw [hs.parity o ho, ht.parity o ho, pairCount, pairCount, hperm.countP_eq]

/-- Free blocks one by one. -/
def freeAll : State → List (Nat × Nat) → Except Panic State
  | s, [] => .ok s
  | s, b :: bs =>
      match pgallocFree s b.1 b.2 with
      | .error e => .error e
      | .ok s' => freeAll s' bs

def blockOf (b : Nat × Nat) : Finset Nat := block (pgIndex (kv2p b.1)) b.2

/-- The pages of a list of blocks. -/
def blocksOf : List (Nat × Nat) → Finset Nat
  | [] => ∅
  | b :: bs => blockOf b ∪ blocksOf bs

theorem mem_blocksOf {bs : List (Nat × Nat)} {p : Nat} :
    p ∈ blocksOf bs ↔ ∃ b ∈ bs, p ∈ blockOf b := by
  induction bs with
  | nil => simp [blocksOf]
  | cons b bs ih => simp [blocksOf, ih]

/-- Freeing pairwise disjoint aligned blocks, in the order of the list. -/
theorem freeAll_ok {s : State} {l : Nat → List Nat} (h : Inv s l) {bs : List (Nat × Nat)}
    (hwf : ∀ b ∈ bs, b.2 ≤ maxOrder ∧ 2 ^ b.2 ∣ pgIndex (kv2p b.1))
    (hdisj : bs.Pairwise fun b c => Disjoint (blockOf b) (blockOf c))
    (hpages : ∀ p ∈ blocksOf bs, (p + 1) * pgSize ≤ s.maxAddr ∧ p ∉ freePages s) :
    ∃ s', freeAll s bs = .ok s' ∧ Freed s (blocksOf bs) s' := by
  induction bs generalizing s l with
  | nil => exact ⟨s, rfl, ⟨l, h⟩, rfl, by rw [blocksOf, Finset.union_empty]⟩
  | cons b bs ih =>
      have hlegal : Legal s (.free b.1 b.2) := ⟨hwf b List.mem_cons_self, fun p hp =>
        hpages p (Finset.mem_union_left _ hp)⟩
      obtain ⟨s₁, hrun, hfreed⟩ := pgallocFree_ok h hlegal
      obtain ⟨l₁, h₁⟩ := hfreed.inv
      obtain ⟨hhead, htail⟩ := List.pairwise_cons.mp hdisj
      obtain ⟨s', hrest, hfreed'⟩ := ih h₁ (fun c hc => hwf c (List.mem_cons_of_mem b hc)) htail
        (by
          intro p hp
          have hp₀ := hpages p (Finset.mem_union_right _ hp)
          obtain ⟨c, hc, hpc⟩ := mem_blocksOf.mp hp
          rw [hfreed.maxAddr, hfreed.pages, Finset.mem_union, not_or]
          exact ⟨hp₀.1, hp₀.2, fun hpb => Finset.disjoint_left.mp (hhead c hc) hpb hpc⟩)
      refine ⟨s', by rw [freeAll, hrun]; exact hrest, hfreed'.inv,
        hfreed'.maxAddr.trans hfreed.maxAddr, ?_⟩
      rw [hfreed'.pages, hfreed.pages, blocksOf, Finset.union_assoc, blockOf]

/-- A block that was taken can be freed, and then the free pages are the old ones. -/
theorem Taken.free_back {s s' : State} {l : Nat → List Nat} {order i : Nat} (ht : Taken s order i s')
    (h : Inv s l) (ho : order ≤ maxOrder) :
    Legal s' (.free (pageVa i) order) ∧ ∃ s₂, pgallocFree s' (pageVa i) order = .ok s₂ ∧
      Freed s' (block (pgIndex (kv2p (pageVa i))) order) s₂ ∧ freePages s₂ = freePages s := by
  have hpos := Nat.two_pow_pos order
  have hidx : pgIndex (kv2p (pageVa i)) = i := pgIndex_kv2p_pageVa h.fit
    (Nat.le_trans (Nat.mul_le_mul_right pgSize (by omega)) ht.below)
  have hlegal : Legal s' (.free (pageVa i) order) := by
    refine ⟨⟨ho, by rw [hidx]; exact ht.aligned⟩, fun p hp => ?_⟩
    rw [freed, hidx] at hp
    rw [ht.maxAddr, ht.pages, Finset.mem_sdiff]
    have hlt := (mem_block.mp hp).2
    exact ⟨Nat.le_trans (Nat.mul_le_mul_right pgSize hlt) ht.below, fun hc => hc.2 hp⟩
  obtain ⟨l₁, h₁⟩ := ht.inv
  obtain ⟨s₂, hrun, hfreed⟩ := pgallocFree_ok h₁ hlegal
  refine ⟨hlegal, s₂, hrun, hfreed, ?_⟩
  rw [hfreed.pages, hidx, ht.pages, Finset.sdiff_union_of_subset ht.free]

/-- Allocating a block and freeing it at the same order. -/
theorem allocate_free {s s₁ : State} {l : Nat → List Nat} (h : Inv s l) {order r : Nat}
    (hok : pgallocAllocate s order = .ok (r, s₁)) (hr : r ≠ 0) :
    ∃ s₂, pgallocFree s₁ r order = .ok s₂ ∧ SameBlocks s s₂ := by
  rcases pgallocAllocate_ok h order with ⟨hok', _⟩ | ⟨i, t, hok', _, ho, htaken⟩
  · rw [hok', Except.ok.injEq, Prod.mk.injEq] at hok
    exact absurd hok.1.symm hr
  · rw [hok', Except.ok.injEq, Prod.mk.injEq] at hok
    obtain ⟨rfl, rfl⟩ := hok
    obtain ⟨_, s₂, hrun, hfreed, hpages⟩ := htaken.free_back h ho
    obtain ⟨l₂, h₂⟩ := hfreed.inv
    exact ⟨s₂, hrun, sameBlocks_of_freePages h h₂ hpages.symm⟩

/-- Canonicity.  States with the same free pages have the same free blocks and
bitmaps; so allocating and freeing a block undo each other, two disjoint blocks
may be freed in either order, and a block may be freed whole or in parts. -/
theorem run_canonical {h : History} {s : State} (hrun : Run h s) :
    (∀ h' s', Run h' s' → freePages s = freePages s' → SameBlocks s s') ∧
    (∀ (order r : Nat) s₁, pgallocAllocate s order = .ok (r, s₁) → r ≠ 0 →
      ∃ s₂, pgallocFree s₁ r order = .ok s₂ ∧ SameBlocks s s₂) ∧
    (∀ a o b q, Legal s (.free a o) → Legal s (.free b q) →
      Disjoint (blockOf (a, o)) (blockOf (b, q)) →
      ∃ s₁ s₂, freeAll s [(a, o), (b, q)] = .ok s₁ ∧ freeAll s [(b, q), (a, o)] = .ok s₂ ∧
        SameBlocks s₁ s₂) ∧
    (∀ a o bs, Legal s (.free a o) → (∀ b ∈ bs, 2 ^ b.2 ∣ pgIndex (kv2p b.1)) →
      bs.Pairwise (fun b c => Disjoint (blockOf b) (blockOf c)) → blocksOf bs = blockOf (a, o) →
      ∃ s₁ s₂, pgallocFree s a o = .ok s₁ ∧ freeAll s bs = .ok s₂ ∧ SameBlocks s₁ s₂) := by
  obtain ⟨l, hinv⟩ := hrun.inv
  refine ⟨?_, fun order r s₁ hok hr => allocate_free hinv hok hr, ?_, ?_⟩
  · intro h' s' hrun' hpages
    obtain ⟨l', hinv'⟩ := hrun'.inv
    exact sameBlocks_of_freePages hinv hinv' hpages
  · intro a o b q ha hb hdisj
    have hwf : ∀ c ∈ [(a, o), (b, q)], c.2 ≤ maxOrder ∧ 2 ^ c.2 ∣ pgIndex (kv2p c.1) := by
      intro c hc
      rw [List.mem_pair] at hc
      rcases hc with rfl | rfl
      · exact ha.1
      · exact hb.1
    have hpages : ∀ p ∈ blocksOf [(a, o), (b, q)], (p + 1) * pgSize ≤ s.maxAddr ∧ p ∉ freePages s := by
      intro p hp
      rw [mem_blocksOf] at hp
      obtain ⟨c, hc, hpc⟩ := hp
      rw [List.mem_pair] at hc
      rcases hc with rfl | rfl
      · exact ha.2 p hpc
      · exact hb.2 p hpc
    have hswap : blocksOf [(b, q), (a, o)] = blocksOf [(a, o), (b, q)] := by
      simp only [blocksOf, Finset.union_empty]
      exact Finset.union_comm _ _
    obtain ⟨s₁, hok₁, hf₁⟩ := freeAll_ok hinv hwf (List.pairwise_pair.mpr hdisj) hpages
    obtain ⟨s₂, hok₂, hf₂⟩ := freeAll_ok hinv
      (fun c hc => hwf c (List.mem_pair.mpr (List.mem_pair.mp hc).symm))
      (List.pairwise_pair.mpr hdisj.symm) (by rw [hswap]; exact hpages)
    obtain ⟨l₁, h₁⟩ := hf₁.inv
    obtain ⟨l₂, h₂⟩ := hf₂.inv
    refine ⟨s₁, s₂, hok₁, hok₂, sameBlocks_of_freePages h₁ h₂ ?_⟩
    rw [hf₁.pages, hf₂.pages, hswap]
  · intro a o bs ha hwf hdisj hparts
    have hle : ∀ b ∈ bs, b.2 ≤ maxOrder := by
      intro b hb
      have hsub : blockOf b ⊆ blockOf (a, o) := by
        rw [← hparts]
        exact fun p hp => mem_blocksOf.mpr ⟨b, hb, hp⟩
      have hcard := Finset.card_le_card hsub
      rw [blockOf, blockOf, card_block, card_block] at hcard
      exact Nat.le_trans ((Nat.pow_le_pow_iff_right (by omega)).mp hcard) ha.1.1
    obtain ⟨s₁, hok₁, hf₁⟩ := pgallocFree_ok hinv ha
    obtain ⟨s₂, hok₂, hf₂⟩ := freeAll_ok hinv (fun b hb => ⟨hle b hb, hwf b hb⟩) hdisj
      (by rw [hparts]; exact ha.2)
    obtain ⟨l₁, h₁⟩ := hf₁.inv
    obtain ⟨l₂, h₂⟩ := hf₂.inv
    refine ⟨s₁, s₂, hok₁, hok₂, sameBlocks_of_freePages h₁ h₂ ?_⟩
    rw [hf₁.pages, hf₂.pages, hparts, blockOf]

/-- Feeding 1024 pages, and the same with a block of them taken and given back. -/
theorem run_canonical_feed :
    ∃ s i s', Run [(.freeRange kernBase (kernBase + 2 ^ 22), 0)] s ∧ pageVa i ≠ 0 ∧
      Run [(.free (pageVa i) 3, 0), (.allocate 3, pageVa i), (.freeRange kernBase (kernBase + 2 ^ 22), 0)] s' ∧
      freePages s' = Finset.range 1024 ∧ SameBlocks s s' := by
  obtain ⟨s, i, t, hrun, hpages, hnz, htaken, hrun'⟩ := exists_run_taken
  obtain ⟨l, hinv⟩ := hrun.inv
  obtain ⟨hlegal, s', hfree, -, hsame⟩ := htaken.free_back hinv (show 3 ≤ maxOrder by decide)
  have hback := hrun'.call hlegal (by rw [exec, hfree, Except.map])
  exact ⟨s, i, s', hrun, hnz, hback, hsame.trans hpages, (run_canonical hrun).1 _ s' hback hsame.symm⟩

end PageAlloc
end GuideOS
