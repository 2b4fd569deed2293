import GuideOS.Lib.Intervals
import GuideOS.Mem.Kmalloc.Run

/-!
# Freeing undoes allocation

No two free blocks touch, so the free blocks are the longest intervals of free bytes
and the free bytes determine them.  Two histories that free the same bytes leave the
same free blocks, whatever was split or joined on the way.
-/

namespace GuideOS
namespace Kmalloc

open Lib Blk

/-! ## The free bytes determine the free blocks -/

def extents (l : List Blk) : Set (Nat × Nat) := {p | ∃ b ∈ l, p = (b.addr, b.stop)}

theorem points_extents (l : List Blk) : points (extents l) = {x | Covers l x} := by
  ext x
  constructor
  · rintro ⟨p, ⟨b, hb, rfl⟩, hx⟩
    exact ⟨b, hb, hx⟩
  · rintro ⟨b, hb, hx⟩
    exact ⟨(b.addr, b.stop), ⟨b, hb, rfl⟩, hx⟩

theorem Blk.ext_stop {b c : Blk} (haddr : b.addr = c.addr) (hstop : b.stop = c.stop) : b = c := by
  have := b.stop_eq
  have := c.stop_eq
  exact Blk.ext haddr (by omega)

section

variable {l l' : List Blk} {b : Blk}

theorem FreeListInv.separated (h : FreeListInv l) : Separated (extents l) where
  proper := by
    rintro _ ⟨b, _, rfl⟩
    have := b.stop_eq
    show b.addr < b.stop
    omega
  gap := by
    rintro _ ⟨b, hb, rfl⟩ _ ⟨c, hc, rfl⟩ hne
    have hbc : b ≠ c := fun e => hne (by rw [e])
    have hap : b.Apart c := h.apart.forall hb hc hbc
    have hb' := h.notAdjacent b hb c hc
    have hc' := h.notAdjacent c hc b hb
    show b.stop < c.addr ∨ c.stop < b.addr
    unfold Apart at hap
    omega

/-- Free lists with the same bytes have the same blocks. -/
theorem FreeListInv.mem_iff_of_covers (h : FreeListInv l) (h' : FreeListInv l')
    (hcov : ∀ x, Covers l x ↔ Covers l' x) (b : Blk) : b ∈ l ↔ b ∈ l' := by
  have hext : extents l = extents l' := by
    refine h.separated.eq_of_points h'.separated ?_
    rw [points_extents, points_extents]
    exact Set.ext hcov
  have hmem : ∀ {u v : List Blk}, extents u = extents v → b ∈ u → b ∈ v := by
    intro u v huv hb
    have hin : (b.addr, b.stop) ∈ extents v := huv ▸ ⟨b, hb, rfl⟩
    obtain ⟨c, hc, e⟩ := hin
    rw [Prod.mk.injEq] at e
    rw [Blk.ext_stop e.1 e.2]
    exact hc
  exact ⟨hmem hext, hmem hext.symm⟩

theorem putBack_covers (hap : (b :: l).Pairwise Apart) (x : Nat) :
    Covers (putBack l b) x ↔ (8 ≤ b.size ∧ b.Has x) ∨ Covers l x := by
  rw [putBack]
  by_cases hsmall : b.size < 8
  · rw [if_pos hsmall]
    exact ⟨Or.inr, fun h => h.elim (fun h => by omega) id⟩
  · rw [if_neg hsmall, addBlk_covers hap]
    exact or_congr_left ⟨fun h => ⟨by omega, h⟩, And.right⟩

end

/-! ## Calls -/

/-- The set of free blocks. -/
def freeSet (h : Heap) : Set Blk := {b | b ∈ freeList h}

section

variable {w : World} {l : List Blk} {b c : Blk}

theorem Inv.cons_apart (h : Inv w l) (hb : b ∈ w.live) : (b :: l).Pairwise Apart :=
  List.pairwise_cons.mpr ⟨fun _ hc => (h.apart_live hc hb).symm, h.free.apart⟩

/-- Two live blocks are freed. -/
theorem Inv.kfree_two (h : Inv w l) (hb : b ∈ w.live) (hc : c ∈ w.live) (hne : b ≠ c) :
    ∃ h₁ h₂ l', kfree w.heap b.ptr = .ok h₁ ∧ kfree h₁ c.ptr = .ok h₂ ∧ freeList h₂ = l' ∧
      FreeListInv l' ∧ ∀ x, Covers l' x ↔
        (8 ≤ c.size ∧ c.Has x) ∨ (8 ≤ b.size ∧ b.Has x) ∨ Covers l x := by
  obtain ⟨u, v, h₁, hlive, _, hrun₁, hmoved₁⟩ := h.kfree_live hb
  have hc₁ : c ∈ u ++ v := by
    rw [hlive, List.perm_middle.mem_iff, List.mem_cons] at hc
    exact hc.resolve_left (Ne.symm hne)
  obtain ⟨u', v', h₂, _, _, hrun₂, hmoved₂⟩ := hmoved₁.inv.kfree_live hc₁
  refine ⟨h₁, h₂, _, hrun₁, hrun₂, hmoved₂.inv.freeList_eq, hmoved₂.inv.free, fun x => ?_⟩
  rw [putBack_covers (hmoved₁.inv.cons_apart hc₁), putBack_covers (h.cons_apart hb)]

/-- The order of two frees does not matter. -/
theorem Inv.kfree_comm (h : Inv w l) (hb : b ∈ w.live) (hc : c ∈ w.live) (hne : b.ptr ≠ c.ptr) :
    ∃ h₁ h₂ h₃ h₄, kfree w.heap b.ptr = .ok h₁ ∧ kfree h₁ c.ptr = .ok h₂ ∧
      kfree w.heap c.ptr = .ok h₃ ∧ kfree h₃ b.ptr = .ok h₄ ∧ freeSet h₂ = freeSet h₄ := by
  have hbc : b ≠ c := fun e => hne (by rw [e])
  obtain ⟨h₁, h₂, l₁, hrun₁, hrun₂, hlist₁, hinv₁, hcov₁⟩ := h.kfree_two hb hc hbc
  obtain ⟨h₃, h₄, l₂, hrun₃, hrun₄, hlist₂, hinv₂, hcov₂⟩ := h.kfree_two hc hb (Ne.symm hbc)
  refine ⟨h₁, h₂, h₃, h₄, hrun₁, hrun₂, hrun₃, hrun₄, Set.ext fun d => ?_⟩
  show d ∈ freeList h₂ ↔ d ∈ freeList h₄
  rw [hlist₁, hlist₂]
  refine hinv₁.mem_iff_of_covers hinv₂ (fun x => ?_) d
  rw [hcov₁, hcov₂]
  exact or_left_comm

/-- A block that is handed out from the list and freed at once leaves the free
blocks as they were. -/
theorem Inv.kfree_kmalloc (h : Inv w l) {size newRam : Nat} (hc : Legal w (.kmalloc size newRam))
    (hsize : 8 ≤ size) {r : Result} (hrun : kmalloc w.heap size newRam = .ok r) (hne : r.ptr ≠ 0)
    (hgrew : r.grew = false) :
    ∃ h', kfree r.heap r.ptr = .ok h' ∧ freeSet h' = freeSet w.heap := by
  have hcases := kmalloc_cases h hc
  rw [hrun] at hcases
  cases hcases with
  | refused _ => exact absurd rfl hne
  | grown => cases hgrew
  | wasted => cases hgrew
  | @fit q h₁ _ _ halloc _ hmoved =>
      have hcarved := allocBlk_carved h.free halloc
      have hmem : q.1 ∈ q.1 :: w.live := List.mem_cons_self
      obtain ⟨u, v, h₂, _, _, hrun₂, hmoved₂⟩ := hmoved.inv.kfree_live hmem
      refine ⟨h₂, hrun₂, Set.ext fun d => ?_⟩
      have hlist : freeList h₂ = putBack q.2 q.1 := hmoved₂.inv.freeList_eq
      show d ∈ freeList h₂ ↔ d ∈ freeList w.heap
      rw [hlist, h.freeList_eq]
      refine hmoved₂.inv.free.mem_iff_of_covers h.free (fun x => ?_) d
      rw [putBack_covers (hmoved.inv.cons_apart hmem), hcarved.size, ← hcarved.covers x, covers_cons]
      exact or_congr_left ⟨And.right, fun hx => ⟨hsize, hx⟩⟩

end

/-- In every state of a run, a block of at least eight bytes that is served without a
page and freed at once leaves the set of free blocks as it was, and two live blocks
leave the same set in whichever order they are freed. -/
theorem run_kfree_undoes {h : History} {w : World} (hrun : Run h w) :
    (∀ size newRam r, Legal w (.kmalloc size newRam) → 8 ≤ size →
      kmalloc w.heap size newRam = .ok r → r.ptr ≠ 0 → r.grew = false →
      ∃ h', kfree r.heap r.ptr = .ok h' ∧ freeSet h' = freeSet w.heap) ∧
    ∀ b ∈ w.live, ∀ c ∈ w.live, b.ptr ≠ c.ptr →
      ∃ h₁ h₂ h₃ h₄, kfree w.heap b.ptr = .ok h₁ ∧ kfree h₁ c.ptr = .ok h₂ ∧
        kfree w.heap c.ptr = .ok h₃ ∧ kfree h₃ b.ptr = .ok h₄ ∧ freeSet h₂ = freeSet h₄ := by
  obtain ⟨l, hinv⟩ := hrun.inv
  exact ⟨fun size newRam r hc hsize hr hne hgrew => hinv.kfree_kmalloc hc hsize hr hne hgrew,
    fun b hb c hc hne => hinv.kfree_comm hb hc hne⟩

/-- Two blocks of one page are live. -/
def twoLive : World := after (after zeroed (.kmalloc 100 4096)) (.kmalloc 200 0)

theorem run_twoLive :
    Run [(after zeroed (.kmalloc 100 4096), .kmalloc 200 0), (zeroed, .kmalloc 100 4096)] twoLive :=
  (run_zeroed (by decide +kernel)).after (Or.inl rfl) (by decide +kernel)

theorem run_kfree_undoes_twoLive :
    (∃ r h', kmalloc twoLive.heap 50 0 = .ok r ∧ r.ptr ≠ 0 ∧ kfree r.heap r.ptr = .ok h' ∧
      freeSet h' = freeSet twoLive.heap) ∧
    ∃ h₁ h₂ h₃ h₄, kfree twoLive.heap 8092 = .ok h₁ ∧ kfree h₁ 7876 = .ok h₂ ∧
      kfree twoLive.heap 7876 = .ok h₃ ∧ kfree h₃ 8092 = .ok h₄ ∧ freeSet h₂ = freeSet h₄ := by
  have hlive : twoLive.live = [⟨7860, 200⟩, ⟨8076, 100⟩] := by decide +kernel
  have hundo := run_kfree_undoes run_twoLive
  constructor
  · have hserved : (kmalloc twoLive.heap 50 0).toOption.map (fun r => (r.ptr, r.grew)) =
        some (7810, false) := by decide +kernel
    obtain ⟨r, hrun, hres⟩ := exists_ok_of_toOption hserved
    obtain ⟨hptr, hgrew⟩ := Prod.mk.inj hres
    have hne : r.ptr ≠ 0 := by
      rw [hptr]
      decide
    obtain ⟨h', hfree, hset⟩ := hundo.1 50 0 r (Or.inl rfl) (by decide) hrun hne hgrew
    exact ⟨r, h', hrun, hne, hfree, hset⟩
  · exact hundo.2 ⟨8076, 100⟩ (by rw [hlive]; simp) ⟨7860, 200⟩ (by rw [hlive]; simp) (by decide)

end Kmalloc
end GuideOS
