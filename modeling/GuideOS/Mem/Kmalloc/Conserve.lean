import GuideOS.Mem.Kmalloc.Run

/-!
# Conservation of heap memory

The bytes of the pages are on the free list, in live blocks, or lost.  The only
call that loses bytes is a `kfree` of a block below the minimum: `kmalloc` hands
out blocks of any size from one byte on, and `add_block` refuses to take back a
block of fewer than eight.
-/

namespace GuideOS
namespace Kmalloc

/-- Every byte of the pages is on the free list or in a live block. -/
def Conserved (w : World) : Prop :=
  total (freeList w.heap) + total w.live = pgSize * w.pages.length

/-- What is missing after a run, and why. -/
theorem Run.lost {h : History} {w : World} (hrun : Run h w) :
    ∃ lost, total (freeList w.heap) + total w.live + lost = pgSize * w.pages.length ∧
      (lost = 0 ↔ ∀ e ∈ h, ¬ Drops e.1 e.2) := by
  induction hrun with
  | start mem =>
      refine ⟨0, ?_, iff_of_true rfl fun e he => absurd he List.not_mem_nil⟩
      rw [(inv_start mem).freeList_eq]
      rfl
  | @call h w w' c hrun hc hexec ih =>
      obtain ⟨lost, htotal, hlost⟩ := ih
      obtain ⟨l, hinv⟩ := hrun.inv
      rcases exec_ok hinv hc with ⟨herr, _⟩ | ⟨w'', l', gone, hok, hmoved, hgone⟩
      · rw [hexec] at herr
        cases herr
      · rw [hexec, Except.ok.injEq] at hok
        subst hok
        have hstep := hmoved.total
        rw [hinv.freeList_eq] at htotal
        rw [hmoved.inv.freeList_eq]
        refine ⟨lost + gone, by omega, ?_⟩
        rw [Nat.add_eq_zero_iff, hlost, hgone, List.forall_mem_cons]
        exact and_comm

/-- A run conserves the bytes of its pages if and only if none of its calls frees
a block of fewer than eight bytes; then, once every block is freed, all of them
are on the free list. -/
theorem run_conserved_iff {h : History} {w : World} (hrun : Run h w) :
    (Conserved w ↔ ∀ e ∈ h, ¬ Drops e.1 e.2) ∧
      ((∀ e ∈ h, ¬ Drops e.1 e.2) → w.live = [] →
        total (freeList w.heap) = pgSize * w.pages.length) := by
  obtain ⟨lost, htotal, hlost⟩ := hrun.lost
  have hiff : Conserved w ↔ ∀ e ∈ h, ¬ Drops e.1 e.2 := by
    rw [← hlost, Conserved]
    omega
  refine ⟨hiff, fun hkeep hempty => ?_⟩
  have hall : total (freeList w.heap) + total w.live = pgSize * w.pages.length := hiff.mpr hkeep
  rwa [hempty] at hall

/-- One byte is allocated and freed. -/
def byteFreed : World := after (after zeroed (.kmalloc 1 4096)) (.kfree 8191)

theorem run_byteFreed : Run
    [(after zeroed (.kmalloc 1 4096), .kfree 8191), (zeroed, .kmalloc 1 4096)] byteFreed := by
  refine (run_zeroed (by decide +kernel)).after (Or.inr ⟨⟨8175, 1⟩, ?_, rfl⟩) (by decide +kernel)
  have hlive : (after zeroed (.kmalloc 1 4096)).live = [⟨8175, 1⟩] := by decide +kernel
  rw [hlive]
  exact List.mem_cons_self

/-- After one byte is allocated and freed, seventeen bytes of the page are gone. -/
theorem byteFreed_not_conserved :
    Run [(after zeroed (.kmalloc 1 4096), .kfree 8191), (zeroed, .kmalloc 1 4096)] byteFreed ∧
      byteFreed.live = [] ∧ byteFreed.pages = [4096] ∧ total (freeList byteFreed.heap) = 4079 ∧
      ¬ Conserved byteFreed := by
  have hlive : byteFreed.live = [] := by decide +kernel
  have hpages : byteFreed.pages = [4096] := by decide +kernel
  have hfree : total (freeList byteFreed.heap) = 4079 := by decide +kernel
  refine ⟨run_byteFreed, hlive, hpages, hfree, ?_⟩
  rw [Conserved, hfree, hlive, hpages]
  decide

theorem run_conserved_iff_page :
    Conserved (after zeroed (.kmalloc 100 4096)) ∧
      total (freeList (after zeroed (.kmalloc 100 4096)).heap) = 3980 := by
  refine ⟨(run_conserved_iff (run_zeroed (by decide +kernel))).1.mpr ?_, by decide +kernel⟩
  intro e he
  rw [List.mem_singleton.mp he]
  exact id

end Kmalloc
end GuideOS
