import GuideOS.Mem.Kmalloc.Run

/-!
# Alignment of heap blocks

Nothing in the allocator rounds.  Blocks are cut from the ends of blocks and joined
again by adding and subtracting sizes and headers, so whatever divides the header, the
pages and every requested size divides every address and every size.
-/

namespace GuideOS
namespace Kmalloc

open Lib Blk

attribute [local irreducible] load64 store64

def Blk.Aligned (k : Nat) (b : Blk) : Prop := k ∣ b.addr ∧ k ∣ b.size

/-! ## The list -/

section

variable {k n lo hi : Nat} {l : List Blk} {m b : Blk}

/-- The front block of two that are joined. -/
theorem Blk.Aligned.join (hk : k ∣ totalMetadataSize) (hb : b.Aligned k) (hm : k ∣ m.size) :
    Aligned k ⟨b.addr, b.size + (m.size + totalMetadataSize)⟩ :=
  ⟨hb.1, Nat.dvd_add hb.2 (Nat.dvd_add hm hk)⟩

theorem mergeBlk_aligned (hk : k ∣ totalMetadataSize) (hl : ∀ c ∈ l, c.Aligned k) (hm : m.Aligned k) :
    (mergeBlk lo hi l m).2.Aligned k := by
  induction l generalizing m with
  | nil => exact hm
  | cons c cs ih =>
      obtain ⟨hc, hcs⟩ := List.forall_mem_cons.mp hl
      rw [mergeBlk]
      split
      · exact ih hcs (hc.join hk hm.2)
      · split
        · exact ih hcs (hm.join hk hc.2)
        · exact ih hcs hm

theorem addBlk_aligned (hk : k ∣ totalMetadataSize) (hl : ∀ c ∈ l, c.Aligned k) (hb : b.Aligned k) :
    ∀ c ∈ addBlk l b, c.Aligned k := by
  intro c hc
  rcases List.mem_cons.mp ((addBlk_perm l b).mem_iff.mp hc) with rfl | hc
  · exact mergeBlk_aligned hk hl hb
  · rw [mergeBlk_fst] at hc
    exact hl c (List.mem_of_mem_filter hc)

/-- The block handed out, and the blocks left. -/
theorem carve_aligned (hk : k ∣ totalMetadataSize) (hn : k ∣ n) (hb : b.Aligned k)
    (hl : ∀ c ∈ l, c.Aligned k) : (carve n b l).1.Aligned k ∧ ∀ c ∈ (carve n b l).2, c.Aligned k := by
  rw [carve]
  split
  · exact ⟨hb, hl⟩
  · have hold : k ∣ b.size - (n + totalMetadataSize) := Nat.dvd_sub hb.2 (Nat.dvd_add hn hk)
    exact ⟨⟨Nat.dvd_add (Nat.dvd_add hb.1 hk) hold, hn⟩, addBlk_aligned hk hl ⟨hb.1, hold⟩⟩

theorem allocBlk_aligned (hk : k ∣ totalMetadataSize) (hn : k ∣ n) (hl : ∀ c ∈ l, c.Aligned k)
    {r : Blk × List Blk} (h : allocBlk l n = some r) : r.1.Aligned k ∧ ∀ c ∈ r.2, c.Aligned k := by
  obtain ⟨⟨b, rest⟩, htake, rfl⟩ := Option.map_eq_some_iff.mp h
  obtain ⟨-, u, v, rfl, rfl, -⟩ := takeFit_some htake
  have hperm : (u ++ b :: v).Perm (b :: (u ++ v)) := List.perm_middle
  have hall : ∀ c ∈ b :: (u ++ v), c.Aligned k := fun c hc => hl c (hperm.mem_iff.mpr hc)
  obtain ⟨hb, hrest⟩ := List.forall_mem_cons.mp hall
  exact carve_aligned hk hn hb hrest

theorem pageBlk_aligned (hk : k ∣ totalMetadataSize) {p : Nat} (hp : pgSize ∣ p) : (pageBlk p).Aligned k := by
  have hpage : k ∣ pgSize := hk.trans (show totalMetadataSize ∣ pgSize by decide)
  exact ⟨hpage.trans hp, Nat.dvd_sub hpage hk⟩

end

/-! ## Runs -/

section

variable {k : Nat} {w w' : World} {l : List Blk}

/-- `kmalloc` returns an aligned pointer and leaves aligned blocks. -/
theorem Inv.aligned_kmalloc (hk : k ∣ totalMetadataSize) (h : Inv w l) (hal : ∀ b ∈ l ++ w.live, b.Aligned k)
    {size newRam : Nat} (hsize : k ∣ size) (hc : Legal w (.kmalloc size newRam)) {r : Result}
    (hrun : kmalloc w.heap size newRam = .ok r) :
    k ∣ r.ptr ∧ ∃ w' l', exec w (.kmalloc size newRam) = .ok w' ∧ Inv w' l' ∧
      ∀ b ∈ l' ++ w'.live, b.Aligned k := by
  obtain ⟨hl, hlive⟩ := List.forall_mem_append.mp hal
  have hptr : ∀ {b : Blk}, b.Aligned k → k ∣ b.ptr := fun hb => Nat.dvd_add hb.1 hk
  have hserved : ∀ {q : Blk × List Blk}, q.1.Aligned k → (∀ b ∈ q.2, b.Aligned k) →
      ∀ b ∈ q.2 ++ q.1 :: w.live, b.Aligned k := fun hq hrest =>
    List.forall_mem_append.mpr ⟨hrest, List.forall_mem_cons.mpr ⟨hq, hlive⟩⟩
  have hpage : FreshPage w.pages newRam → ∀ b ∈ addBlk l (pageBlk newRam), b.Aligned k := fun hp =>
    addBlk_aligned hk hl (pageBlk_aligned hk hp.aligned)
  have hcases := kmalloc_cases h hc
  rw [exec, hrun]
  rw [hrun] at hcases
  cases hcases with
  | refused _ => exact ⟨Nat.dvd_zero k, w, l, rfl, h, hal⟩
  | @fit q h' _ _ halloc hblk hmoved =>
      obtain ⟨hq, hrest⟩ := allocBlk_aligned hk hsize hl halloc
      refine ⟨hptr hq, _, q.2, rfl, ?_, ?_⟩ <;> simp only [if_neg q.1.ptr_ne_zero, ← hblk]
      · exact hmoved.inv
      · exact hserved hq hrest
  | @grown q h' _ _ _ hp halloc hblk hmoved =>
      obtain ⟨hq, hrest⟩ := allocBlk_aligned hk hsize (hpage hp) halloc
      refine ⟨hptr hq, _, q.2, rfl, ?_, ?_⟩ <;> simp only [if_neg q.1.ptr_ne_zero, ← hblk]
      · exact hmoved.inv
      · exact hserved hq hrest
  | wasted _ _ _ hp _ hmoved =>
      exact ⟨Nat.dvd_zero k, _, _, rfl, hmoved.inv, List.forall_mem_append.mpr ⟨hpage hp, hlive⟩⟩

theorem Inv.aligned_kfree (hk : k ∣ totalMetadataSize) (h : Inv w l) (hal : ∀ b ∈ l ++ w.live, b.Aligned k)
    {ptr : Nat} (hc : Legal w (.kfree ptr)) :
    ∃ w' l', exec w (.kfree ptr) = .ok w' ∧ Inv w' l' ∧ ∀ b ∈ l' ++ w'.live, b.Aligned k := by
  obtain ⟨hl, hlive⟩ := List.forall_mem_append.mp hal
  rcases hc with rfl | ⟨b, hb, rfl⟩
  · refine ⟨w, l, ?_, h, hal⟩
    rw [exec, kfree, if_pos rfl, Except.map, List.eraseP_of_forall_not fun b _ => by simp [b.ptr_ne_zero]]
  · obtain ⟨u, v, h', huv, herase, hrun, hmoved⟩ := h.kfree_live hb
    have hkept : ∀ c ∈ u ++ v, c.Aligned k := fun c hc => hlive c (by
      rw [huv, List.perm_middle.mem_iff]
      exact List.mem_cons_of_mem b hc)
    refine ⟨_, _, ?_, hmoved.inv, List.forall_mem_append.mpr ⟨?_, hkept⟩⟩
    · rw [exec, hrun, herase]
      rfl
    · rw [putBack]
      split
      · exact hl
      · exact addBlk_aligned hk hl (hlive b hb)

/-- One step of a run. -/
theorem Inv.aligned_exec (hk : k ∣ totalMetadataSize) (h : Inv w l) (hal : ∀ b ∈ l ++ w.live, b.Aligned k)
    {c : Call} (hsize : ∀ size newRam, c = .kmalloc size newRam → k ∣ size) (hc : Legal w c)
    (hexec : exec w c = .ok w') : ∃ l', Inv w' l' ∧ ∀ b ∈ l' ++ w'.live, b.Aligned k := by
  cases c with
  | kmalloc size newRam =>
      obtain ⟨r, hrun, -⟩ := exists_ok_of_map hexec
      obtain ⟨-, w'', l', hok, hstep⟩ := h.aligned_kmalloc hk hal (hsize _ _ rfl) hc hrun
      rw [hexec, Except.ok.injEq] at hok
      subst hok
      exact ⟨l', hstep⟩
  | kfree ptr =>
      obtain ⟨w'', l', hok, hstep⟩ := h.aligned_kfree hk hal hc
      rw [hexec, Except.ok.injEq] at hok
      subst hok
      exact ⟨l', hstep⟩
  | clientStore a v =>
      obtain ⟨w'', hok, hlive, hmoved⟩ := clientStore_ok h hc
      rw [hexec, Except.ok.injEq] at hok
      subst hok
      exact ⟨l, hmoved.inv, hlive ▸ hal⟩

theorem Run.aligned (hk : k ∣ totalMetadataSize) {h : History} (hrun : Run h w)
    (hsizes : ∀ e ∈ h, ∀ size newRam, e.2 = .kmalloc size newRam → k ∣ size) :
    ∃ l, Inv w l ∧ ∀ b ∈ l ++ w.live, b.Aligned k := by
  induction hrun with
  | start mem => exact ⟨[], inv_start mem, fun b hb => absurd hb List.not_mem_nil⟩
  | call _ hc hexec ih =>
      obtain ⟨hsize, hrest⟩ := List.forall_mem_cons.mp hsizes
      obtain ⟨l, hinv, hal⟩ := ih hrest
      exact hinv.aligned_exec hk hal hsize hc hexec

end

/-- The headers of the free and the live blocks, and the sizes in them. -/
structure HeadersAligned (k : Nat) (w : World) : Prop where
  free : ∀ b ∈ freeList w.heap, k ∣ b.addr ∧ k ∣ w.heap.size b.addr
  live : ∀ b ∈ w.live, k ∣ b.addr ∧ k ∣ w.heap.size b.addr

/-- When every requested size is a multiple of eight, every block and every pointer that
`kmalloc` returns is aligned to eight bytes. -/
theorem run_aligned {h : History} {w : World} (hrun : Run h w)
    (hsizes : ∀ e ∈ h, ∀ size newRam, e.2 = .kmalloc size newRam → 8 ∣ size) :
    HeadersAligned 8 w ∧ ∀ size newRam r, 8 ∣ size → Legal w (.kmalloc size newRam) →
      kmalloc w.heap size newRam = .ok r → 8 ∣ r.ptr := by
  have hk : 8 ∣ totalMetadataSize := by decide
  obtain ⟨l, hinv, hal⟩ := hrun.aligned hk hsizes
  obtain ⟨hl, hlive⟩ := List.forall_mem_append.mp hal
  refine ⟨⟨fun b hb => ?_, fun b hb => ?_⟩, fun size newRam r hsize hc hrun => ?_⟩
  · rw [hinv.freeList_eq] at hb
    rw [hinv.rep.size b hb]
    exact hl b hb
  · rw [hinv.header b hb]
    exact hlive b hb
  · exact (hinv.aligned_kmalloc hk hal hsize hc hrun).1

theorem run_aligned_page : HeadersAligned 8 (after zeroed (.kmalloc 104 4096)) ∧
    (after zeroed (.kmalloc 104 4096)).live = [⟨8072, 104⟩] := by
  refine ⟨(run_aligned (run_zeroed (by decide +kernel)) fun e he size newRam hcall => ?_).1, by decide +kernel⟩
  rw [List.mem_singleton.mp he] at hcall
  cases hcall
  decide

end Kmalloc
end GuideOS
