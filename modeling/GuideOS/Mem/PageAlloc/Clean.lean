import GuideOS.Mem.PageAlloc.Bitmap
import GuideOS.Mem.PageAlloc.MemoryRun

/-!
# A clean start

`pgalloc_init` does not write its bitmaps.  What follows it goes well exactly if the memory that
becomes the bitmaps holds zero where the bits are read, and if no two blocks that can be free at the
same time, of different orders, have their bits at one place.  Two orders share a place when a bitmap
is too short for its last bits, or when the bitmaps are empty and all lie at one address.
-/

namespace GuideOS
namespace PageAlloc

open Lib
open BootAlloc (final bootAllocInit)

namespace Kernel

/-- A page that a call may free: below the limit, with an address in the kernel's half, and apart from
the bitmaps and from the kernel's variables `V`. -/
structure Usable (V : Set Nat) (k : Kernel) (p : Nat) : Prop where
  below : (p + 1) * pgSize ≤ k.limit
  bitmaps : ∀ b, InBitmaps k b → b < pageVa p ∨ pageVa p + pgSize ≤ b
  vars : ∀ b ∈ V, b < pageVa p ∨ pageVa p + pgSize ≤ b

open scoped Classical in
noncomputable def usable (V : Set Nat) (k : Kernel) : Finset Nat :=
  (Finset.range (k.maxAddr / pgSize)).filter (k.Usable V)

/-- The kernels that legal calls lead to. -/
inductive Steps (V : Set Nat) (F : Finset Nat) (k : Kernel) : Kernel → Prop
  | refl : Steps V F k k
  | call {k₁ k₂ : Kernel} {c : Call} {r : Nat} (hk : Steps V F k k₁) (hc : k₁.Legal V F c)
      (hexec : k₁.exec c = .ok (r, k₂)) : Steps V F k k₂

/-- A start of the allocator from which no legal call reaches a panic. -/
structure Clean (V : Set Nat) (k : Kernel) : Prop extends Started k where
  returns : ∀ k₁, Steps V (k.usable V) k k₁ → ∀ c, k₁.Legal V (k.usable V) c → ∃ r k₂, k₁.exec c = .ok (r, k₂)

end Kernel

/-- The limit and the bitmaps that `pgalloc_init` sets, by what `boot_alloc` returns. -/
def prepared (k : Kernel) (maxMemAddr : Nat) : Kernel :=
  { k with
    maxAddr := pgRoundUp maxMemAddr
    pgallocBins := fun o => ⟨⟨0, 0⟩, ((bitmapAllocs k maxMemAddr)[o]?.map (·.result)).getD 0⟩ }

section

variable {V : Set Nat} {F : Finset Nat} {k k' k₁ : Kernel} {o o' i i' maxMemAddr : Nat}

theorem mem_usable {p : Nat} : p ∈ k.usable V ↔ k.Usable V p := by
  classical
  rw [Kernel.usable, Finset.mem_filter, Finset.mem_range]
  refine ⟨And.right, fun h => ⟨?_, h⟩⟩
  exact Nat.lt_of_succ_le ((Nat.le_div_iff_mul_le (by decide)).mpr (h.below.trans k.limit_le))

theorem usable_layout (h : NoClash (k.usable V) k) : Layout (k.usable V) k where
  below _ hp := (mem_usable.mp hp).below
  apart b hb _ hp := (mem_usable.mp hp).bitmaps b hb
  noClash := h

theorem usable_aside (hV : ∀ b ∈ V, ¬InBitmaps k b) : k.Aside V (k.usable V) := fun b hb =>
  ⟨hV b hb, fun _ hp => (mem_usable.mp hp).vars b hb⟩

/-! ## No clash, no panic -/

theorem Kernel.Steps.run (hrun : Kernel.Run V F [] k) (h : Kernel.Steps V F k k₁) : ∃ h, Kernel.Run V F h k₁ := by
  induction h with
  | refl => exact ⟨[], hrun⟩
  | call _ hc hexec ih =>
      obtain ⟨h, hrun'⟩ := ih
      exact ⟨_, hrun'.call hc hexec⟩

theorem Kernel.Run.returns {h : History} (hrun : Kernel.Run V F h k) {c : Call} (hc : k.Legal V F c) :
    ∃ r k', k.exec c = .ok (r, k') := by
  by_cases hreq : c.isRequest
  · obtain ⟨_, s, l, _, _, hh⟩ := hrun.held
    obtain ⟨_, r, _, _, k', _, hk', _⟩ := hh.request hreq hc
    exact ⟨r, k', hk'⟩
  · cases c with
    | clientStore va v => exact ⟨0, _, rfl⟩
    | _ => exact absurd rfl hreq

theorem Kernel.Started.clean (hk : k.Started) (hV : ∀ b ∈ V, ¬InBitmaps k b) (h : NoClash (k.usable V) k) :
    k.Clean V where
  toStarted := hk
  returns k₁ hsteps c hc := by
    obtain ⟨_, hrun⟩ := hsteps.run (.start k (usable_layout h) (usable_aside hV) hk)
    exact hrun.returns hc

/-! ## A clash is a panic -/

theorem sFreeBlock_pushBlock (ho : o ≤ maxOrder) (hi : 2 ^ o ∣ i) (hb : k.hasBuddy i o = false) :
    k.sFreeBlock i o = .ok ((k.toggle o (i >>> (o + 1))).pushBlock i o) := by
  rw [Kernel.sFreeBlock, dif_neg (by omega), if_neg (not_not.mpr ((mask_eq_zero_iff i o).mpr hi)),
    dif_neg (by rw [hb]; exact Bool.false_ne_true)]

/-- A bit that is set announces a buddy; here no list holds it. -/
theorem sFreeBlock_noBuddy (ho : o < maxOrder) (hi : 2 ^ o ∣ i) (hempty : (k.pgallocBins o).list.head = 0)
    (hbit : k.test o (i >>> (o + 1)) = true) (hbuddy : pageVa (i ^^^ (1 <<< o)) ≠ 0) :
    k.sFreeBlock i o = .error .buddyNotFound := by
  have hlink : (k.toggle o (i >>> (o + 1))).link o none = 0 := hempty
  have hfind : (k.toggle o (i >>> (o + 1))).findLink o (pageVa (i ^^^ (1 <<< o))) walkFuel none = some none := by
    rw [show walkFuel = (2 ^ 64 - 1) + 1 by decide, Kernel.findLink, if_neg (fun h => h.1 hlink)]
  have hunlink : (k.toggle o (i >>> (o + 1))).unlinkBuddy i o = .error .buddyNotFound := by
    simp only [Kernel.unlinkBuddy, hfind, hlink]
    rw [if_neg (Ne.symm hbuddy)]
  rw [Kernel.sFreeBlock, dif_neg (by omega), if_neg (not_not.mpr ((mask_eq_zero_iff i o).mpr hi)),
    dif_pos (by rw [Kernel.hasBuddy, if_neg (by omega), hbit]), hunlink]

/-- The pairs fill the kernel's half. -/
theorem buddy_va_ne_zero (ho : o < maxOrder) (hi : 2 ^ o ∣ i) (hbelow : (i + 1) * pgSize ≤ 2 ^ 64 - kernBase) :
    pageVa (i ^^^ (1 <<< o)) ≠ 0 := by
  have hhalf : 2 ^ 64 - kernBase = 2 ^ 35 * pgSize := by decide
  have hdvd : 2 ^ (o + 1) ∣ 2 ^ 35 := Nat.pow_dvd_pow 2 (by rw [maxOrder] at ho; omega)
  have hlt : buddy i o < 2 ^ 35 := by
    rw [hhalf] at hbelow
    have hi35 : i < 2 ^ 35 := Nat.lt_of_succ_le (Nat.le_of_mul_le_mul_right hbelow (by decide))
    have hdiv := buddy_div hi
    obtain ⟨n, hn⟩ := hdvd
    have hpos := Nat.two_pow_pos (o + 1)
    rw [hn] at hi35 ⊢
    rw [Nat.mul_comm] at hi35 ⊢
    rw [← Nat.div_lt_iff_lt_mul hpos] at hi35 ⊢
    omega
  rw [Nat.one_shiftLeft]
  refine pageVa_ne_zero (show kernBase + (2 ^ 64 - kernBase) ≤ 2 ^ 64 by decide) ?_
  rw [hhalf]
  exact Nat.mul_le_mul_right pgSize (Nat.succ_le_of_lt hlt)

theorem Kernel.pushBlock_list (k : Kernel) (i o o' : Nat) : ((k.pushBlock i o).pgallocBins o').list =
    if o' = o then ⟨pageVa i, (k.pgallocBins o).list.size + 1⟩ else (k.pgallocBins o').list :=
  (k.store (pageVa i) (k.pgallocBins o).list.head).setList_list o (pageVa i) ((k.pgallocBins o).list.size + 1) o'

/-- What the lists hold after the first block. -/
theorem freePages_pushed (hk : k.Started) (hi : (i + 1) * pgSize ≤ k.limit) {j : Nat} :
    freePages ((k.toggle o j).pushBlock i o).state ⊆ block i o := by
  intro p hp
  obtain ⟨o', _, hp'⟩ := Finset.mem_biUnion.mp hp
  obtain ⟨x, hx, hpx⟩ := Finset.mem_biUnion.mp hp'
  have hlist : (((k.toggle o j).pushBlock i o).state.bin o').list = if o' = o then ⟨pageVa i, 1⟩ else ⟨0, 0⟩ := by
    have hpush := (k.toggle o j).pushBlock_list i o o'
    have hrest : ∀ o', ((k.toggle o j).pgallocBins o').list = ⟨0, 0⟩ := hk.lists
    rw [hrest, hrest] at hpush
    exact hpush
  rw [List.mem_toFinset, freeList, hlist] at hx
  split at hx
  · rename_i heq
    have hwalk : walk 0 ((k.toggle o j).pushBlock i o).state.next 1 (pageVa i) = [pageVa i] := by
      rw [walk, if_neg (pageVa_ne_zero k.limit_fit hi)]
      rfl
    rw [hwalk, List.map_singleton, List.mem_singleton, pgIndex_kv2p_pageVa k.limit_fit hi] at hx
    rw [hx, heq] at hpx
    exact hpx
  · exact absurd hx List.not_mem_nil

theorem Kernel.Started.freePages (hk : k.Started) : freePages k.state = ∅ := freePages_of_lists hk.lists

theorem exec_free (hi : (i + 1) * pgSize ≤ k.limit) :
    k₁.exec (.free (pageVa i) o) = (k₁.sFreeBlock i o).map (Prod.mk 0) := by
  rw [Kernel.exec, Kernel.pgallocFree, pgIndex_kv2p_pageVa k.limit_fit hi]

/-- A block of usable pages may be freed as long as none of its pages is free. -/
theorem legal_free (hk : k.maxAddr = k₁.maxAddr) (ho : o ≤ maxOrder) (hi : 2 ^ o ∣ i) (hblock : block i o ⊆ k.usable V)
    (hfree : Disjoint (block i o) (PageAlloc.freePages k₁.state)) :
    k₁.Legal V (k.usable V) (.free (pageVa i) o) := by
  have hidx : pgIndex (kv2p (pageVa i)) = i :=
    pgIndex_kv2p_pageVa k.limit_fit (mem_usable.mp (hblock (self_mem_block i o))).below
  refine ⟨⟨⟨ho, by rw [hidx]; exact hi⟩, fun p hp => ?_⟩, by rw [freed, hidx]; exact hblock⟩
  rw [freed, hidx] at hp
  refine ⟨?_, Finset.disjoint_left.mp hfree hp⟩
  show _ ≤ k₁.maxAddr
  rw [← hk]
  exact (mem_usable.mp (hblock hp)).below.trans k.limit_le

/-- Two blocks apart that share a place: freeing the larger one and then the smaller one panics. -/
theorem Kernel.Clean.noClash (h : k.Clean V) : NoClash (k.usable V) k := by
  intro o o' i i' hlt ho' hi hi' hblock hblock' hdisj hplace
  have ho : o < maxOrder := by omega
  have hub := mem_usable.mp (hblock (self_mem_block i o))
  have hub' := mem_usable.mp (hblock' (self_mem_block i' o'))
  have hki := hub.below.trans k.limit_le
  have hki' := hub'.below.trans k.limit_le
  have hfirst : k.sFreeBlock i' o' = .ok ((k.toggle o' (i' >>> (o' + 1))).pushBlock i' o') := by
    refine sFreeBlock_pushBlock ho' hi' ?_
    rw [Kernel.hasBuddy, h.bits o' ho' i' hki', ite_self]
  have hlegal' : k.Legal V (k.usable V) (.free (pageVa i') o') :=
    legal_free rfl ho' hi' hblock' (by rw [h.freePages]; exact Finset.disjoint_empty_right _)
  have hstep : Kernel.Steps V (k.usable V) k ((k.toggle o' (i' >>> (o' + 1))).pushBlock i' o') :=
    .call .refl hlegal' (r := 0) (by rw [exec_free hub'.below, hfirst]; rfl)
  have hrelinks : Relinks {i'} (k.toggle o' (i' >>> (o' + 1))) ((k.toggle o' (i' >>> (o' + 1))).pushBlock i' o') :=
    (store_relinks (Finset.mem_singleton_self i') _ _).trans (setList_relinks _ _ _ _ _)
  have hbit : ((k.toggle o' (i' >>> (o' + 1))).pushBlock i' o').test o (i >>> (o + 1)) = true := by
    rw [hrelinks.test (fun b hb p hp => ?_) (Nat.le_of_lt ho) hki, Kernel.test_toggle, h.bits o (Nat.le_of_lt ho) i hki,
      hplace, decide_eq_true rfl, Bool.false_xor]
    rw [Finset.mem_singleton.mp hp]
    exact hub'.bitmaps b hb
  have hempty : (((k.toggle o' (i' >>> (o' + 1))).pushBlock i' o').pgallocBins o).list.head = 0 := by
    rw [Kernel.pushBlock_list, if_neg (Nat.ne_of_lt hlt)]
    exact congrArg FreePageList.head (h.lists o)
  have hhalf : (i + 1) * pgSize ≤ 2 ^ 64 - kernBase := hub.below.trans (Nat.min_le_right _ _)
  have hpanic := sFreeBlock_noBuddy ho hi hempty hbit (buddy_va_ne_zero ho hi hhalf)
  obtain ⟨r, k₂, hok⟩ := h.returns _ hstep (.free (pageVa i) o)
    (legal_free hrelinks.maxAddr.symm (Nat.le_of_lt ho) hi hblock
      (hdisj.mono_right (freePages_pushed h.toStarted hub'.below)))
  rw [exec_free hub.below, hpanic] at hok
  cases hok

theorem clean_iff (hV : ∀ b ∈ V, ¬InBitmaps k b) : k.Clean V ↔ k.Started ∧ NoClash (k.usable V) k :=
  ⟨fun h => ⟨h.toStarted, h.noClash⟩, fun h => h.1.clean hV h.2⟩

/-! ## `pgalloc_init` -/

theorem initLoop_above {bitmapSize n : Nat} (h : initLoop k bitmapSize n i = .ok k') (ho : i + n ≤ o) :
    k'.pgallocBins o = k.pgallocBins o := by
  induction n generalizing k i bitmapSize with
  | zero =>
      rw [initLoop, Except.ok.injEq] at h
      rw [h]
  | succ n ih =>
      simp only [initLoop] at h
      split at h
      · cases h
      · rw [ih h (by omega)]
        exact Function.update_of_ne (by omega) _ _

theorem pgallocInit_above (h : pgallocInit k maxMemAddr = .ok k') (ho : maxOrder < o) :
    (k'.pgallocBins o).bitmap = 0 := by
  rw [pgallocInit] at h
  split at h
  · cases h
  · rw [initLoop_above h (by omega)]

theorem pgallocInit_prepared (h : pgallocInit k maxMemAddr = .ok k') :
    k'.maxAddr = (prepared k maxMemAddr).maxAddr ∧
      ∀ o, (k'.pgallocBins o).bitmap = ((prepared k maxMemAddr).pgallocBins o).bitmap := by
  have hready := pgallocInit_ready h
  refine ⟨hready.maxAddr, fun o => ?_⟩
  rcases Nat.lt_or_ge maxOrder o with hlt | hle
  · have hnone : (bitmapAllocs k maxMemAddr)[o]? = none := by
      cases ha : (bitmapAllocs k maxMemAddr)[o]? with
      | none => rfl
      | some a =>
          obtain ⟨hlen, _⟩ := List.getElem?_eq_some_iff.mp (allocs_size ha)
          rw [length_bitmapSizes] at hlen
          omega
    rw [pgallocInit_above h hlt, prepared]
    dsimp only
    rw [hnone]
    rfl
  · obtain ⟨a, ha, _, hbitmap⟩ := hready.bitmap o hle
    rw [hbitmap, prepared]
    dsimp only
    rw [ha]
    rfl

theorem usable_congr (hmax : k'.maxAddr = k.maxAddr)
    (hbitmap : ∀ o, (k'.pgallocBins o).bitmap = (k.pgallocBins o).bitmap) : k'.usable V = k.usable V := by
  have hlimit : k'.limit = k.limit := by rw [Kernel.limit, Kernel.limit, hmax]
  ext p
  rw [mem_usable, mem_usable]
  constructor
  · exact fun h => ⟨hlimit ▸ h.below, fun b hb => h.bitmaps b ((inBitmaps_congr hmax hbitmap b).mpr hb), h.vars⟩
  · exact fun h => ⟨hlimit ▸ h.below, fun b hb => h.bitmaps b ((inBitmaps_congr hmax hbitmap b).mp hb), h.vars⟩

theorem Ready.started_iff (h : Ready k maxMemAddr k') : k'.Started ↔ Blank k maxMemAddr :=
  ⟨fun hk => h.bits_iff.mp hk.bits, fun hblank => ⟨h.list, h.bits_iff.mpr hblank⟩⟩

/-- `pgalloc_init` leaves a clean start exactly when the memory that it gets for the bitmaps holds zero
in their bits, and no two blocks apart that calls may free share the place of a bit. -/
theorem pgallocInit_clean_iff (h : pgallocInit k maxMemAddr = .ok k')
    (hV : ∀ b ∈ V, ¬InBitmaps (prepared k maxMemAddr) b) :
    k'.Clean V ↔ Blank k maxMemAddr ∧ NoClash ((prepared k maxMemAddr).usable V) (prepared k maxMemAddr) := by
  obtain ⟨hmax, hbitmap⟩ := pgallocInit_prepared h
  rw [clean_iff fun b hb hin => hV b hb ((inBitmaps_congr hmax hbitmap b).mp hin),
    (pgallocInit_ready h).started_iff, usable_congr hmax hbitmap, noClash_congr hbitmap]

/-- Fewer than four pages have no two blocks to clash. -/
theorem noClash_of_lt (hF : ∀ p ∈ F, p < 3) : NoClash F k := by
  intro o o' i i' hlt ho' hi hi' hblock hblock' hdisj hplace
  have hpow : 2 * 2 ^ o ≤ 2 ^ o' := by
    rw [← Nat.pow_succ']
    exact Nat.pow_le_pow_right (by decide) hlt
  have hpos := Nat.two_pow_pos o
  have hlast := hF (i' + 2 ^ o' - 1) (hblock' (mem_block.mpr (by omega)))
  have hsmall := hF (i + 2 ^ o - 1) (hblock (mem_block.mpr (by omega)))
  have hfour : o' < 2 := by
    by_contra hge
    have := Nat.pow_le_pow_right (show 0 < 2 by decide) (Nat.le_of_not_lt hge)
    omega
  obtain rfl : o = 0 := by omega
  obtain rfl : o' = 1 := by omega
  obtain rfl : i' = 0 := by omega
  -- The pages `0` and `1` are taken, and page `2` is of another pair.
  have hout := Finset.disjoint_left.mp hdisj (self_mem_block i 0)
  rw [mem_block] at hout
  obtain rfl : i = 2 := by omega
  have hbits : 2 >>> (0 + 1) % 8 = 0 >>> (1 + 1) % 8 := congrArg Prod.snd hplace
  exact absurd hbits (by decide)

/-- Bitmaps that are large enough keep the places apart. -/
theorem BitmapsFit.noClash (h : pgallocInit k maxMemAddr = .ok k') (hfit : BitmapsFit k maxMemAddr k') :
    NoClash ((prepared k maxMemAddr).usable V) (prepared k maxMemAddr) := by
  obtain ⟨hmax, hbitmap⟩ := pgallocInit_prepared h
  rw [← noClash_congr hbitmap, ← usable_congr hmax hbitmap]
  intro o o' i i' hlt ho' hi hi' hblock hblock' _ hplace
  have hpages : ∀ j ∈ k'.usable V, j < k'.maxAddr / pgSize := fun j hj =>
    Nat.lt_of_succ_le ((Nat.le_div_iff_mul_le (by decide)).mpr ((mem_usable.mp hj).below.trans k'.limit_le))
  have hin := hfit.inside o (by omega) i (hpages i (hblock (self_mem_block i o))) hi
    ((i >>> (o + 1)) % 32 / 8) (by omega)
  have hin' := hfit.inside o' ho' i' (hpages i' (hblock' (self_mem_block i' o'))) hi'
    ((i' >>> (o' + 1)) % 32 / 8) (by omega)
  have hbyte : wordAddr k' o i + (i >>> (o + 1)) % 32 / 8 = wordAddr k' o' i' + (i' >>> (o' + 1)) % 32 / 8 :=
    congrArg Prod.fst hplace
  rw [hbyte] at hin
  exact Set.disjoint_left.mp (hfit.disjoint o (by omega) o' ho' (by omega)) hin hin'

end

/-- The image of a kernel that ends at 2 MiB -/
def imageBytes : Set Nat := Set.Ico (kernBase + 1024 * 1024) 0xFFFF800000200000

theorem kmainKernel_inBitmaps {mem : Bytes} {b : Nat}
    (hb : InBitmaps (prepared (kmainKernel mem) (4 * 1024 * 1024 * 1024)) b) : 0xFFFF800000202000 ≤ b := by
  obtain ⟨k', hinit⟩ := exists_kmainKernel_init mem
  have hready := pgallocInit_ready hinit
  obtain ⟨hmax, hbitmap⟩ := pgallocInit_prepared hinit
  obtain ⟨o, ho, i, hi, hlo, _⟩ := (inBitmaps_congr hmax hbitmap b).mpr hb
  obtain ⟨a, ha, _⟩ := hready.bitmap o ho
  have hword := (hready.word (kmainKernel_room mem) ho ha hi).2.1
  have hresult : ∀ a ∈ bitmapAllocs (kmainKernel mem) (4 * 1024 * 1024 * 1024), 0xFFFF800000202000 ≤ a.result := by
    show ∀ a ∈ bitmapAllocs (kmainKernel fun _ => 0) (4 * 1024 * 1024 * 1024), _
    decide +kernel
  have := hresult a (List.mem_of_getElem? ha)
  omega

theorem kmainKernel_image (mem : Bytes) :
    ∀ b ∈ imageBytes, ¬InBitmaps (prepared (kmainKernel mem) (4 * 1024 * 1024 * 1024)) b := fun b hb hin => by
  have := kmainKernel_inBitmaps hin
  have := hb.2
  omega

/-- Memory that was zero. -/
theorem pgallocInit_clean_kmain : ∃ k',
    pgallocInit (kmainKernel fun _ => 0) (4 * 1024 * 1024 * 1024) = .ok k' ∧ k'.Clean imageBytes := by
  obtain ⟨k', hinit⟩ := exists_kmainKernel_init fun _ => 0
  have hfit := (pgallocInit_ready hinit).bitmapsFit (Or.inl (by decide +kernel))
  refine ⟨k', hinit, (pgallocInit_clean_iff hinit (kmainKernel_image _)).mpr ⟨fun o _ a _ i _ => ?_, hfit.noClash hinit⟩⟩
  rw [bitmapTest_eq_getLsbD, bitmapAt]
  have hword : loadLE (kmainKernel fun _ => 0).mem
      ((a.result + 4 * ((i >>> (o + 1)) / 32)) % 2 ^ 64) 4 = 0 :=
    loadLE_zero fun _ _ _ => rfl
  rw [hword]
  simp

/-- One bit left set in the first bitmap: freeing page `0` panics. -/
theorem not_clean_leftover : ∃ k k', pgallocInit k (4 * 1024 * 1024 * 1024) = .ok k' ∧
    k'.Legal imageBytes (k'.usable imageBytes) (.free (pageVa 0) 0) ∧
    k'.exec (.free (pageVa 0) 0) = .error .buddyNotFound ∧ ¬k'.Clean imageBytes := by
  let mem : Bytes := fun b => if b = 0xFFFF800000202000 then 1 else 0
  obtain ⟨k', hinit⟩ := exists_kmainKernel_init mem
  have hready := pgallocInit_ready hinit
  obtain ⟨hmax, hbitmap⟩ := pgallocInit_prepared hinit
  have hlimit : k'.limit = 4 * 1024 * 1024 * 1024 := by
    rw [Kernel.limit, hready.maxAddr]
    decide +kernel
  have hbelow : (0 + 1) * pgSize ≤ k'.limit := by
    rw [hlimit]
    decide
  have hbit : k'.test 0 (0 >>> (0 + 1)) = true := by
    obtain ⟨a, ha, _, haddr⟩ := hready.bitmap 0 (by decide)
    have hresult : a.result = 0xFFFF800000202000 := by
      have hfirst : (bitmapAllocs (kmainKernel mem) (4 * 1024 * 1024 * 1024))[0]?.map (·.result) =
          some 0xFFFF800000202000 := by
        show (bitmapAllocs (kmainKernel fun _ => 0) (4 * 1024 * 1024 * 1024))[0]?.map (·.result) = _
        decide +kernel
      rw [ha, Option.map_some, Option.some.injEq] at hfirst
      exact hfirst
    rw [Kernel.test, hready.mem, haddr, hresult]
    decide +kernel
  have hva : pageVa 0 = kernBase := by decide
  have husable : k'.Usable imageBytes 0 := by
    refine ⟨hbelow, fun b hb => ?_, fun b hb => ?_⟩
    · have := kmainKernel_inBitmaps ((inBitmaps_congr hmax hbitmap b).mp hb)
      rw [hva, pgSize, kernBase]
      omega
    · have := hb.1
      rw [hva, pgSize]
      omega
  have hblock : block 0 0 ⊆ k'.usable imageBytes := fun p hp => by
    obtain rfl : p = 0 := by
      rw [mem_block] at hp
      omega
    exact mem_usable.mpr husable
  have hlegal : k'.Legal imageBytes (k'.usable imageBytes) (.free (pageVa 0) 0) := by
    refine legal_free rfl (by decide) (Nat.dvd_zero _) hblock ?_
    have hnone : freePages k'.state = ∅ := freePages_of_lists hready.list
    rw [hnone]
    exact Finset.disjoint_empty_right _
  have hempty : (k'.pgallocBins 0).list.head = 0 := by rw [hready.list]
  have hexec : k'.exec (.free (pageVa 0) 0) = .error .buddyNotFound := by
    rw [exec_free hbelow, sFreeBlock_noBuddy (by decide) (Nat.dvd_zero _) hempty hbit (by decide)]
    rfl
  refine ⟨_, k', hinit, hlegal, hexec, fun hclean => ?_⟩
  obtain ⟨r, k₂, hok⟩ := hclean.returns _ .refl _ hlegal
  rw [hexec] at hok
  cases hok

end PageAlloc
end GuideOS
