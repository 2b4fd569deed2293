import GuideOS.Mem.Kmalloc
import GuideOS.Mem.PageAlloc.MemoryRun
import GuideOS.Mem.Vmm

/-!
# Memory at boot

What `kmain` does with memory: the boot allocator takes over behind the kernel image, `vmm_init`
and `pgalloc_init` take their pages from it, and the rest of the first 64 MiB goes to the page
allocator.  The tables, the bitmaps and the pages fed in lie one behind the other, behind the image.
-/

namespace GuideOS
namespace Kmain

open Lib BootAlloc PageAlloc Vmm

inductive BootPanic
  | vmm (e : VmmPanic)
  | pgalloc (e : InitPanic)
  | freeRange (e : PageAlloc.Panic)

/-- The memory and the variables of `boot_alloc.c`, `vm.c`, `page_alloc.c` and `kmalloc.c`. -/
structure Machine where
  kernel : Kernel
  kernPml4 : Nat
  cr3 : Nat
  sizeList : Nat

/-- `4UL * 1024 * 1024 * 1024` -/
def memLimit : Nat := 4 * 1024 * 1024 * 1024

/-- `64 * 1024 * 1024` -/
def feedSize : Nat := 64 * 1024 * 1024

/-- `kmain` from `boot_alloc_disable` on -/
def kmainFeed (vm : Vmm.State) (k : Kernel) : Except BootPanic Machine :=
  let r := bootAllocDisable k.zone
  let heap := Kmalloc.kmallocInit k.mem
  ((Kernel.pgallocFreeRange { k with zone := r.2 } r.1 (p2kv feedSize)).mapError .freeRange).map fun k' =>
    ⟨k', vm.kernPml4, vm.cr3, heap.sizeList⟩

/-- The calls of `kmain` that set up memory. -/
def kmain (kernEnd : Nat) (mem : Bytes) : Except BootPanic Machine := do
  let vm ← (vmmInit ⟨bootAllocInit .boot kernEnd feedSize, mem, 0, 0⟩).mapError .vmm
  let k ← (pgallocInit ⟨0, fun _ => ⟨⟨0, 0⟩, 0⟩, vm.zone, vm.mem⟩ memLimit).mapError .pgalloc
  kmainFeed vm k

/-- The image ends with a page of the physical map, the zone lies in the map, and the variables `V` of
the kernel lie in front of it. -/
structure Placed (V : Set Nat) (kernEnd : Nat) : Prop where
  dvd : pgSize ∣ kernEnd
  le : kernBase ≤ kernEnd
  lt : kernEnd + 64 * 1024 * 1024 ≤ kernPhymapTop
  vars : ∀ b ∈ V, b < kernEnd

/-- Memory that is zero where the bitmaps come to lie. -/
def ZeroBitmaps (kernEnd : Nat) (mem : Bytes) : Prop :=
  ∀ b, kernEnd + 2 * 4096 ≤ b → b < kernEnd + 39 * 4096 → mem b = 0

/-! ## The boot allocator -/

section

variable {s : BootAlloc.State} {n : Nat}

theorem bootAlloc_granted (hfit : s.beginKva + paged n < s.endKva) (hend : s.endKva ≤ 2 ^ 64) :
    bootAlloc s n = (s.beginKva, { s with beginKva := s.beginKva + paged n }) := by
  have hround := roundUpPwr2_eq_paged (n := n) (by omega)
  have hmod : (s.beginKva + paged n) % 2 ^ 64 = s.beginKva + paged n := Nat.mod_eq_of_lt (by omega)
  rw [bootAlloc, fits, hround, hmod, if_pos (decide_eq_true hfit)]

theorem not_astray_of_fit (hne : s.beginKva ≠ 0) (hfit : s.beginKva + paged n < 2 ^ 64) : ¬Astray s n := by
  rintro ⟨_, ⟨_, hwrap⟩ | ⟨h0, _⟩⟩
  · omega
  · exact hne h0

/-- Requests that all fit the zone are granted. -/
theorem allocs_granted (s : BootAlloc.State) (ns : List Nat) (hne : s.beginKva ≠ 0) (hfit : s.beginKva + (ns.map paged).sum < s.endKva)
    (hend : s.endKva ≤ 2 ^ 64) :
    (∀ a ∈ allocs s ns, a.result ≠ 0 ∧ ¬Astray a.before a.size) ∧
      final s ns = { s with beginKva := s.beginKva + (ns.map paged).sum } := by
  induction ns generalizing s with
  | nil => exact ⟨fun a ha => absurd ha List.not_mem_nil, rfl⟩
  | cons n ns ih =>
      rw [List.map_cons, List.sum_cons] at hfit
      have hok : bootAlloc s n = (s.beginKva, { s with beginKva := s.beginKva + paged n }) :=
        bootAlloc_granted (by omega) hend
      obtain ⟨hrest, hfinal⟩ := ih (bootAlloc s n).2 (by rw [hok]; show s.beginKva + paged n ≠ 0; omega)
        (by rw [hok]; show s.beginKva + paged n + _ < s.endKva; omega) (by rw [hok]; exact hend)
      have hstray : ¬Astray s n := not_astray_of_fit hne (by omega)
      refine ⟨fun a ha => ?_, ?_⟩
      · rw [allocs] at ha
        rcases List.mem_cons.mp ha with rfl | ha
        · exact ⟨by rw [hok]; exact hne, hstray⟩
        · exact hrest a ha
      · rw [final_cons, hfinal, hok, List.map_cons, List.sum_cons, ← Nat.add_assoc]

end

theorem Placed.init {V : Set Nat} {kernEnd : Nat} (h : Placed V kernEnd) :
    bootAllocInit .boot kernEnd feedSize = ⟨kernEnd, kernEnd + 64 * 1024 * 1024, true⟩ := by
  have hlt := h.lt
  have htop : kernPhymapTop < 2 ^ 64 := by decide
  have hround : roundUpPwr2 kernEnd pgSize = kernEnd := by
    obtain ⟨k, hk⟩ := h.dvd
    rw [roundUpPwr2_eq_paged]
    · rw [paged, hk]
      simp only [pgSize]
      omega
    · rw [paged]
      simp only [pgSize]
      omega
  have hend : (kernEnd + feedSize) % 2 ^ 64 = kernEnd + 64 * 1024 * 1024 := Nat.mod_eq_of_lt (by
    rw [feedSize]
    omega)
  simp only [bootAllocInit, BootAlloc.State.boot, hround, hend]
  rfl

/-! ## The page tables -/

section

variable {s s' : Vmm.State} {p p₁ p₂ i : Nat} {zone₁ zone₂ : BootAlloc.State}

theorem mapLoop_zone (hp : PhysPage p) (hi : 1 ≤ i) (hle : i ≤ 512)
    (h : mapLoop s p (kernBase + i * 2 ^ 30) = .ok s') : s'.zone = s.zone := by
  induction hn : 512 - i generalizing s i with
  | zero =>
      have hi : i = 512 := by omega
      subst hi
      rw [mapLoop, if_neg (by decide)] at h
      cases h
      rfl
  | succ n ih =>
      rw [mapLoop_succ s hp hi (by omega)] at h
      exact ih (s := { s with mem := store64 s.mem (p + 8 * i) (i * 2 ^ 30 + 0x83) }) (i := i + 1)
        (by omega) (by omega) h (by omega)

theorem vmmLoadKtable_zone (s : Vmm.State) : (vmmLoadKtable s).zone = s.zone := by
  rw [vmmLoadKtable]

/-- Besides the tables, `vmm_init` leaves memory as it is. -/
theorem vmmInit_frame (h₁ : bootAlloc s.zone pgSize = (p₁, zone₁)) (h₂ : bootAlloc zone₁ pgSize = (p₂, zone₂))
    (hp₁ : PhysPage p₁) (hp₂ : PhysPage p₂) (h : vmmInit s = .ok s') :
    s'.zone = zone₂ ∧
      ∀ b, (b < p₁ ∨ p₁ + pgSize ≤ b) → (b < p₂ ∨ p₂ + pgSize ≤ b) → s'.mem b = s.mem b := by
  have hne₁ : p₁ ≠ 0 := by
    have hle := hp₁.le
    rw [kernBase] at hle
    omega
  have htop : kernPhymapTop < 2 ^ 64 := by decide
  have hlt₁ := hp₁.lt
  have hlt₂ := hp₂.lt
  have hsize : pgSize = 4096 := rfl
  have hzero : ∀ {m : Bytes} {p b : Nat}, p + pgSize ≤ 2 ^ 64 → (b < p ∨ p + pgSize ≤ b) →
      Str.memset m p 0 pgSize b = m b := fun hp hb => by
    rw [Str.memset_apply hp (by decide), if_neg (by omega)]
  let s₁ : Vmm.State := { s with mem := Str.memset s.mem p₁ 0 pgSize, kernPml4 := p₁, zone := zone₁ }
  let mem := store64 (Str.memset s₁.mem p₂ 0 pgSize) (p₁ + 8 * 256) (kv2p p₂ + 3)
  obtain ⟨t, hrun, hmapped⟩ := mapLoop_ok (s := { s₁ with zone := zone₂, mem := store64 mem p₂ 0x83 })
    hp₂ (Nat.le_refl 1) (by decide)
  have hzone : t.zone = zone₂ := mapLoop_zone hp₂ (Nat.le_refl 1) (by decide) hrun
  have hloop : mapLoop s₁ 0 kernBase = .ok t := (mapLoop_zero s₁ hp₁ h₂ hp₂).trans hrun
  have hok : vmmInit s = .ok (vmmLoadKtable t) := by
    rw [vmmInit, h₁]
    dsimp only [bind, Except.bind, pure, Except.pure]
    rw [if_neg hne₁, if_neg (not_not_intro (Nat.mod_eq_zero_of_dvd hp₁.dvd)), hloop]
  have hs' : s' = vmmLoadKtable t := Except.ok.inj (h.symm.trans hok)
  rw [hs']
  refine ⟨by rw [vmmLoadKtable_zone, hzone], fun b hb₁ hb₂ => ?_⟩
  rw [vmmLoadKtable_mem, hmapped.outside b (by omega)]
  have hpages : mem b = Str.memset s₁.mem p₂ 0 pgSize b := store64_outside (by omega)
  have hfirst : s₁.mem b = s.mem b := hzero (by omega) hb₁
  exact (store64_outside (by omega)).trans (hpages.trans ((hzero (by omega) hb₂).trans hfirst))

/-- The walk over the tables. -/
theorem tables_walk (ht : Tables s p₁ p₂) (hp₁ : PhysPage p₁) (hp₂ : PhysPage p₂) {va : Nat}
    (hva : Canonical va) :
    pageWalk (readPhys s.mem) s.cr3 va =
      if kernBase ≤ va ∧ va < kernPhymapTop then .page ⟨va - kernBase, 2 ^ 30, true, false⟩
      else .notPresent := by
  have hidx : ∀ n va, tableIndex n va < 512 := fun n va => Nat.mod_lt _ (by decide)
  have hroot : frame 12 s.cr3 = kv2p p₁ := by
    rw [ht.cr3]
    have hframe := hp₁.frame_add 0 (by decide)
    rwa [Nat.add_zero] at hframe
  have he := hp₁.readPhys s.mem (hidx 3 va)
  rw [ht.root _ (hidx 3 va), ← hroot] at he
  by_cases hin : kernBase ≤ va ∧ va < kernPhymapTop
  · rw [if_pos ((tableIndex_three hva).mpr hin)] at he
    have he' := hp₂.readPhys s.mem (hidx 2 va)
    rw [ht.pages _ (hidx 2 va), ← hp₂.frame_add 3 (by decide)] at he'
    have hpa : tableIndex 2 va * 2 ^ 30 + va % 2 ^ 30 = va - kernBase := by
      rw [tableIndex, kernBase]
      rw [kernPhymapTop_eq, kernBase] at hin
      omega
    rw [if_pos hin, pageWalk_huge he he' (hp₂.testBit (by decide) (by decide))
      (hp₂.testBit (by decide) (by decide)) (testBit_add_flags (by decide) (by decide))
      (testBit_add_flags (by decide) (by decide)),
      frame_add_flags (by decide) (Nat.lt_trans (hidx 2 va) (by decide)),
      hp₂.testBit (by decide) (by decide), hp₂.testBit (by decide) (by decide),
      testBit_add_flags (by decide) (by decide), testBit_add_flags (by decide) (by decide), hpa]
    rfl
  · rw [if_neg (mt (tableIndex_three hva).mp hin)] at he
    rw [if_neg hin]
    exact pageWalk_notPresent (by rw [he, Nat.zero_testBit])

/-- Only the two pages matter. -/
theorem tables_congr (ht : Tables s p₁ p₂) (mem : Bytes)
    (h₁ : ∀ b, p₁ ≤ b → b < p₁ + pgSize → mem b = s.mem b) (h₂ : ∀ b, p₂ ≤ b → b < p₂ + pgSize → mem b = s.mem b) :
    Tables { s with mem := mem } p₁ p₂ where
  kernPml4 := ht.kernPml4
  cr3 := ht.cr3
  root j hj := by
    rw [← ht.root j hj]
    refine load64_congr fun b hb hb' => h₁ b (by omega) ?_
    rw [pgSize]
    omega
  pages j hj := by
    rw [← ht.pages j hj]
    refine load64_congr fun b hb hb' => h₂ b (by omega) ?_
    rw [pgSize]
    omega

end

/-! ## The bitmaps -/

/-- The pages behind the tables and the bitmaps. -/
def ramPages (kernEnd : Nat) : Finset Nat := Finset.Ico ((kernEnd - kernBase) / pgSize + 39) 16384

section

variable {k k' : Kernel} {maxMemAddr n i bitmapSize : Nat}

theorem initLoop_zone (h : initLoop k bitmapSize n i = .ok k') : k'.zone = final k.zone (bitmapSizes bitmapSize n) := by
  induction n generalizing k i bitmapSize with
  | zero =>
      rw [initLoop, Except.ok.injEq] at h
      rw [← h]
      rfl
  | succ n ih =>
      simp only [initLoop] at h
      split at h
      · cases h
      · exact ih h

theorem pgallocInit_zone (h : pgallocInit k maxMemAddr = .ok k') :
    k'.zone = final k.zone (bitmapSizes (bitmapBytes maxMemAddr) (maxOrder + 1)) := by
  rw [pgallocInit] at h
  split at h
  · cases h
  · have hzone := initLoop_zone h
    exact hzone

end

theorem bitmaps_sum :
    ((bitmapSizes (bitmapBytes memLimit) (maxOrder + 1)).map paged).sum = 37 * 4096 := by
  decide +kernel

section

variable {V : Set Nat} {kernEnd : Nat} {k k' : Kernel}

/-- The kernel as `pgalloc_init` finds it. -/
structure Fresh (kernEnd : Nat) (k : Kernel) : Prop where
  maxAddr : k.maxAddr = 0
  zone : k.zone = ⟨kernEnd + 2 * 4096, kernEnd + 64 * 1024 * 1024, true⟩

theorem Placed.final_tables (hp : Placed V kernEnd) :
    final (bootAllocInit .boot kernEnd feedSize) [4096, 4096] =
      ⟨kernEnd + 2 * 4096, kernEnd + 64 * 1024 * 1024, true⟩ := by
  have hlt := hp.lt
  have hle := hp.le
  have htop : kernPhymapTop < 2 ^ 64 := by decide
  have hbase : 0 < kernBase := by decide
  have hsum : ([4096, 4096].map paged).sum = 2 * 4096 := by decide
  obtain ⟨_, hfinal⟩ := allocs_granted ⟨kernEnd, kernEnd + 64 * 1024 * 1024, true⟩ [4096, 4096]
    (by show kernEnd ≠ 0; omega) (by rw [hsum]; show kernEnd + 2 * 4096 < kernEnd + _; omega)
    (by show kernEnd + _ ≤ 2 ^ 64; omega)
  rw [hp.init]
  refine hfinal.trans ?_
  simp only [hsum]

theorem Fresh.granted (hf : Fresh kernEnd k) (hp : Placed V kernEnd) :
    (∀ a ∈ bitmapAllocs k memLimit, a.result ≠ 0 ∧ ¬Astray a.before a.size) ∧
      final k.zone (bitmapSizes (bitmapBytes memLimit) (maxOrder + 1)) =
        ⟨kernEnd + 39 * 4096, kernEnd + 64 * 1024 * 1024, true⟩ := by
  have hlt := hp.lt
  have hle := hp.le
  have htop : kernPhymapTop < 2 ^ 64 := by decide
  have hbase : 0 < kernBase := by decide
  obtain ⟨hok, hfinal⟩ := allocs_granted k.zone (bitmapSizes (bitmapBytes memLimit) (maxOrder + 1))
    (by rw [hf.zone]; show kernEnd + 2 * 4096 ≠ 0; omega)
    (by rw [bitmaps_sum, hf.zone]; show kernEnd + 2 * 4096 + _ < kernEnd + _; omega)
    (by rw [hf.zone]; show kernEnd + _ ≤ 2 ^ 64; omega)
  refine ⟨hok, ?_⟩
  have hend : kernEnd + 2 * 4096 + 37 * 4096 = kernEnd + 39 * 4096 := by omega
  refine hfinal.trans ?_
  simp only [bitmaps_sum, hf.zone, hend]

theorem Fresh.room (hf : Fresh kernEnd k) (hp : Placed V kernEnd) : Room k memLimit where
  zone := ⟨kernEnd, _, _, hf.zone.trans hp.final_tables.symm⟩
  straight a ha := ((hf.granted hp).1 a ha).2
  covered := by decide +kernel

theorem maxAddr_kmain : pgRoundUp memLimit = 2 ^ 32 := by decide +kernel

/-- The words of the bitmaps lie between the tables and the pages. -/
theorem Fresh.word (hf : Fresh kernEnd k) (hp : Placed V kernEnd)
    (hready : Ready k memLimit k') {o i : Nat} (ho : o ≤ maxOrder)
    (hi : (i + 1) * pgSize ≤ k'.maxAddr) :
    wordAddr k' o i = (k'.pgallocBins o).bitmap + 4 * ((i >>> (o + 1)) / 32) ∧
      kernEnd + 2 * 4096 ≤ wordAddr k' o i ∧ wordAddr k' o i + 4 ≤ kernEnd + 39 * 4096 := by
  obtain ⟨a, ha, hne, hbitmap⟩ := hready.bitmap o ho
  obtain ⟨_, hlo, hhi⟩ := hready.word (hf.room hp) ho ha hi
  have hdvd : pgSize ∣ k.zone.beginKva := by
    rw [hf.zone]
    exact Nat.dvd_add hp.dvd (by decide)
  obtain ⟨_, hsound, _⟩ := allocs_sound _ hdvd (hf.room hp).straight
  have hmem := List.mem_of_getElem? ha
  have habove := ((hsound a hmem).above hne).2
  have hbelow := ((hsound a hmem).below hne).2
  rw [(hf.granted hp).2] at hbelow
  rw [hf.zone] at habove
  have habove' : kernEnd + 2 * 4096 ≤ a.result := habove
  have hbelow' : a.result + paged a.size ≤ kernEnd + 39 * 4096 := hbelow
  have hlt := hp.lt
  have htop : kernPhymapTop = kernBase + 2 ^ 39 := kernPhymapTop_eq
  have hbase : kernBase = 0xFFFF800000000000 := rfl
  have hshift : i >>> (o + 1) ≤ i := by
    rw [Nat.shiftRight_eq_div_pow]
    exact Nat.div_le_self _ _
  rw [hready.maxAddr, maxAddr_kmain, pgSize] at hi
  refine ⟨?_, by omega, by omega⟩
  rw [wordAddr, hbitmap, Nat.mod_eq_of_lt (by omega)]

theorem mem_ramPages {p : Nat} (hp : Placed V kernEnd) (h : p ∈ ramPages kernEnd) :
    p < 16384 ∧ kernEnd + 39 * 4096 ≤ kernBase + p * 4096 := by
  obtain ⟨hlo, hhi⟩ := Finset.mem_Ico.mp h
  obtain ⟨e, he⟩ := hp.dvd
  have hle := hp.le
  have hbase : kernBase = 0xFFFF800000000000 := rfl
  rw [pgSize] at hlo he
  omega

theorem ram_pageVa {p : Nat} (hp : Placed V kernEnd) (h : p ∈ ramPages kernEnd) :
    pageVa p = kernBase + p * 4096 ∧ kernEnd + 39 * 4096 ≤ pageVa p := by
  obtain ⟨hlt, hge⟩ := mem_ramPages hp h
  have hva := pageVa_eq (show kernBase + 2 ^ 32 ≤ 2 ^ 64 by decide) (i := p) (by rw [pgSize]; omega)
  rw [pgSize] at hva
  exact ⟨hva, by rw [hva]; exact hge⟩

theorem Fresh.layout (hf : Fresh kernEnd k) (hp : Placed V kernEnd)
    (hready : Ready k memLimit k') : Layout (ramPages kernEnd) k' where
  below p hmem := by
    have hlt := (mem_ramPages hp hmem).1
    rw [Kernel.limit, hready.maxAddr, maxAddr_kmain, kernBase, pgSize]
    omega
  apart b hb p hmem := by
    obtain ⟨o, ho, i, hi, _, hlt⟩ := hb
    obtain ⟨_, _, hend⟩ := hf.word hp hready ho hi
    have hge := (ram_pageVa hp hmem).2
    exact Or.inl (by omega)
  noClash := (hready.separate (hf.room hp)).noClash fun p hmem => by
    have hlt := (mem_ramPages hp hmem).1
    rw [hready.maxAddr, maxAddr_kmain, pgSize]
    omega

theorem Fresh.aside (hf : Fresh kernEnd k) (hp : Placed V kernEnd)
    (hready : Ready k memLimit k') : k'.Aside V (ramPages kernEnd) := by
  intro b hb
  have hlt := hp.vars b hb
  refine ⟨fun ⟨o, ho, i, hi, hlo, _⟩ => ?_, fun p hmem => ?_⟩
  · obtain ⟨_, hge, _⟩ := hf.word hp hready ho hi
    omega
  · have hge := (ram_pageVa hp hmem).2
    exact Or.inl (by omega)

theorem Fresh.clear (hf : Fresh kernEnd k) (hp : Placed V kernEnd)
    (hready : Ready k memLimit k')
    (hzero : ZeroBitmaps kernEnd k.mem) {o i : Nat} (ho : o ≤ maxOrder)
    (hi : (i + 1) * pgSize ≤ k'.maxAddr) : k'.test o (i >>> (o + 1)) = false := by
  obtain ⟨_, hlo, hhi⟩ := hf.word hp hready ho hi
  rw [wordAddr] at hlo hhi
  have hword : bitmapAt k'.mem (k'.pgallocBins o).bitmap ((i >>> (o + 1)) / 32) = 0#32 := by
    rw [bitmapAt, hready.mem, loadLE_zero fun b hb hb' => hzero b (by omega) (by omega)]
  rw [Kernel.test, bitmapTest_eq_getLsbD, hword, BitVec.getLsbD_zero]

/-- `pgalloc_init` leaves an allocator that a run can start from. -/
theorem Fresh.init (hf : Fresh kernEnd k) (hp : Placed V kernEnd)
    (hzero : ZeroBitmaps kernEnd k.mem) :
    ∃ k', pgallocInit k memLimit = .ok k' ∧ k'.mem = k.mem ∧
      bootAllocDisable k'.zone = (kernEnd + 39 * 4096, ⟨0, 0, true⟩) ∧
      (∀ b, InBitmaps k' b → kernEnd + 2 * 4096 ≤ b ∧ b < kernEnd + 39 * 4096) ∧
      k'.maxAddr = 2 ^ 32 ∧ ∀ zone, Kernel.Run V (ramPages kernEnd) [] { k' with zone := zone } := by
  obtain ⟨k', hinit⟩ := pgallocInit_ok hf.maxAddr fun a ha => ((hf.granted hp).1 a ha).1
  have hready := pgallocInit_ready hinit
  have hlay := hf.layout hp hready
  have haside := hf.aside hp hready
  refine ⟨k', hinit, hready.mem, ?_, fun b hb => ?_, hready.maxAddr.trans maxAddr_kmain, fun zone => ?_⟩
  · rw [pgallocInit_zone hinit, (hf.granted hp).2]
    rfl
  · obtain ⟨o, ho, i, hi, hlo, hhi⟩ := hb
    obtain ⟨_, hlo', hhi'⟩ := hf.word hp hready ho hi
    omega
  · exact .start _ (hlay.congr rfl fun _ => rfl) haside
      ⟨hready.list, fun o ho i hi => hf.clear hp hready hzero ho hi⟩

end

/-! ## The boot -/

/-- The range that `kmain` gives to the page allocator. -/
def ramRange (kernEnd : Nat) : Call := .freeRange (kernEnd + 39 * 4096) (p2kv feedSize)

/-- What `kmain` leaves. -/
structure Booted (V : Set Nat) (kernEnd : Nat) (mem : Bytes) (m : Machine) : Prop where
  run : Kernel.Run V (ramPages kernEnd) [(ramRange kernEnd, 0)] m.kernel
  free : freePages m.kernel.state = ramPages kernEnd
  tables : Tables ⟨m.kernel.zone, m.kernel.mem, m.kernPml4, m.cr3⟩ kernEnd (kernEnd + 4096)
  bitmaps : ∀ b, InBitmaps m.kernel b → kernEnd + 2 * 4096 ≤ b ∧ b < kernEnd + 39 * 4096
  image : ∀ b < kernEnd, m.kernel.mem b = mem b
  heap : m.sizeList = 0

section

variable {V : Set Nat} {kernEnd : Nat} {mem : Bytes}

theorem Placed.physPage (hp : Placed V kernEnd) : PhysPage kernEnd where
  dvd := hp.dvd
  le := hp.le
  lt := by
    have hlt := hp.lt
    rw [pgSize]
    omega

theorem Placed.physPage_next (hp : Placed V kernEnd) : PhysPage (kernEnd + 4096) where
  dvd := Nat.dvd_add hp.dvd (by decide)
  le := by
    have hle := hp.le
    omega
  lt := by
    have hlt := hp.lt
    rw [pgSize]
    omega

theorem freed_ramRange (hp : Placed V kernEnd) : freed (ramRange kernEnd) = ramPages kernEnd := by
  have hlt := hp.lt
  have hle := hp.le
  have htop : kernPhymapTop = kernBase + 2 ^ 39 := kernPhymapTop_eq
  have hbase : kernBase = 0xFFFF800000000000 := rfl
  obtain ⟨e, he⟩ := hp.dvd
  rw [pgSize] at he
  have hpa : kv2p (kernEnd + 39 * 4096) = kernEnd - kernBase + 39 * 4096 := by
    rw [kv2p]
    omega
  have hstart : rangeStart (kernEnd + 39 * 4096) = (kernEnd - kernBase) / pgSize + 39 := by
    rw [rangeStart, hpa, pgRoundUp_eq, pgSize, Nat.mul_div_cancel _ (by decide)]
    omega
  have hend : rangeEnd (p2kv feedSize) = 16384 := by decide +kernel
  rw [ramRange, freed, hstart, hend, ramPages]

/-- `boot_alloc_disable` hands the rest of the zone to `pgalloc_free_range`. -/
theorem kmain_feed {k : Kernel} (hp : Placed V kernEnd) (hrun : Kernel.Run V (ramPages kernEnd) [] k) :
    ∃ k', k.pgallocFreeRange (kernEnd + 39 * 4096) (p2kv feedSize) = .ok k' ∧
      Kernel.Run V (ramPages kernEnd) [(ramRange kernEnd, 0)] k' ∧ freePages k'.state = ramPages kernEnd ∧
      Writes (ramPages kernEnd) k k' := by
  obtain ⟨_, s, l, _, _, hh⟩ := hrun.held
  have hfreed := freed_ramRange hp
  have hempty : freePages k.state = ∅ := by
    have htotal := hh.ledger.total
    rw [fedPages, Finset.union_eq_empty] at htotal
    rw [hh.state_pages, htotal.1]
  have hlegal : k.Legal V (ramPages kernEnd) (ramRange kernEnd) := by
    refine ⟨⟨trivial, fun p hp' => ⟨?_, by rw [hempty]; exact Finset.notMem_empty p⟩⟩, hfreed.subset⟩
    have hp'' : p ∈ freed (ramRange kernEnd) := hp'
    rw [hfreed] at hp''
    exact hh.layout.below_maxAddr hp''
  obtain ⟨_, r, s', l', k', _, hk', hh', hwrites⟩ := hh.request rfl hlegal
  rw [hempty, Finset.empty_union, hfreed] at hwrites
  have hexec := hk'
  rw [ramRange, Kernel.exec] at hexec
  obtain ⟨k₁, hfeed, hpair⟩ := exists_ok_of_map hexec
  cases hpair
  refine ⟨k', hfeed, hrun.call hlegal hk', ?_, hwrites⟩
  have htotal := hh'.ledger.total
  have hlive : livePages [(ramRange kernEnd, 0)] = ∅ := by
    rw [livePages, livePages, Finset.empty_sdiff, Finset.empty_union, ramRange]
    rfl
  rw [hlive, Finset.union_empty, fedPages, fedPages, Finset.empty_union, hfreed] at htotal
  rw [hh'.state_pages, htotal]

theorem kmainFeed_ok {vm : Vmm.State} {k k' : Kernel}
    (hfeed : Kernel.pgallocFreeRange { k with zone := (bootAllocDisable k.zone).2 } (bootAllocDisable k.zone).1
      (p2kv feedSize) = .ok k') :
    kmainFeed vm k = .ok ⟨k', vm.kernPml4, vm.cr3, 0⟩ :=
  congrArg (fun e => (Except.mapError BootPanic.freeRange e).map fun k' => Machine.mk k' vm.kernPml4 vm.cr3 0)
    hfeed

theorem ok_bind {ε α β : Type} {x : Except ε α} {a : α} (h : x = .ok a) (f : α → Except ε β) :
    x >>= f = f a := by
  rw [h]
  rfl

theorem kmain_ok {vm : Vmm.State} {k : Kernel} {m : Machine}
    (hvm : vmmInit ⟨bootAllocInit .boot kernEnd feedSize, mem, 0, 0⟩ = .ok vm)
    (hinit : pgallocInit ⟨0, fun _ => ⟨⟨0, 0⟩, 0⟩, vm.zone, vm.mem⟩ memLimit = .ok k)
    (hfeed : kmainFeed vm k = .ok m) : kmain kernEnd mem = .ok m :=
  (ok_bind (congrArg (Except.mapError BootPanic.vmm) hvm) _).trans
    ((ok_bind (congrArg (Except.mapError BootPanic.pgalloc) hinit) _).trans hfeed)

/-- From memory that is zero where the bitmaps come to lie, `kmain` comes through. -/
theorem kmain_booted (hp : Placed V kernEnd)
    (hzero : ZeroBitmaps kernEnd mem) :
    ∃ m, kmain kernEnd mem = .ok m ∧ Booted V kernEnd mem m := by
  have hlt := hp.lt
  have htop : kernPhymapTop < 2 ^ 64 := by decide
  have hpaged : paged pgSize = 4096 := by decide
  have hsize : pgSize = 4096 := rfl
  have h₁ : bootAlloc ⟨kernEnd, kernEnd + 64 * 1024 * 1024, true⟩ pgSize =
      (kernEnd, ⟨kernEnd + 4096, kernEnd + 64 * 1024 * 1024, true⟩) := by
    have hok := bootAlloc_granted (s := ⟨kernEnd, kernEnd + 64 * 1024 * 1024, true⟩) (n := pgSize)
      (by rw [hpaged]; show kernEnd + 4096 < kernEnd + _; omega) (by show kernEnd + _ ≤ 2 ^ 64; omega)
    rwa [hpaged] at hok
  have h₂ : bootAlloc ⟨kernEnd + 4096, kernEnd + 64 * 1024 * 1024, true⟩ pgSize =
      (kernEnd + 4096, ⟨kernEnd + 4096 + 4096, kernEnd + 64 * 1024 * 1024, true⟩) := by
    have hok := bootAlloc_granted (s := ⟨kernEnd + 4096, kernEnd + 64 * 1024 * 1024, true⟩) (n := pgSize)
      (by rw [hpaged]; show kernEnd + 4096 + 4096 < kernEnd + _; omega) (by show kernEnd + _ ≤ 2 ^ 64; omega)
    rwa [hpaged] at hok
  let s : Vmm.State := ⟨⟨kernEnd, kernEnd + 64 * 1024 * 1024, true⟩, mem, 0, 0⟩
  obtain ⟨vm, hvm, htables⟩ := vmmInit_tables (s := s) h₁ h₂ hp.physPage hp.physPage_next (by omega)
  obtain ⟨hzone, houtside⟩ := vmmInit_frame (s := s) h₁ h₂ hp.physPage hp.physPage_next hvm
  have hfresh : Fresh kernEnd ⟨0, fun _ => ⟨⟨0, 0⟩, 0⟩, vm.zone, vm.mem⟩ :=
    ⟨rfl, hzone.trans (by rw [Nat.add_assoc])⟩
  obtain ⟨k, hinit, hmem, hdisable, hmaps, _, hstart⟩ := hfresh.init hp fun b hb hb' => by
    show vm.mem b = 0
    rw [houtside b (by omega) (by omega)]
    exact hzero b hb hb'
  obtain ⟨k', hfeed, hrun, hfree, hwrites⟩ := kmain_feed hp (hstart ⟨0, 0, true⟩)
  have hkeep : ∀ b < kernEnd + 2 * 4096, k'.mem b = vm.mem b := fun b hb => by
    rw [hwrites.mem b (fun hin => by have := hmaps b hin; omega) fun p hp' => ?_]
    · exact congrFun hmem b
    · have := (ram_pageVa hp hp').2
      exact Or.inl (by omega)
  have htables' := tables_congr htables k'.mem (fun b _ hb => hkeep b (by omega)) fun b _ hb => hkeep b (by omega)
  refine ⟨⟨k', vm.kernPml4, vm.cr3, 0⟩, ?_, ?_⟩
  · have hvm' : vmmInit ⟨bootAllocInit .boot kernEnd feedSize, mem, 0, 0⟩ = .ok vm := by
      rw [hp.init]
      exact hvm
    exact kmain_ok hvm' hinit (kmainFeed_ok (by rw [hdisable]; exact hfeed))
  · constructor
    · exact hrun
    · exact hfree
    · exact ⟨htables'.kernPml4, htables'.cr3, htables'.root, htables'.pages⟩
    · exact fun b hb => hmaps b ((hwrites.inBitmaps b).mp hb)
    · intro b hb
      show k'.mem b = mem b
      rw [hkeep b (by omega), houtside b (by omega) (by omega)]
    · rfl

/-- `kmain` leaves page tables that map physical memory, a kernel image as it was but for the variables,
and as free pages those behind the tables and the bitmaps, up to 64 MiB. -/
theorem kmain_boot (hp : Placed V kernEnd) (hzero : ZeroBitmaps kernEnd mem) :
    ∃ m, kmain kernEnd mem = .ok m ∧
      freePages m.kernel.state = Finset.Ico ((kernEnd - kernBase) / pgSize + 39) 16384 ∧
      (∀ va, Canonical va → pageWalk (readPhys m.kernel.mem) m.cr3 va =
        if kernBase ≤ va ∧ va < kernPhymapTop then .page ⟨va - kernBase, 2 ^ 30, true, false⟩
        else .notPresent) ∧
      (∀ b < kernEnd, b ∉ V → m.kernel.mem b = mem b) ∧
      ∀ b, InBitmaps m.kernel b → kernEnd + 2 * 4096 ≤ b ∧ b < kernEnd + 39 * 4096 := by
  obtain ⟨m, hok, hb⟩ := kmain_booted hp hzero
  exact ⟨m, hok, hb.free, fun va hva => tables_walk hb.tables hp.physPage hp.physPage_next hva,
    fun b hb' _ => hb.image b hb', hb.bitmaps⟩

/-- The last page of an image that ends at 2 MiB -/
def lastPage : Set Nat := Set.Ico 0xFFFF8000001FF000 0xFFFF800000200000

theorem placed_kmain : Placed lastPage 0xFFFF800000200000 := ⟨by decide, by decide, by decide, fun _ hb => hb.2⟩

theorem kmain_boot_zeroed : ∃ m, kmain 0xFFFF800000200000 (fun _ => 0) = .ok m ∧
    freePages m.kernel.state = Finset.Ico 551 16384 ∧
    ∀ b < 0xFFFF800000200000, b ∉ lastPage → m.kernel.mem b = 0 := by
  have hzero : ZeroBitmaps 0xFFFF800000200000 fun _ => 0 := fun _ _ _ => rfl
  obtain ⟨m, hok, hfree, _, himage, _⟩ := kmain_boot placed_kmain hzero
  exact ⟨m, hok, hfree, himage⟩

end

end Kmain
end GuideOS
