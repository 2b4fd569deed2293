import GuideOS.Lib.Paging
import GuideOS.Mem.BootAlloc
import GuideOS.Util.Str

/-!
# The page tables of the kernel

`vmm_init` of `arch/x86/mem/vm.c` fills two tables that `boot_alloc` hands out.  The walk
of the processor reads physical memory, which the kernel sees from `KERNBASE` on.
-/

namespace GuideOS
namespace Vmm

open Lib Str BootAlloc

/-- `KERN_PHYMAP_TOP` -/
def kernPhymapTop : Nat := kernBase + (512 <<< 30)

/-- `L3_HUGE_SIZE` -/
def l3HugeSize : Nat := pgSize * 512 * 512

/-- `PTE_ADDR(pte)` -/
def pteAddr (pte : Nat) : Nat := pte &&& 0xFFFFFFFFFFFFF000

def pteFlagP : Nat := 1 <<< 0

def pteFlagWrite : Nat := 1 <<< 1

def pteFlagSz : Nat := 1 <<< 7

/-- `PG_L3_IDX(addr)` -/
def pgL3Idx (addr : Nat) : Nat := addr >>> (12 + 18) &&& 0x1FF

/-- `PG_L4_IDX(addr)` -/
def pgL4Idx (addr : Nat) : Nat := addr >>> (12 + 27) &&& 0x1FF

inductive VmmPanic
  | oom
  | align
  | oomL3
  | nullptr
deriving DecidableEq, Repr

structure State where
  zone : BootAlloc.State
  mem : Bytes
  kernPml4 : Nat
  cr3 : Nat

/-- The `for` of `vmm_init`; `pdp` is `kern_phys_map_pdp`. -/
def mapLoop (s : State) (pdp va : Nat) : Except VmmPanic State :=
  if va < kernPhymapTop then do
    let (s, pdp) ←
      if pgL3Idx va = 0 then do
        let (p, zone) := bootAlloc s.zone pgSize
        if p = 0 then throw .oomL3
        if p % pgSize ≠ 0 then throw .align
        let mem := memset s.mem p 0 pgSize
        let entry := pteFlagP ||| pteFlagWrite ||| pteAddr (kv2p p)
        let mem := store64 mem ((s.kernPml4 + 8 * pgL4Idx va) % 2 ^ 64) entry
        pure ({ s with zone := zone, mem := mem }, p)
      else pure (s, pdp)
    if pdp = 0 then throw .nullptr
    let entry := pteFlagP ||| pteFlagWrite ||| pteFlagSz ||| pteAddr (kv2p va)
    let s := { s with mem := store64 s.mem ((pdp + 8 * pgL3Idx va) % 2 ^ 64) entry }
    mapLoop s pdp ((va + l3HugeSize) % 2 ^ 64)
  else return s
termination_by kernPhymapTop - va
decreasing_by
  have htop : kernPhymapTop + l3HugeSize < 2 ^ 64 := by decide
  have hsize : 0 < l3HugeSize := by decide
  rw [Nat.mod_eq_of_lt (by omega)]
  omega

def vmmLoadKtable (s : State) : State := { s with cr3 := kv2p s.kernPml4 }

def vmmInit (s : State) : Except VmmPanic State := do
  let (p, zone) := bootAlloc s.zone pgSize
  let s := { s with kernPml4 := p, zone := zone }
  if p = 0 then throw .oom
  if p % pgSize ≠ 0 then throw .align
  let s := { s with mem := memset s.mem p 0 pgSize }
  let s ← mapLoop s 0 kernBase
  return vmmLoadKtable s

/-- A word of physical memory. -/
def readPhys (mem : Bytes) (pa : Nat) : Nat := load64 mem (p2kv pa)

def Canonical (va : Nat) : Prop := va < 2 ^ 47 ∨ 2 ^ 64 - 2 ^ 47 ≤ va ∧ va < 2 ^ 64

/-- A page of the kernel physical map. -/
structure PhysPage (p : Nat) : Prop where
  dvd : pgSize ∣ p
  le : kernBase ≤ p
  lt : p + pgSize ≤ kernPhymapTop

theorem kernPhymapTop_eq : kernPhymapTop = kernBase + 2 ^ 39 := by decide

theorem l3HugeSize_eq : l3HugeSize = 2 ^ 30 := by decide

/-! ## Entries -/

theorem pteAddr_eq {a : Nat} (ha : a < 2 ^ 64) (h : pgSize ∣ a) : pteAddr a = a := by
  have hmask : pteAddr a = a / 2 ^ 12 * 2 ^ 12 := and_not64 ha 12 (by decide)
  rw [hmask]
  exact Nat.div_mul_cancel h

theorem pgL3Idx_eq (va : Nat) : pgL3Idx va = va / 2 ^ 30 % 512 := by
  rw [pgL3Idx, Nat.shiftRight_eq_div_pow]
  exact Nat.and_two_pow_sub_one_eq_mod _ 9

theorem flags_or {flags a : Nat} (hflags : flags < 2 ^ 12) (h : pgSize ∣ a) : flags ||| a = a + flags := by
  obtain ⟨k, rfl⟩ := h
  rw [Nat.or_comm, pgSize_eq, Nat.two_pow_add_eq_or_of_lt hflags]

section

variable {p q : Nat}

theorem PhysPage.kv2p_add (h : PhysPage p) : kernBase + kv2p p = p := by
  have hle := h.le
  have hlt := h.lt
  have htop : kernPhymapTop < 2 ^ 64 := by decide
  rw [kv2p]
  simp only [pgSize, kernBase] at *
  omega

theorem PhysPage.dvd_kv2p (h : PhysPage p) : pgSize ∣ kv2p p := by
  have hdvd := h.dvd
  rw [← h.kv2p_add] at hdvd
  exact (Nat.dvd_add_right (show pgSize ∣ kernBase by decide)).mp hdvd

theorem PhysPage.kv2p_lt (h : PhysPage p) : kv2p p < 2 ^ 39 := by
  have hsum := h.kv2p_add
  have hlt := h.lt
  rw [kernPhymapTop_eq, pgSize] at hlt
  omega

theorem PhysPage.disjoint (h : PhysPage p) (h' : PhysPage q) (hne : p ≠ q) :
    p + pgSize ≤ q ∨ q + pgSize ≤ p := by
  obtain ⟨i, rfl⟩ := h.dvd
  obtain ⟨j, rfl⟩ := h'.dvd
  rw [pgSize] at hne ⊢
  omega

/-- The entry of a table. -/
theorem PhysPage.entry (h : PhysPage p) :
    pteFlagP ||| pteFlagWrite ||| pteAddr (kv2p p) = kv2p p + 3 := by
  rw [pteAddr_eq (Nat.lt_trans h.kv2p_lt (by decide)) h.dvd_kv2p]
  exact flags_or (by decide) h.dvd_kv2p

theorem PhysPage.frame_add (h : PhysPage p) (flags : Nat) (hflags : flags < 2 ^ 12) :
    frame 12 (kv2p p + flags) = kv2p p := by
  have hlt := h.kv2p_lt
  obtain ⟨k, hk⟩ := h.dvd_kv2p
  rw [hk, Nat.mul_comm, pgSize_eq]
  rw [hk, pgSize] at hlt
  exact frame_add_flags hflags (by omega)

theorem PhysPage.testBit (h : PhysPage p) {flags j : Nat} (hflags : flags < 2 ^ 12) (hj : j < 12) :
    (kv2p p + flags).testBit j = flags.testBit j := by
  obtain ⟨k, hk⟩ := h.dvd_kv2p
  rw [hk, Nat.mul_comm, pgSize_eq]
  exact testBit_add_flags hflags hj

/-- A word of a page, read at its physical address. -/
theorem PhysPage.readPhys (h : PhysPage p) (mem : Bytes) {j : Nat} (hj : j < 512) :
    readPhys mem (kv2p p + 8 * j) = load64 mem (p + 8 * j) := by
  have hsum := h.kv2p_add
  have hlt := h.lt
  have htop : kernPhymapTop < 2 ^ 64 := by decide
  rw [pgSize] at hlt
  rw [Vmm.readPhys, p2kv, Nat.mod_eq_of_lt (by omega), show kv2p p + 8 * j + kernBase = p + 8 * j by omega]

/-- The page entry for the gigabyte `i`. -/
theorem page_entry {i : Nat} (hi : i < 512) :
    pteFlagP ||| pteFlagWrite ||| pteFlagSz ||| pteAddr (kv2p (kernBase + i * 2 ^ 30)) =
      i * 2 ^ 30 + 0x83 := by
  have hkv : kv2p (kernBase + i * 2 ^ 30) = i * 2 ^ 30 := by
    rw [kv2p, kernBase]
    omega
  have hdvd : pgSize ∣ i * 2 ^ 30 := Nat.dvd_mul_left_of_dvd (by decide) i
  rw [hkv, pteAddr_eq (by omega) hdvd]
  exact flags_or (by decide) hdvd

end

/-! ## The loop -/

section

variable {s : State} {p i : Nat}

/-- The turns of the loop after the first one. -/
theorem mapLoop_succ (s : State) (hp : PhysPage p) (hi : 1 ≤ i) (hlt : i < 512) :
    mapLoop s p (kernBase + i * 2 ^ 30) =
      mapLoop { s with mem := store64 s.mem (p + 8 * i) (i * 2 ^ 30 + 0x83) } p
        (kernBase + (i + 1) * 2 ^ 30) := by
  have hidx : pgL3Idx (kernBase + i * 2 ^ 30) = i := by
    rw [pgL3Idx_eq, kernBase]
    omega
  have hin : kernBase + i * 2 ^ 30 < kernPhymapTop := by
    rw [kernPhymapTop_eq]
    omega
  have hle := hp.le
  have hplt := hp.lt
  have htop : kernPhymapTop < 2 ^ 64 := by decide
  rw [pgSize] at hplt
  have hnext : (kernBase + i * 2 ^ 30 + l3HugeSize) % 2 ^ 64 = kernBase + (i + 1) * 2 ^ 30 := by
    rw [l3HugeSize_eq, kernBase]
    omega
  have hne : p ≠ 0 := by
    rw [kernBase] at hle
    omega
  rw [mapLoop, if_pos hin]
  dsimp only [bind, Except.bind, pure, Except.pure]
  rw [hidx, if_neg (by omega), if_neg hne, page_entry hlt, hnext, Nat.mod_eq_of_lt (by omega)]

/-- The loop wrote the entries of the table `p` from `i` on. -/
structure Mapped (s : State) (p i : Nat) (s' : State) : Prop where
  kernPml4 : s'.kernPml4 = s.kernPml4
  entries : ∀ j, i ≤ j → j < 512 → load64 s'.mem (p + 8 * j) = j * 2 ^ 30 + 0x83
  outside : ∀ b, b < p + 8 * i ∨ p + pgSize ≤ b → s'.mem b = s.mem b

theorem mapLoop_ok (hp : PhysPage p) (hi : 1 ≤ i) (hle : i ≤ 512) :
    ∃ s', mapLoop s p (kernBase + i * 2 ^ 30) = .ok s' ∧ Mapped s p i s' := by
  induction hn : 512 - i generalizing s i with
  | zero =>
      have hi : i = 512 := by omega
      subst hi
      refine ⟨s, ?_, rfl, fun j hj hj' => by omega, fun _ _ => rfl⟩
      rw [mapLoop, if_neg (by decide)]
      rfl
  | succ n ih =>
      have hlt : i < 512 := by omega
      obtain ⟨s', hrun, hmapped⟩ := ih (s := { s with
        mem := store64 s.mem (p + 8 * i) (i * 2 ^ 30 + 0x83) }) (i := i + 1) (by omega) hlt (by omega)
      refine ⟨s', (mapLoop_succ s hp hi hlt).trans hrun, hmapped.kernPml4, fun j hj hj' => ?_,
        fun b hb => ?_⟩
      · by_cases hij : j = i
        · subst hij
          have hkept : load64 s'.mem (p + 8 * j) = load64 (store64 s.mem (p + 8 * j) (j * 2 ^ 30 + 0x83))
              (p + 8 * j) := load64_congr fun b _ hb => hmapped.outside b (by omega)
          rw [hkept, load64_store64 _ (by omega)]
        · exact hmapped.entries j (by omega) hj'
      · have hlast : p + 8 * i + 8 ≤ p + pgSize := by
          rw [pgSize]
          omega
        rw [hmapped.outside b (by omega)]
        exact store64_outside (by omega)

/-- The first turn of the loop makes the table. -/
theorem mapLoop_zero {p' : Nat} {zone : BootAlloc.State} (s : State) (hpml4 : PhysPage s.kernPml4)
    (halloc : bootAlloc s.zone pgSize = (p, zone)) (hp : PhysPage p) :
    mapLoop s p' kernBase =
      mapLoop { s with
        zone := zone
        mem := store64 (store64 (memset s.mem p 0 pgSize) (s.kernPml4 + 8 * 256) (kv2p p + 3)) p 0x83 }
        p (kernBase + 1 * 2 ^ 30) := by
  have hne : p ≠ 0 := by
    have hle := hp.le
    rw [kernBase] at hle
    omega
  have hmod : p % pgSize = 0 := Nat.mod_eq_zero_of_dvd hp.dvd
  have htop : kernPhymapTop < 2 ^ 64 := by decide
  have hlt := hp.lt
  have hlt' := hpml4.lt
  rw [pgSize] at hlt hlt'
  have hl3 : pgL3Idx kernBase = 0 := by decide
  have hl4 : pgL4Idx kernBase = 256 := by decide
  have hentry : pteFlagP ||| pteFlagWrite ||| pteFlagSz ||| pteAddr (kv2p kernBase) = 0x83 := by decide
  have hnext : (kernBase + l3HugeSize) % 2 ^ 64 = kernBase + 1 * 2 ^ 30 := by decide
  rw [mapLoop, if_pos (by decide), halloc]
  dsimp only [bind, Except.bind, pure, Except.pure]
  rw [hl3, hl4, if_pos rfl, if_neg hne, hp.entry, hentry, hnext, if_neg (not_not_intro hmod)]
  rw [if_neg hne, Nat.mod_eq_of_lt (by omega), Nat.mod_eq_of_lt (by omega)]
  rfl

end

/-! ## The tables -/

section

variable {s : State} {p₁ p₂ : Nat} {zone₁ zone₂ : BootAlloc.State}

/-- The two tables of `vmm_init`. -/
structure Tables (s : State) (p₁ p₂ : Nat) : Prop where
  kernPml4 : s.kernPml4 = p₁
  cr3 : s.cr3 = kv2p p₁
  root : ∀ j < 512, load64 s.mem (p₁ + 8 * j) = if j = 256 then kv2p p₂ + 3 else 0
  pages : ∀ j < 512, load64 s.mem (p₂ + 8 * j) = j * 2 ^ 30 + 0x83

@[simp] theorem vmmLoadKtable_kernPml4 (s : State) : (vmmLoadKtable s).kernPml4 = s.kernPml4 := by
  rw [vmmLoadKtable]

@[simp] theorem vmmLoadKtable_mem (s : State) : (vmmLoadKtable s).mem = s.mem := by
  rw [vmmLoadKtable]

theorem vmmInit_tables (h₁ : bootAlloc s.zone pgSize = (p₁, zone₁))
    (h₂ : bootAlloc zone₁ pgSize = (p₂, zone₂)) (hp₁ : PhysPage p₁) (hp₂ : PhysPage p₂) (hne : p₁ ≠ p₂) :
    ∃ s', vmmInit s = .ok s' ∧ Tables s' p₁ p₂ := by
  have hne₁ : p₁ ≠ 0 := by
    have hle := hp₁.le
    rw [kernBase] at hle
    omega
  have htop : kernPhymapTop < 2 ^ 64 := by decide
  have hlt₁ := hp₁.lt
  have hlt₂ := hp₂.lt
  have hdisj := hp₁.disjoint hp₂ hne
  have hsize : pgSize = 4096 := rfl
  have hzero : ∀ {m : Bytes} {p b : Nat}, p + pgSize ≤ 2 ^ 64 →
      memset m p 0 pgSize b = if p ≤ b ∧ b < p + pgSize then 0 else m b :=
    fun h => memset_apply h (by decide)
  let s₁ : State := { s with mem := memset s.mem p₁ 0 pgSize, kernPml4 := p₁, zone := zone₁ }
  let mem := store64 (memset s₁.mem p₂ 0 pgSize) (p₁ + 8 * 256) (kv2p p₂ + 3)
  obtain ⟨s', hrun, hmapped⟩ := mapLoop_ok (s := { s₁ with zone := zone₂, mem := store64 mem p₂ 0x83 })
    hp₂ (Nat.le_refl 1) (by decide)
  have hloop : mapLoop s₁ 0 kernBase = .ok s' := (mapLoop_zero s₁ hp₁ h₂ hp₂).trans hrun
  have hroot : s'.kernPml4 = p₁ := hmapped.kernPml4
  refine ⟨vmmLoadKtable s', ?_, by rw [vmmLoadKtable_kernPml4, hroot], by rw [vmmLoadKtable, hroot], fun j hj => ?_, fun j hj => ?_⟩
  · rw [vmmInit, h₁]
    dsimp only [bind, Except.bind, pure, Except.pure]
    rw [if_neg hne₁, if_neg (not_not_intro (Nat.mod_eq_zero_of_dvd hp₁.dvd)), hloop]
  · have hkept : load64 s'.mem (p₁ + 8 * j) = load64 mem (p₁ + 8 * j) := load64_congr fun b hb hb' => by
      rw [hmapped.outside b (by omega)]
      exact store64_outside (by omega)
    rw [vmmLoadKtable_mem, hkept]
    split
    · subst j
      have hlt := hp₂.kv2p_lt
      exact load64_store64 _ (by omega)
    · rw [load64_store64_ne (by omega)]
      refine loadLE_zero fun b hb hb' => ?_
      rw [hzero (by omega), if_neg (by omega)]
      exact (hzero (by omega)).trans (if_pos (by omega))
  · rw [vmmLoadKtable_mem]
    by_cases hj0 : j = 0
    · subst j
      have hkept : load64 s'.mem (p₂ + 8 * 0) = load64 (store64 mem p₂ 0x83) p₂ :=
        load64_congr fun b hb hb' => hmapped.outside b (by omega)
      rw [hkept, load64_store64 _ (by decide), Nat.zero_mul, Nat.zero_add]
    · exact hmapped.entries j (by omega) hj

theorem tableIndex_three {va : Nat} (hva : Canonical va) :
    tableIndex 3 va = 256 ↔ kernBase ≤ va ∧ va < kernPhymapTop := by
  rw [tableIndex, kernPhymapTop_eq, kernBase]
  rcases hva with hva | ⟨hva, hva'⟩ <;> omega

/-- **The kernel page table.**  The tables of `vmm_init` map the kernel physical map and
nothing else. -/
theorem vmmInit_walk (h₁ : bootAlloc s.zone pgSize = (p₁, zone₁)) (h₂ : bootAlloc zone₁ pgSize = (p₂, zone₂))
    (hp₁ : PhysPage p₁) (hp₂ : PhysPage p₂) (hne : p₁ ≠ p₂) :
    ∃ s', vmmInit s = .ok s' ∧ s'.kernPml4 = p₁ ∧ s'.cr3 = kv2p s'.kernPml4 ∧ ∀ va, Canonical va →
      pageWalk (readPhys s'.mem) (kv2p s'.kernPml4) va =
        if kernBase ≤ va ∧ va < kernPhymapTop then .page ⟨va - kernBase, 2 ^ 30, true, false⟩
        else .notPresent := by
  obtain ⟨s', hrun, ht⟩ := vmmInit_tables h₁ h₂ hp₁ hp₂ hne
  have hidx : ∀ n va, tableIndex n va < 512 := fun n va => Nat.mod_lt _ (by decide)
  have hroot : frame 12 (kv2p s'.kernPml4) = kv2p p₁ := by
    rw [ht.kernPml4]
    have hframe := hp₁.frame_add 0 (by decide)
    rwa [Nat.add_zero] at hframe
  refine ⟨s', hrun, ht.kernPml4, by rw [ht.kernPml4, ht.cr3], fun va hva => ?_⟩
  have he := hp₁.readPhys s'.mem (hidx 3 va)
  rw [ht.root _ (hidx 3 va), ← hroot] at he
  split
  · rename_i hin
    rw [if_pos ((tableIndex_three hva).mpr hin)] at he
    have he' := hp₂.readPhys s'.mem (hidx 2 va)
    rw [ht.pages _ (hidx 2 va), ← hp₂.frame_add 3 (by decide)] at he'
    rw [pageWalk_huge he he' (hp₂.testBit (by decide) (by decide)) (hp₂.testBit (by decide) (by decide))
      (testBit_add_flags (by decide) (by decide)) (testBit_add_flags (by decide) (by decide)),
      frame_add_flags (by decide) (Nat.lt_trans (hidx 2 va) (by decide)),
      hp₂.testBit (by decide) (by decide), hp₂.testBit (by decide) (by decide),
      testBit_add_flags (by decide) (by decide), testBit_add_flags (by decide) (by decide)]
    have hpa : tableIndex 2 va * 2 ^ 30 + va % 2 ^ 30 = va - kernBase := by
      rw [tableIndex, kernBase]
      rw [kernPhymapTop_eq, kernBase] at hin
      omega
    rw [hpa]
    rfl
  · rename_i hout
    rw [if_neg (mt (tableIndex_three hva).mp hout)] at he
    exact pageWalk_notPresent (by rw [he, Nat.zero_testBit])

/-- The zone of `kmain`. -/
def kmainZone : BootAlloc.State := bootAllocInit .boot 0xFFFF800000200000 (64 * 1024 * 1024)

theorem vmmInit_walk_kmain :
    ∃ s', vmmInit ⟨kmainZone, fun _ => 0xFF, 0, 0⟩ = .ok s' ∧ s'.kernPml4 = 0xFFFF800000200000 ∧
      s'.cr3 = kv2p s'.kernPml4 ∧ ∀ va, Canonical va →
        pageWalk (readPhys s'.mem) (kv2p s'.kernPml4) va =
          if kernBase ≤ va ∧ va < kernPhymapTop then .page ⟨va - kernBase, 2 ^ 30, true, false⟩
          else .notPresent := by
  have h₁ : bootAlloc kmainZone pgSize =
      (0xFFFF800000200000, ⟨0xFFFF800000201000, 0xFFFF800004200000, true⟩) := by decide +kernel
  have h₂ : bootAlloc ⟨0xFFFF800000201000, 0xFFFF800004200000, true⟩ pgSize =
      (0xFFFF800000201000, ⟨0xFFFF800000202000, 0xFFFF800004200000, true⟩) := by decide +kernel
  exact vmmInit_walk h₁ h₂ ⟨by decide, by decide, by decide⟩ ⟨by decide, by decide, by decide⟩ (by decide)

end

end Vmm
end GuideOS
