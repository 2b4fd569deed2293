import GuideOS.Lib.Result
import GuideOS.Mem.PageAlloc.Spec

/-!
# Runs of the page allocator

A run starts with empty lists and zero bitmaps and makes calls.  A call is legal
when the pages it frees lie below the memory limit and are not free; between the
calls the rest of the kernel may store anything into pages that are not free.
The history of a run, latest call first, keeps each call with the pointer it
returned.
-/

namespace GuideOS
namespace PageAlloc

open Lib

inductive Call
  | freeRange (startVa endVa : Nat)
  | free (addr order : Nat)
  | allocate (order : Int)
  /-- A store by a client, which is not a call of the allocator. -/
  | clientStore (va v : Nat)
deriving DecidableEq

/-- Run one call.  The functions without a result return `0` here. -/
def exec (s : State) : Call → Except Panic (Nat × State)
  | .freeRange startVa endVa => (pgallocFreeRange s startVa endVa).map (Prod.mk 0)
  | .free addr order => (pgallocFree s addr order).map (Prod.mk 0)
  | .allocate order => pgallocAllocate s order
  | .clientStore va v => .ok (0, s.store va v)

/-- The pages a call gives to the allocator. -/
def freed : Call → Finset Nat
  | .freeRange startVa endVa => Finset.Ico (rangeStart startVa) (rangeEnd endVa)
  | .free addr order => block (pgIndex (kv2p addr)) order
  | .allocate _ => ∅
  | .clientStore _ _ => ∅

/-- The order and alignment of a freed block, and the pages a client writes. -/
def WellFormed (s : State) : Call → Prop
  | .freeRange _ _ => True
  | .free addr order => order ≤ maxOrder ∧ 2 ^ order ∣ pgIndex (kv2p addr)
  | .allocate _ => True
  | .clientStore va _ => pgIndex (kv2p va) ∉ freePages s

/-- A call frees pages below the limit that are not free. -/
def Legal (s : State) (c : Call) : Prop :=
  WellFormed s c ∧ ∀ p ∈ freed c, (p + 1) * pgSize ≤ s.maxAddr ∧ p ∉ freePages s

abbrev History := List (Call × Nat)

inductive Run : History → State → Prop
  | start (maxAddr : Nat) (next : Nat → Nat) (hfit : kernBase + maxAddr ≤ 2 ^ 64) :
      Run [] (cleared maxAddr next)
  | call {h : History} {s s' : State} {c : Call} {r : Nat} (hrun : Run h s) (hc : Legal s c)
      (hexec : exec s c = .ok (r, s')) : Run ((c, r) :: h) s'

/-! ## One call -/

theorem freePages_eq_of_cover {s s' : State} {l l' : Nat → List Nat} {A : Finset Nat}
    (h : Inv s l) (h' : Inv s' l')
    (hc : ∀ p, p ∈ cover (OnList l') ↔ p ∈ cover (OnList l) ∨ p ∈ A) :
    freePages s' = freePages s ∪ A := by
  ext p
  rw [Finset.mem_union, h'.mem_freePages, h.mem_freePages, hc]

theorem inv_cleared {maxAddr : Nat} (next : Nat → Nat) (hfit : kernBase + maxAddr ≤ 2 ^ 64) :
    Inv (cleared maxAddr next) fun _ => [] where
  fit := hfit
  chain _ _ := rfl
  size _ _ := rfl
  aligned _ _ i hi := absurd hi List.not_mem_nil
  below _ _ i hi := absurd hi List.not_mem_nil
  disjoint h := absurd h.2 List.not_mem_nil
  parity o _ k := by
    rw [bitmapTest_eq_getLsbD]
    simp [cleared, State.bin, pairCount]
  single o _ k := Nat.zero_le 1

theorem freePages_of_lists {s : State} (h : ∀ o, (s.bin o).list = ⟨0, 0⟩) : freePages s = ∅ := by
  have hlist : ∀ o, freeList s o = [] := fun o => by
    rw [freeList, h]
    rfl
  refine Finset.eq_empty_of_forall_notMem fun p hp => ?_
  obtain ⟨o, _, hp⟩ := Finset.mem_biUnion.mp hp
  rw [hlist] at hp
  simp at hp

theorem freePages_cleared (maxAddr : Nat) (next : Nat → Nat) :
    freePages (cleared maxAddr next) = ∅ :=
  freePages_of_lists fun _ => rfl

/-- A store outside the free pages keeps the invariant. -/
theorem Inv.store {s : State} {l : Nat → List Nat} (h : Inv s l) {va v : Nat}
    (hva : pgIndex (kv2p va) ∉ freePages s) : Inv (s.store va v) l where
  fit := h.fit
  chain o ho := by
    refine (h.chain o ho).congr fun a ha => ?_
    obtain ⟨i, hi, rfl⟩ := List.mem_map.mp ha
    rw [State.next_store, Function.update_of_ne]
    intro e
    apply hva
    rw [← e]
    rw [pgIndex_kv2p_pageVa h.fit (h.onList_below ho hi), h.mem_freePages]
    exact ⟨o, i, ⟨ho, hi⟩, self_mem_block i o⟩
  size := h.size
  aligned := h.aligned
  below := h.below
  disjoint := h.disjoint
  parity := h.parity
  single := h.single

/-- What a legal free does. -/
structure Freed (s : State) (A : Finset Nat) (s' : State) : Prop where
  inv : ∃ l, Inv s' l
  maxAddr : s'.maxAddr = s.maxAddr
  pages : freePages s' = freePages s ∪ A

theorem pgallocFree_ok {s : State} {l : Nat → List Nat} (h : Inv s l) {addr order : Nat}
    (hc : Legal s (.free addr order)) :
    ∃ s', pgallocFree s addr order = .ok s' ∧
      Freed s (block (pgIndex (kv2p addr)) order) s' := by
  obtain ⟨⟨ho, hi⟩, hp⟩ := hc
  have hpos := Nat.two_pow_pos order
  have hlast := (hp (pgIndex (kv2p addr) + 2 ^ order - 1) (by rw [freed, mem_block]; omega)).1
  obtain ⟨s', l', hrun, hmax, h', hcover⟩ := sFreeBlock_ok h ho hi
    (by rwa [show pgIndex (kv2p addr) + 2 ^ order - 1 + 1 = pgIndex (kv2p addr) + 2 ^ order by
      omega] at hlast)
    (fun p hmem => by rw [← h.mem_freePages]; exact (hp p hmem).2)
  exact ⟨s', hrun, ⟨l', h'⟩, hmax, freePages_eq_of_cover h h' hcover⟩

theorem pgallocFreeRange_ok {s : State} {l : Nat → List Nat} (h : Inv s l) {startVa endVa : Nat}
    (hc : Legal s (.freeRange startVa endVa)) :
    ∃ s', pgallocFreeRange s startVa endVa = .ok s' ∧
      Freed s (Finset.Ico (rangeStart startVa) (rangeEnd endVa)) s' := by
  obtain ⟨s', l', hrun, hmax, h', hcover⟩ := freeRangeLoop_ok h fun p hp hp' => by
    have := hc.2 p (Finset.mem_Ico.mpr ⟨hp, hp'⟩)
    rwa [h.mem_freePages] at this
  refine ⟨s', hrun, ⟨l', h'⟩, hmax, freePages_eq_of_cover h h' fun p => ?_⟩
  rw [hcover, Finset.mem_Ico]

/-- What `pgalloc_allocate` does when it finds a block. -/
structure Taken (s : State) (order i : Nat) (s' : State) : Prop where
  inv : ∃ l, Inv s' l
  maxAddr : s'.maxAddr = s.maxAddr
  aligned : 2 ^ order ∣ i
  below : (i + 2 ^ order) * pgSize ≤ s.maxAddr
  free : block i order ⊆ freePages s
  pages : freePages s' = freePages s \ block i order

theorem pgallocAllocate_ok {s : State} {l : Nat → List Nat} (h : Inv s l) (order : Nat) :
    (pgallocAllocate s order = .ok (0, s) ∧
      ∀ o i, order ≤ o → ¬ OnList l o i) ∨
    ∃ i s', pgallocAllocate s order = .ok (pageVa i, s') ∧ pageVa i ≠ 0 ∧ order ≤ maxOrder ∧
      Taken s order i s' := by
  have hcall : pgallocAllocate s order = sAllocBlock s order := by
    rw [pgallocAllocate, if_neg (by omega), Int.toNat_natCast]
  rw [hcall]
  rcases Nat.lt_or_ge maxOrder order with hlt | hle
  · refine Or.inl ⟨by rw [sAllocBlock, if_pos hlt], fun o i ho hon => ?_⟩
    have := hon.1
    omega
  · rcases sAllocBlock_ok h (o := order) (by omega) with ⟨hempty, hrun⟩ | ⟨i, s', l', hrun, ho, ha⟩
    · refine Or.inl ⟨hrun, fun o i ho hon => ?_⟩
      have := hempty o ho hon.1
      rw [OnList, this] at hon
      exact absurd hon.2 List.not_mem_nil
    · refine Or.inr ⟨i, s', hrun, ha.ne_zero h, ho, ⟨l', ha.inv⟩, ha.maxAddr, ha.aligned, ha.below,
        ?_, ?_⟩
      · intro p hp
        exact h.mem_freePages.mpr (ha.free p hp)
      · ext p
        rw [Finset.mem_sdiff, ha.inv.mem_freePages, h.mem_freePages, ha.cover]

/-- An aligned run of free pages lies inside a block on the lists. -/
theorem Inv.exists_onList {s : State} {l : Nat → List Nat} (h : Inv s l) {order i : Nat} (ho : order ≤ maxOrder)
    (hi : 2 ^ order ∣ i) (hfree : block i order ⊆ freePages s) : ∃ o j, OnList l o j ∧ order ≤ o := by
  obtain ⟨o, j, hon, hle, _⟩ := h.coalesced.exists_block ho hi fun p hp => h.mem_freePages.mp (hfree hp)
  exact ⟨o, j, hon, hle⟩

/-- Where there is such a run, a block is handed out. -/
theorem Inv.allocate_taken {s : State} {l : Nat → List Nat} (h : Inv s l) {order i : Nat} (ho : order ≤ maxOrder)
    (hi : 2 ^ order ∣ i) (hfree : block i order ⊆ freePages s) :
    ∃ j s', pgallocAllocate s order = .ok (pageVa j, s') ∧ pageVa j ≠ 0 ∧ Taken s order j s' := by
  rcases pgallocAllocate_ok h order with ⟨_, hnone⟩ | ⟨j, s', hok, hnz, _, htaken⟩
  · obtain ⟨o, j, hon, hle⟩ := h.exists_onList ho hi hfree
    exact absurd hon (hnone o j hle)
  · exact ⟨j, s', hok, hnz, htaken⟩

theorem pgallocAllocate_neg (s : State) {order : Int} (ho : order < 0) :
    pgallocAllocate s order = .ok (0, s) := by
  rw [pgallocAllocate, if_pos ho]

/-- Every legal call returns, to a state that satisfies the invariant. -/
theorem exec_ok {s : State} {l : Nat → List Nat} (h : Inv s l) {c : Call} (hc : Legal s c) :
    ∃ r s', exec s c = .ok (r, s') ∧ ∃ l', Inv s' l' := by
  cases c with
  | freeRange startVa endVa =>
      obtain ⟨s', hrun, hfreed⟩ := pgallocFreeRange_ok h hc
      exact ⟨0, s', by rw [exec, hrun, Except.map], hfreed.inv⟩
  | free addr order =>
      obtain ⟨s', hrun, hfreed⟩ := pgallocFree_ok h hc
      exact ⟨0, s', by rw [exec, hrun, Except.map], hfreed.inv⟩
  | allocate order =>
      rcases lt_or_ge order 0 with hneg | hpos
      · exact ⟨0, s, pgallocAllocate_neg s hneg, l, h⟩
      · obtain ⟨n, rfl⟩ := Int.eq_ofNat_of_zero_le hpos
        rcases pgallocAllocate_ok h n with ⟨hrun, _⟩ | ⟨i, s', hrun, _, _, htaken⟩
        · exact ⟨0, s, hrun, l, h⟩
        · exact ⟨_, s', hrun, htaken.inv⟩
  | clientStore va v => exact ⟨0, s.store va v, by rw [exec], l, h.store hc.1⟩

/-- A legal call keeps the memory limit. -/
theorem exec_maxAddr {s s' : State} {l : Nat → List Nat} (h : Inv s l) {c : Call} {r : Nat} (hc : Legal s c)
    (hexec : exec s c = .ok (r, s')) : s'.maxAddr = s.maxAddr := by
  cases c with
  | freeRange startVa endVa =>
      obtain ⟨t, hrun, hfreed⟩ := pgallocFreeRange_ok h hc
      rw [exec, hrun, Except.map, Except.ok.injEq, Prod.mk.injEq] at hexec
      rw [← hexec.2, hfreed.maxAddr]
  | free addr order =>
      obtain ⟨t, hrun, hfreed⟩ := pgallocFree_ok h hc
      rw [exec, hrun, Except.map, Except.ok.injEq, Prod.mk.injEq] at hexec
      rw [← hexec.2, hfreed.maxAddr]
  | allocate order =>
      rcases lt_or_ge order 0 with hneg | hpos
      · rw [exec, pgallocAllocate_neg s hneg, Except.ok.injEq, Prod.mk.injEq] at hexec
        rw [← hexec.2]
      · obtain ⟨n, rfl⟩ := Int.eq_ofNat_of_zero_le hpos
        rw [exec] at hexec
        rcases pgallocAllocate_ok h n with ⟨hrun, _⟩ | ⟨i, t, hrun, _, _, htaken⟩
        · rw [hrun, Except.ok.injEq, Prod.mk.injEq] at hexec
          rw [← hexec.2]
        · rw [hrun, Except.ok.injEq, Prod.mk.injEq] at hexec
          rw [← hexec.2, htaken.maxAddr]
  | clientStore va v =>
      rw [exec, Except.ok.injEq, Prod.mk.injEq] at hexec
      rw [← hexec.2, State.maxAddr_store]

/-- Every state of a run satisfies the invariant. -/
theorem Run.inv {h : History} {s : State} (hrun : Run h s) : ∃ l, Inv s l := by
  induction hrun with
  | start maxAddr next hfit => exact ⟨_, inv_cleared next hfit⟩
  | call _ hc hexec ih =>
      obtain ⟨l, hinv⟩ := ih
      obtain ⟨r', s', hok, hinv'⟩ := exec_ok hinv hc
      rw [hexec, Except.ok.injEq, Prod.mk.injEq] at hok
      rw [hok.2]
      exact hinv'

/-- Feeding the first 1024 pages to an allocator of 4 GiB. -/
theorem exists_run_feed : ∃ s, Run [(.freeRange kernBase (kernBase + 2 ^ 22), 0)] s ∧
    s.maxAddr = 2 ^ 32 ∧ freePages s = Finset.range 1024 := by
  have hfit : kernBase + 2 ^ 32 ≤ 2 ^ 64 := by decide
  have hinv := inv_cleared (fun _ => 0) hfit
  have hempty := freePages_cleared (2 ^ 32) fun _ => 0
  have hstart : rangeStart kernBase = 0 := by decide
  have hend : rangeEnd (kernBase + 2 ^ 22) = 1024 := by decide
  have hlegal : Legal (cleared (2 ^ 32) fun _ => 0) (.freeRange kernBase (kernBase + 2 ^ 22)) := by
    refine ⟨trivial, fun p hp => ⟨?_, by rw [hempty]; exact Finset.notMem_empty p⟩⟩
    rw [freed, hstart, hend, Finset.mem_Ico] at hp
    simp only [cleared, pgSize]
    omega
  obtain ⟨s, hrun, hfreed⟩ := pgallocFreeRange_ok hinv hlegal
  refine ⟨s, Run.call (Run.start _ _ hfit) hlegal (by rw [exec, hrun, Except.map]),
    hfreed.maxAddr, ?_⟩
  rw [hfreed.pages, hempty, hstart, hend, Finset.empty_union, Finset.range_eq_Ico]

/-- Then taking a block of eight of them. -/
theorem exists_run_taken : ∃ s i s', Run [(.freeRange kernBase (kernBase + 2 ^ 22), 0)] s ∧
    freePages s = Finset.range 1024 ∧ pageVa i ≠ 0 ∧ Taken s 3 i s' ∧
    Run [(.allocate 3, pageVa i), (.freeRange kernBase (kernBase + 2 ^ 22), 0)] s' := by
  obtain ⟨s, hrun, _, hpages⟩ := exists_run_feed
  obtain ⟨l, hinv⟩ := hrun.inv
  have hfree : block 0 3 ⊆ freePages s := fun p hp => by
    rw [hpages, Finset.mem_range]
    exact Nat.lt_trans (mem_block.mp hp).2 (by decide)
  obtain ⟨i, s', hok, hnz, htaken⟩ := hinv.allocate_taken (show 3 ≤ maxOrder by decide) (Nat.dvd_zero _) hfree
  have hlegal : Legal s (.allocate 3) := ⟨trivial, fun p hp => absurd hp (Finset.notMem_empty p)⟩
  exact ⟨s, i, s', hrun, hpages, hnz, htaken, hrun.call hlegal hok⟩

/-! ## The invariant over a run -/

/-- The representation invariant, over the lists read from memory. -/
structure BuddyInv (s : State) : Prop where
  chain : ∀ o ≤ maxOrder, Chain 0 s.next (s.bin o).list.head ((freeList s o).map pageVa)
  nodup : ∀ o ≤ maxOrder, (freeList s o).Nodup
  size : ∀ o ≤ maxOrder, (s.bin o).list.size = (freeList s o).length
  aligned : ∀ o ≤ maxOrder, ∀ i ∈ freeList s o, 2 ^ o ∣ i
  disjoint : ∀ o ≤ maxOrder, ∀ o' ≤ maxOrder, ∀ i ∈ freeList s o, ∀ i' ∈ freeList s o',
    (o, i) ≠ (o', i') → Disjoint (block i o) (block i' o')
  parity : ∀ o ≤ maxOrder, ∀ k,
    bitmapTest (s.bin o).bitmap k = decide (pairCount (freeList s o) o k % 2 = 1)
  merged : ∀ o < maxOrder, ∀ i ∈ freeList s o, buddy i o ∉ freeList s o

theorem Inv.buddyInv {s : State} {l : Nat → List Nat} (h : Inv s l) : BuddyInv s where
  chain o ho := by rw [h.freeList_eq ho]; exact h.chain o ho
  nodup o ho := by rw [h.freeList_eq ho]; exact h.nodup ho
  size o ho := by rw [h.freeList_eq ho]; exact h.size o ho
  aligned o ho := by rw [h.freeList_eq ho]; exact h.aligned o ho
  disjoint o ho o' ho' i hi i' hi' hne := by
    rw [h.freeList_eq ho] at hi
    rw [h.freeList_eq ho'] at hi'
    rw [Finset.disjoint_left]
    intro p hp hp'
    obtain ⟨rfl, rfl⟩ := h.disjoint ⟨ho, hi⟩ ⟨ho', hi'⟩ hp hp'
    exact hne rfl
  parity o ho := by rw [h.freeList_eq ho]; exact h.parity o ho
  merged o ho i hi hb := by
    rw [h.freeList_eq (by omega)] at hi hb
    exact h.coalesced.merged ho ⟨by omega, hi⟩ ⟨by omega, hb⟩

/-- In every state of a run the representation invariant holds, and every legal
call returns instead of reaching a panic or looping. -/
theorem run_buddyInv {h : History} {s : State} (hrun : Run h s) :
    BuddyInv s ∧ ∀ c, Legal s c → ∃ r s', exec s c = .ok (r, s') := by
  obtain ⟨l, hinv⟩ := hrun.inv
  refine ⟨hinv.buddyInv, fun c hc => ?_⟩
  obtain ⟨r, s', hok, _⟩ := exec_ok hinv hc
  exact ⟨r, s', hok⟩

theorem run_buddyInv_feed :
    ∃ h s, Run h s ∧ freePages s = Finset.range 1024 ∧ BuddyInv s ∧
      ∃ r s', exec s (.allocate 3) = .ok (r, s') := by
  obtain ⟨s, hrun, _, hpages⟩ := exists_run_feed
  have h := run_buddyInv hrun
  exact ⟨_, s, hrun, hpages, h.1, h.2 (.allocate 3) ⟨trivial, fun p hp => absurd hp (by simp [freed])⟩⟩

end PageAlloc
end GuideOS
