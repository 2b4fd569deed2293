import GuideOS.Mem.PageAlloc.Memory
import GuideOS.Mem.PageAlloc.Ownership

/-!
# Runs in memory

The page allocator and its clients on one memory.  The bytes `V` are those of the kernel's variables,
which are fields of `Kernel` here; the stack of a call is not in the model.  A client may store
anywhere but in `V`, in the bitmaps and in free pages, at any alignment.  Such a run is a run of the
allocator's states, and a call leaves every byte of the live pages alone.
-/

namespace GuideOS
namespace PageAlloc

open Lib

namespace Kernel

def exec (k : Kernel) : Call → Except Panic (Nat × Kernel)
  | .freeRange startVa endVa => (k.pgallocFreeRange startVa endVa).map (Prod.mk 0)
  | .free addr order => (k.pgallocFree addr order).map (Prod.mk 0)
  | .allocate order => k.pgallocAllocate order
  | .clientStore va v => .ok (0, k.store va v)

/-- A byte that is neither the allocator's nor in a free page -/
def ClientByte (V : Set Nat) (k : Kernel) (b : Nat) : Prop :=
  b ∉ V ∧ ¬InBitmaps k b ∧ ∀ p ∈ freePages k.state, b < pageVa p ∨ pageVa p + pgSize ≤ b

/-- The pages that calls free are of `F`. -/
def Legal (V : Set Nat) (F : Finset Nat) (k : Kernel) : Call → Prop
  | .clientStore va v => v < 2 ^ 64 ∧ ∀ b, va ≤ b → b < va + 8 → k.ClientByte V b
  | c => PageAlloc.Legal k.state c ∧ freed c ⊆ F

/-- The bytes `V` are in no bitmap and in no page of `F`. -/
def Aside (V : Set Nat) (F : Finset Nat) (k : Kernel) : Prop :=
  ∀ b ∈ V, ¬InBitmaps k b ∧ ∀ p ∈ F, b < pageVa p ∨ pageVa p + pgSize ≤ b

/-- Empty lists and clear bits -/
structure Started (k : Kernel) : Prop where
  lists : ∀ o, (k.pgallocBins o).list = ⟨0, 0⟩
  bits : ∀ o ≤ maxOrder, ∀ i, (i + 1) * pgSize ≤ k.maxAddr → k.test o (i >>> (o + 1)) = false

/-- A run starts with empty lists and clear bits. -/
inductive Run (V : Set Nat) (F : Finset Nat) : History → Kernel → Prop
  | start (k : Kernel) (hl : Layout F k) (hV : k.Aside V F) (hk : k.Started) : Run V F [] k
  | call {h : History} {k k' : Kernel} {c : Call} {r : Nat} (hrun : Run V F h k) (hc : k.Legal V F c)
      (hexec : k.exec c = .ok (r, k')) : Run V F ((c, r) :: h) k'

end Kernel

def Call.isRequest : Call → Bool
  | .clientStore _ _ => false
  | _ => true

/-- The calls of a history, without the stores. -/
def requests (h : History) : History := h.filter fun e => e.1.isRequest

section

variable {V : Set Nat} {F W : Finset Nat} {h : History} {k k' : Kernel} {s s' : State} {l : Nat → List Nat}

theorem requests_cons (e : Call × Nat) (h : History) :
    requests (e :: h) = if e.1.isRequest then e :: requests h else requests h := by
  rw [requests, List.filter_cons]
  rfl

/-! ## One call -/

theorem Stored.freePages (hs : Stored F k s) (hinv : Inv s l) (hF : PageAlloc.freePages s ⊆ F) :
    PageAlloc.freePages k.state = PageAlloc.freePages s := by
  have hlist : ∀ o ≤ maxOrder, freeList k.state o = freeList s o := by
    intro o ho
    have hhead : (k.state.bin o).list = (s.bin o).list := hs.links.list o
    have hchain : Chain 0 k.state.next (s.bin o).list.head ((l o).map pageVa) := by
      refine (hinv.chain o ho).congr fun va hva => ?_
      obtain ⟨i, hi, hva⟩ := List.mem_map.mp hva
      rw [← hva]
      exact hs.links.next i (hF (hinv.mem_freePages.mpr ⟨o, i, ⟨ho, hi⟩, self_mem_block i o⟩))
    have hlen : ((l o).map pageVa).length ≤ (s.bin o).list.size := by
      rw [List.length_map, hinv.size o ho]
    rw [freeList, freeList, hhead, hchain.walk_eq hlen, (hinv.chain o ho).walk_eq hlen]
  ext p
  simp only [PageAlloc.freePages, Finset.mem_biUnion, Finset.mem_range]
  refine exists_congr fun o => and_congr_right fun ho => ?_
  rw [hlist o (by omega)]

theorem Stored.legal (hs : Stored F k s) (hl : Layout F k) (hinv : Inv s l) (hF : PageAlloc.freePages s ⊆ F)
    {c : Call} (hc : PageAlloc.Legal k.state c) (hcF : freed c ⊆ F) : PageAlloc.Legal s c := by
  have hpages := hs.freePages hinv hF
  refine ⟨?_, fun p hp => ?_⟩
  · cases c with
    | clientStore va v =>
        have := hc.1
        rwa [WellFormed, hpages] at this
    | _ => exact hc.1
  · rw [hs.links.maxAddr, ← hpages]
    exact ⟨hl.below p (hcF hp), (hc.2 p hp).2⟩

/-- A call does in memory what it does on the state, and writes in pages that are or become free. -/
theorem Stored.exec (hs : Stored F k s) (hl : Layout F k) (hinv : Inv s l) (hF : PageAlloc.freePages s ⊆ F)
    {c : Call} {r : Nat} (hreq : c.isRequest) (hc : PageAlloc.Legal s c) (hcF : freed c ⊆ F)
    (hok : PageAlloc.exec s c = .ok (r, s')) :
    ∃ k', k.exec c = .ok (r, k') ∧ Stored F k' s' ∧ Writes (PageAlloc.freePages s ∪ freed c) k k' := by
  have hW : PageAlloc.freePages s ∪ freed c ⊆ F := Finset.union_subset hF hcF
  have hlists : ∀ p ∈ cover (OnList l), p ∈ PageAlloc.freePages s ∪ freed c := fun p hp =>
    Finset.mem_union_left _ (hinv.mem_freePages.mpr hp)
  cases c with
  | freeRange startVa endVa =>
      rw [PageAlloc.exec, pgallocFreeRange] at hok
      obtain ⟨t, hrun, hpair⟩ := exists_ok_of_map hok
      cases hpair
      obtain ⟨k', hk', hstored, hwrites⟩ := Stored.freeRangeLoop hW hs hl hinv
        (fun p hp hp' => by
          have hmem : p ∈ freed (.freeRange startVa endVa) := Finset.mem_Ico.mpr ⟨hp, hp'⟩
          have := hc.2 p hmem
          rw [hinv.mem_freePages] at this
          exact ⟨this, Finset.mem_union_right _ hmem⟩)
        hlists hrun
      exact ⟨k', by rw [Kernel.exec, Kernel.pgallocFreeRange, hk']; rfl, hstored, hwrites⟩
  | free addr order =>
      rw [PageAlloc.exec, pgallocFree] at hok
      obtain ⟨t, hrun, hpair⟩ := exists_ok_of_map hok
      cases hpair
      have hpos := Nat.two_pow_pos order
      have hlast := (hc.2 (pgIndex (kv2p addr) + 2 ^ order - 1) (by rw [freed, mem_block]; omega)).1
      rw [show pgIndex (kv2p addr) + 2 ^ order - 1 + 1 = pgIndex (kv2p addr) + 2 ^ order by omega] at hlast
      obtain ⟨k', hk', hstored, hwrites⟩ := Stored.sFreeBlock hW hs hl hinv hc.1.1 hc.1.2 hlast
        (fun p hp => by rw [← hinv.mem_freePages]; exact (hc.2 p hp).2) hlists
        (fun p hp => Finset.mem_union_right _ hp) hrun
      exact ⟨k', by rw [Kernel.exec, Kernel.pgallocFree, hk']; rfl, hstored, hwrites⟩
  | allocate order =>
      rw [PageAlloc.exec, pgallocAllocate] at hok
      rw [Kernel.exec, Kernel.pgallocAllocate]
      split at hok
      · rename_i hneg
        rw [if_pos hneg]
        cases hok
        exact ⟨k, rfl, hs, Writes.refl _ k⟩
      · rename_i hneg
        rw [if_neg hneg]
        rcases Nat.lt_or_ge (maxOrder + 1) order.toNat with hlt | hle
        · rw [PageAlloc.sAllocBlock, if_pos (by omega)] at hok
          rw [Kernel.sAllocBlock, if_pos (by omega)]
          cases hok
          exact ⟨k, rfl, hs, Writes.refl _ k⟩
        · exact Stored.sAllocBlock hW hs hl hinv hle hlists hok
  | clientStore va v => cases hreq

/-- The first words of two pages are not hit by one store. -/
theorem Layout.pageVa_far (hl : Layout F k) {p q : Nat} (hp : p ∈ F) (hq : q ∈ F) (hne : q ≠ p) :
    pageVa p + pgSize ≤ pageVa q ∨ pageVa q + pgSize ≤ pageVa p := by
  rw [pageVa_eq k.limit_fit (hl.below p hp), pageVa_eq k.limit_fit (hl.below q hq)]
  rw [pgSize]
  omega

/-- A store of a client changes at most what the first word of one page holds, which is not free. -/
theorem Stored.clientStore (hs : Stored F k s) (hl : Layout F k) (hinv : Inv s l)
    (hF : PageAlloc.freePages s ⊆ F) {va v : Nat} (hc : k.Legal V F (.clientStore va v)) :
    Stored F (k.store va v) s ∨
      ∃ va' v', PageAlloc.Legal s (.clientStore va' v') ∧ Stored F (k.store va v) (s.store va' v') := by
  obtain ⟨_, hbytes⟩ := hc
  have hmaps : ∀ b, InBitmaps k b → store64 k.mem va v b = k.mem b := fun b hb => store64_outside (by
    by_contra hin
    exact (hbytes b (by omega) (by omega)).2.1 hb)
  have hmarked : Marked (k.store va v) l := (hs.lists hinv).setMem hmaps
  have hpages := hs.freePages hinv hF
  have hmax : s.maxAddr = (k.store va v).limit := by
    rw [Kernel.limit, Kernel.maxAddr_store]
    exact hs.links.maxAddr
  have hlist : ∀ o, ((k.store va v).pgallocBins o).list = (s.bin o).list := fun o => by
    rw [Kernel.pgallocBins_store]
    exact hs.links.list o
  have hkeep : ∀ q ∈ F, (pageVa q + 8 ≤ va ∨ va + 8 ≤ pageVa q) →
      (k.store va v).next (pageVa q) = s.next (pageVa q) := by
    intro q hq hfar
    rw [← hs.links.next q hq, Kernel.next, Kernel.mem_store, Kernel.next]
    exact load64_store64_ne hfar
  by_cases hhit : ∃ p ∈ F, pageVa p < va + 8 ∧ va < pageVa p + 8
  · obtain ⟨p, hp, hlo, hhi⟩ := hhit
    have hfree : p ∉ PageAlloc.freePages s := fun hfree => by
      rw [← hpages] at hfree
      have hout := (hbytes (max va (pageVa p)) (by omega) (by omega)).2.2 p hfree
      rw [pgSize] at hout
      omega
    have hidx : pgIndex (kv2p (pageVa p)) = p := pgIndex_kv2p_pageVa k.limit_fit (hl.below p hp)
    have hlegal : PageAlloc.Legal s (.clientStore (pageVa p) ((k.store va v).next (pageVa p))) := by
      refine ⟨?_, fun q hq => absurd hq (by simp [freed])⟩
      rw [WellFormed, hidx]
      exact hfree
    refine Or.inr ⟨_, _, hlegal, Links.stored ⟨?_, hlist, fun q hq => ?_⟩ (hinv.store hlegal.1) hmarked⟩
    · rw [State.maxAddr_store]
      exact hmax
    · rw [State.next_store]
      by_cases heq : q = p
      · rw [heq, Function.update_self]
      · have hfar := hl.pageVa_far hp hq heq
        rw [pgSize] at hfar
        rw [Function.update_of_ne (by omega)]
        exact hkeep q hq (by omega)
  · refine Or.inl (Links.stored ⟨hmax, hlist, fun q hq => hkeep q hq ?_⟩ hinv hmarked)
    by_contra hfar
    exact hhit ⟨q, hq, by omega, by omega⟩

/-! ## Runs -/

/-- What a run keeps. -/
structure Held (F : Finset Nat) (h : History) (k : Kernel) (s : State) (l : Nat → List Nat) : Prop where
  stored : Stored F k s
  layout : Layout F k
  inv : Inv s l
  pages : PageAlloc.freePages s ⊆ F
  ledger : Ledger h s
  fed : fedPages h ⊆ F

namespace Held

variable {c : Call} {r : Nat}

theorem state_pages (hh : Held F h k s l) : PageAlloc.freePages k.state = PageAlloc.freePages s :=
  hh.stored.freePages hh.inv hh.pages

/-- A request returns what it returns on the state. -/
theorem request (hh : Held F h k s l) (hreq : c.isRequest) (hc : k.Legal V F c) :
    PageAlloc.Legal s c ∧ ∃ r s' l' k', PageAlloc.exec s c = .ok (r, s') ∧ k.exec c = .ok (r, k') ∧
      Held F ((c, r) :: h) k' s' l' ∧ Writes (PageAlloc.freePages k.state ∪ freed c) k k' := by
  obtain ⟨hc', hcF⟩ : PageAlloc.Legal k.state c ∧ freed c ⊆ F := by
    cases c with
    | clientStore va v => cases hreq
    | _ => exact hc
  have hlegal := hh.stored.legal hh.layout hh.inv hh.pages hc' hcF
  obtain ⟨r, s', hok, l', hinv'⟩ := exec_ok hh.inv hlegal
  obtain ⟨k', hk', hstored, hwrites⟩ := hh.stored.exec hh.layout hh.inv hh.pages hreq hlegal hcF hok
  have hmoved := exec_moved hh.inv hlegal hok
  refine ⟨hlegal, r, s', l', k', hok, hk', ⟨hstored, hh.layout.writes hwrites, hinv', ?_, hh.ledger.call hmoved, ?_⟩, ?_⟩
  · rw [hmoved.pages]
    exact Finset.sdiff_subset.trans (Finset.union_subset hh.pages hcF)
  · exact Finset.union_subset hh.fed hcF
  · rw [hh.state_pages]
    exact hwrites

theorem live_mem (hh : Held F h k s l) {p : Nat} (hp : p ∈ livePages h) : p ∈ F ∧ p ∉ PageAlloc.freePages s := by
  refine ⟨hh.fed ?_, fun hfree => Finset.disjoint_left.mp hh.ledger.apart hfree hp⟩
  rw [← hh.ledger.total]
  exact Finset.mem_union_right _ hp

/-- A call keeps the live pages that it does not free. -/
theorem keeps_live (hh : Held F h k s l) (hcF : freed c ⊆ F)
    (hwrites : Writes (PageAlloc.freePages k.state ∪ freed c) k k') {p b : Nat} (hp : p ∈ livePages h)
    (hpc : p ∉ freed c) (hb : pageVa p ≤ b) (hb' : b < pageVa p + pgSize) : k'.mem b = k.mem b := by
  obtain ⟨hpF, hfree⟩ := hh.live_mem hp
  refine hwrites.mem b (fun hmaps => ?_) fun q hq => ?_
  · have := hh.layout.apart b hmaps p hpF
    omega
  · rw [hh.state_pages] at hq
    have hqF : q ∈ F := Finset.union_subset hh.pages hcF hq
    have hne : q ≠ p := by
      rintro rfl
      exact (Finset.mem_union.mp hq).elim hfree hpc
    have hfar := hh.layout.pageVa_far hpF hqF hne
    rw [pgSize] at hfar hb'
    omega

/-- A store is a store to the first word of one page, or changes nothing that the state holds. -/
theorem store (hh : Held F h k s l) {va v : Nat} (hc : k.Legal V F (.clientStore va v)) :
    ∃ s', Held F ((.clientStore va v, 0) :: h) (k.store va v) s' l ∧
      (s' = s ∨ ∃ va' v', PageAlloc.Legal s (.clientStore va' v') ∧ s' = s.store va' v') := by
  have hlay : Layout F (k.store va v) := hh.layout.congr (k.maxAddr_store va v) fun o => by
    rw [Kernel.pgallocBins_store]
  have hfed : fedPages ((.clientStore va v, 0) :: h) ⊆ F := by
    rw [fedPages, freed, Finset.union_empty]
    exact hh.fed
  have hmoved : ∀ {s'}, PageAlloc.freePages s' = PageAlloc.freePages s →
      Moved s (.clientStore va v, 0) s' := fun hs' =>
    moved_of_no_handed rfl (by rw [freed, Finset.union_empty, hs']) (Finset.disjoint_empty_left _)
  rcases hh.stored.clientStore hh.layout hh.inv hh.pages hc with hs | ⟨va', v', hlegal, hs⟩
  · exact ⟨s, ⟨hs, hlay, hh.inv, hh.pages, hh.ledger.call (hmoved rfl), hfed⟩, Or.inl rfl⟩
  · have hinv' := hh.inv.store (v := v') hlegal.1
    have hkeep : PageAlloc.freePages (s.store va' v') = PageAlloc.freePages s := by
      ext q
      rw [hinv'.mem_freePages, hh.inv.mem_freePages]
    exact ⟨_, ⟨hs, hlay, hinv', by rw [hkeep]; exact hh.pages, hh.ledger.call (hmoved hkeep), hfed⟩,
      Or.inr ⟨va', v', hlegal, rfl⟩⟩

end Held

theorem held_start (hl : Layout F k) (hk : k.Started) : Held F [] k (cleared k.limit (load64 k.mem)) fun _ => [] where
  stored := by
    refine Links.stored ⟨rfl, hk.lists, fun _ _ => rfl⟩ (inv_cleared _ k.limit_fit) fun o ho i hi => ?_
    rw [hk.bits o ho i hi]
    simp [marks]
  layout := hl
  inv := inv_cleared _ k.limit_fit
  pages := by
    rw [freePages_cleared]
    exact Finset.empty_subset F
  ledger := ledger_start _ _
  fed := Finset.empty_subset F

/-- A client may ask for a block of any order. -/
theorem Kernel.legal_allocate (k : Kernel) (order : Int) : k.Legal V F (.allocate order) :=
  ⟨⟨trivial, fun p hp => absurd hp (by simp [freed])⟩, Finset.empty_subset _⟩

/-- A run in memory goes along with a run of the allocator's states. -/
theorem Kernel.Run.held (hrun : Kernel.Run V F h k) :
    ∃ h' s l, PageAlloc.Run h' s ∧ requests h' = requests h ∧ Held F h k s l := by
  induction hrun with
  | start k hl _ hk =>
      exact ⟨[], _, _, PageAlloc.Run.start _ _ k.limit_fit, rfl, held_start hl hk⟩
  | @call h k k' c r _ hc hexec ih =>
      obtain ⟨h', s, l, hrun', hreqs, hh⟩ := ih
      by_cases hreq : c.isRequest
      · obtain ⟨hlegal, r', s', l', k₁, hok, hk₁, hh', _⟩ := hh.request hreq hc
        rw [hexec, Except.ok.injEq, Prod.mk.injEq] at hk₁
        obtain ⟨rfl, rfl⟩ := hk₁
        refine ⟨(c, r) :: h', s', l', hrun'.call hlegal hok, ?_, hh'⟩
        rw [requests_cons, requests_cons, hreqs]
      · obtain ⟨va, v, rfl⟩ : ∃ va v, c = .clientStore va v := by
          cases c with
          | clientStore va v => exact ⟨va, v, rfl⟩
          | _ => exact absurd rfl hreq
        rw [Kernel.exec, Except.ok.injEq, Prod.mk.injEq] at hexec
        obtain ⟨rfl, rfl⟩ := hexec
        obtain ⟨s', hh', rfl | ⟨va', v', hlegal, rfl⟩⟩ := hh.store hc
        · refine ⟨h', s', l, hrun', ?_, hh'⟩
          rw [requests_cons, if_neg hreq, hreqs]
        · refine ⟨(.clientStore va' v', 0) :: h', _, l, hrun'.call hlegal rfl, ?_, hh'⟩
          rw [requests_cons, requests_cons, if_neg hreq, ← hreqs]
          rfl

/-- The allocator in memory refines the allocator over its states, whatever clients store outside `V`,
the bitmaps and the free pages. -/
theorem memory_refines (hrun : Kernel.Run V F h k) :
    ∃ h' s, PageAlloc.Run h' s ∧ requests h' = requests h ∧ Stored F k s ∧
      PageAlloc.freePages k.state = PageAlloc.freePages s ∧
      ∀ c, c.isRequest → k.Legal V F c → ∃ r s' k', PageAlloc.exec s c = .ok (r, s') ∧
        k.exec c = .ok (r, k') ∧ Stored F k' s' := by
  obtain ⟨h', s, l, hrun', hreqs, hh⟩ := hrun.held
  refine ⟨h', s, hrun', hreqs, hh.stored, hh.state_pages, fun c hreq hc => ?_⟩
  obtain ⟨_, r, s', l', k', hok, hk', hh', _⟩ := hh.request hreq hc
  exact ⟨r, s', k', hok, hk', hh'.stored⟩

/-- No call panics, the free and the live pages are the pages ever fed in, and no call changes a byte
of a live page that it does not free, or, besides `V`, a byte outside the bitmaps and the pages. -/
theorem memory_live (hrun : Kernel.Run V F h k) :
    PageAlloc.freePages k.state ∪ livePages h = fedPages h ∧
    Disjoint (PageAlloc.freePages k.state) (livePages h) ∧
    ∀ c, c.isRequest → k.Legal V F c → ∃ r k', k.exec c = .ok (r, k') ∧
      (∀ p ∈ livePages h, p ∉ freed c → ∀ b, pageVa p ≤ b → b < pageVa p + pgSize → k'.mem b = k.mem b) ∧
      ∀ b ∉ V, ¬InBitmaps k b → (∀ p ∈ F, b < pageVa p ∨ pageVa p + pgSize ≤ b) → k'.mem b = k.mem b := by
  obtain ⟨h', s, l, _, _, hh⟩ := hrun.held
  have hpages := hh.state_pages
  refine ⟨by rw [hpages]; exact hh.ledger.total, by rw [hpages]; exact hh.ledger.apart, fun c hreq hc => ?_⟩
  obtain ⟨_, r, s', l', k', _, hk', hh', hwrites⟩ := hh.request hreq hc
  have hcF : freed c ⊆ F := Finset.subset_union_right.trans hh'.fed
  refine ⟨r, k', hk', fun p hp hpc b hb hb' => hh.keeps_live hcF hwrites hp hpc hb hb', fun b _ hb hout =>
    hwrites.mem b hb fun p hp => ?_⟩
  rw [hpages] at hp
  have := hout p (Finset.union_subset hh.pages hcF hp)
  rw [pgSize] at this
  omega

end

/-! ## A run -/

/-- An allocator of 1024 pages, with its bitmaps in low memory. -/
def lowBitmaps : Kernel where
  maxAddr := 2 ^ 22
  pgallocBins := fun o => ⟨⟨0, 0⟩, 4096 * o⟩
  zone := .boot
  mem := fun _ => 0

theorem lowBitmaps_word {o i : Nat} (ho : o ≤ maxOrder) (hi : (i + 1) * pgSize ≤ lowBitmaps.maxAddr) :
    wordAddr lowBitmaps o i = 4096 * o + 4 * ((i >>> (o + 1)) / 32) ∧ 4 * ((i >>> (o + 1)) / 32) < 1024 := by
  have hlt : i >>> (o + 1) ≤ i := by
    rw [Nat.shiftRight_eq_div_pow]
    exact Nat.div_le_self _ _
  have hmax : lowBitmaps.maxAddr = 2 ^ 22 := rfl
  rw [hmax, pgSize] at hi
  rw [maxOrder] at ho
  have hbitmap : (lowBitmaps.pgallocBins o).bitmap = 4096 * o := rfl
  rw [wordAddr, hbitmap, Nat.mod_eq_of_lt (by omega)]
  exact ⟨rfl, by omega⟩

theorem lowBitmaps_below {p : Nat} (hp : p ∈ Finset.range 1024) : (p + 1) * pgSize ≤ 2 ^ 22 := by
  rw [Finset.mem_range] at hp
  rw [pgSize]
  omega

theorem lowBitmaps_pageVa {p : Nat} (hp : p ∈ Finset.range 1024) : pageVa p = kernBase + p * pgSize :=
  pageVa_eq (show kernBase + 2 ^ 22 ≤ 2 ^ 64 by decide) (lowBitmaps_below hp)

theorem lowBitmaps_inBitmaps {b : Nat} (hb : InBitmaps lowBitmaps b) : b < kernBase := by
  obtain ⟨o, ho, i, hi, _, hb'⟩ := hb
  obtain ⟨heq, hlt⟩ := lowBitmaps_word ho hi
  rw [maxOrder] at ho
  have hbase : kernBase = 0xFFFF800000000000 := rfl
  omega

theorem lowBitmaps_separate : Separate lowBitmaps := by
  intro o o' hlt ho' i i' hi hi'
  obtain ⟨heq, hsmall⟩ := lowBitmaps_word (show o ≤ maxOrder by omega) hi
  obtain ⟨heq', _⟩ := lowBitmaps_word ho' hi'
  rw [heq, heq']
  omega

theorem lowBitmaps_layout : Layout (Finset.range 1024) lowBitmaps where
  below p hp := by
    have hlimit : lowBitmaps.limit = 2 ^ 22 := by decide
    rw [hlimit]
    exact lowBitmaps_below hp
  apart b hb p hp := by
    have hlt := lowBitmaps_inBitmaps hb
    rw [lowBitmaps_pageVa hp]
    omega
  noClash := lowBitmaps_separate.noClash fun _ hp => lowBitmaps_below hp

/-- A page for the kernel itself, behind the pages -/
def highVariables : Set Nat := Set.Ico (kernBase + 2 ^ 22) (kernBase + 2 ^ 22 + pgSize)

theorem lowBitmaps_aside : lowBitmaps.Aside highVariables (Finset.range 1024) := by
  intro b hb
  obtain ⟨hlo, _⟩ := hb
  refine ⟨fun hin => ?_, fun p hp => ?_⟩
  · have hlt := lowBitmaps_inBitmaps hin
    omega
  · have hbelow := lowBitmaps_below hp
    rw [lowBitmaps_pageVa hp]
    rw [Nat.succ_mul] at hbelow
    omega

theorem lowBitmaps_started : lowBitmaps.Started where
  lists _ := rfl
  bits o _ i _ := by
    rw [Kernel.test, bitmapTest_eq_getLsbD, bitmapAt]
    have hword : ∀ a, loadLE lowBitmaps.mem a 4 = 0 := fun a => loadLE_zero fun _ _ _ => rfl
    rw [hword]
    simp

theorem lowBitmaps_run : Kernel.Run highVariables (Finset.range 1024) [] lowBitmaps :=
  .start _ lowBitmaps_layout lowBitmaps_aside lowBitmaps_started

/-- Feeding the 1024 pages. -/
theorem lowBitmaps_feed : ∃ k, Kernel.Run highVariables (Finset.range 1024) [(.freeRange kernBase (kernBase + 2 ^ 22), 0)] k ∧
    freePages k.state = Finset.range 1024 := by
  obtain ⟨h', s, l, _, _, hh⟩ := lowBitmaps_run.held
  have hempty : freePages lowBitmaps.state = ∅ := freePages_of_lists fun _ => rfl
  have hfreed : freed (.freeRange kernBase (kernBase + 2 ^ 22)) = Finset.range 1024 := by
    have hstart : rangeStart kernBase = 0 := by decide
    have hend : rangeEnd (kernBase + 2 ^ 22) = 1024 := by decide
    rw [freed, hstart, hend, Finset.range_eq_Ico]
  have hlegal : lowBitmaps.Legal highVariables (Finset.range 1024) (.freeRange kernBase (kernBase + 2 ^ 22)) := by
    refine ⟨⟨trivial, fun p hp => ⟨?_, by rw [hempty]; exact Finset.notMem_empty p⟩⟩, by rw [hfreed]⟩
    rw [hfreed] at hp
    exact lowBitmaps_below hp
  obtain ⟨_, r, s', l', k', hok, hk', hh', _⟩ := hh.request rfl hlegal
  obtain rfl : r = 0 := by
    rw [exec] at hok
    obtain ⟨_, _, hpair⟩ := exists_ok_of_map hok
    cases hpair
    rfl
  refine ⟨k', lowBitmaps_run.call hlegal hk', ?_⟩
  have htotal := hh'.ledger.total
  have hlive : livePages [(Call.freeRange kernBase (kernBase + 2 ^ 22), 0)] = ∅ := by
    rw [livePages, livePages, Finset.empty_sdiff, Finset.empty_union]
    rfl
  rw [hlive, Finset.union_empty, fedPages, fedPages, Finset.empty_union, hfreed] at htotal
  rw [hh'.state_pages, htotal]

theorem memory_refines_feed : ∃ h k s, Kernel.Run highVariables (Finset.range 1024) h k ∧
    freePages k.state = Finset.range 1024 ∧ Stored (Finset.range 1024) k s ∧
    ∃ r s' k', exec s (.allocate 3) = .ok (r, s') ∧ k.exec (.allocate 3) = .ok (r, k') := by
  obtain ⟨k, hrun, hpages⟩ := lowBitmaps_feed
  obtain ⟨_, s, _, _, hs, _, hcalls⟩ := memory_refines hrun
  obtain ⟨r, s', k', hok, hk', _⟩ := hcalls (.allocate 3) rfl (k.legal_allocate 3)
  exact ⟨_, k, s, hrun, hpages, hs, r, s', k', hok, hk'⟩

theorem memory_live_feed : ∃ h k, Kernel.Run highVariables (Finset.range 1024) h k ∧
    freePages k.state ∪ livePages h = Finset.range 1024 ∧
    ∃ r k', k.exec (.allocate 3) = .ok (r, k') ∧ ∀ b ∉ highVariables, ¬InBitmaps k b →
      (∀ p ∈ Finset.range 1024, b < pageVa p ∨ pageVa p + pgSize ≤ b) → k'.mem b = k.mem b := by
  obtain ⟨k, hrun, hpages⟩ := lowBitmaps_feed
  obtain ⟨htotal, _, hcalls⟩ := memory_live hrun
  obtain ⟨r, k', hk', _, hout⟩ := hcalls (.allocate 3) rfl (k.legal_allocate 3)
  refine ⟨_, k, hrun, ?_, r, k', hk', hout⟩
  rw [hpages]
  simp [livePages, handedOut]

end PageAlloc
end GuideOS
