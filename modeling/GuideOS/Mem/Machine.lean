import GuideOS.Mem.Kmain
import GuideOS.Mem.Kmalloc.Run

/-!
# The memory of the running kernel

The page allocator, the heap and their clients, on the memory that `kmain` sets up.  `kmalloc` takes
its pages from `pgalloc_allocate`, and both keep their data in the pages they manage.  A client stores
where it holds memory: in its blocks, in its pages, or away from the zone of `kmain` and from the
variables `V` of the kernel, which are fields here.  The stack of a call is not in the model.
-/

namespace GuideOS

open Lib

/-! ## Where the heap writes -/

namespace Kmalloc

open Blk

/-- What changes in memory lies in the pages. -/
def SameOutsidePages (pages : List Nat) (h h' : Heap) : Prop := ∀ x, ¬InPages pages x → h'.mem x = h.mem x

section

variable {w : World} {l bs : List Blk} {h h' : Heap} {ps : List Nat} {b : Blk} {p : Nat}

theorem SameOutside.pages (hs : SameOutside bs h h') (hin : ∀ x, Covers bs x → InPages ps x) :
    SameOutsidePages ps h h' := by
  intro x hx
  refine hs x fun ⟨d, hd, hlo, hhi⟩ => hx (hin x ⟨d, hd, hlo, ?_⟩)
  have := d.stop_eq
  rw [totalMetadataSize] at hhi
  omega

theorem Inv.findFit_pages (h : Inv w l) (n : Nat) :
    findFitBlock w.heap n = some (w.heap, 0) ∨
      ∃ (r : Blk × List Blk) (h' : Heap), findFitBlock w.heap n = some (h', r.1.ptr) ∧ r.1 = ⟨r.1.ptr - totalMetadataSize, n⟩ ∧
        Moved w l w.live 0 { w with heap := h', live := r.1 :: w.live } r.2 ∧
        SameOutsidePages w.pages w.heap h' := by
  rcases findFitBlock_ok h.rep h.free fun c hc => h.valid (List.mem_append_left _ hc) with
    ⟨_, hnone⟩ | ⟨r, h', halloc, hrun, htaken⟩
  · exact Or.inl hnone
  · have hc := allocBlk_carved h.free halloc
    refine Or.inr ⟨r, h', hrun, ?_, h.take halloc htaken, htaken.same.pages fun x hx => ?_⟩
    · ext
      · exact (Blk.ptr_sub _).symm
      · exact hc.size
    · refine h.inside x (covers_append.mpr (Or.inl ?_))
      rcases covers_cons.mp hx with hx | hx
      · exact (hc.covers x).mp (covers_cons.mpr (Or.inl hx))
      · exact hx

theorem Inv.grow_pages (h : Inv w l) (hp : FreshPage w.pages p) :
    ∃ h' q, addBlock w.heap p pgSize = some (h', q) ∧
      Moved w l w.live 0 { w with heap := h', pages := p :: w.pages } (addBlk l (pageBlk p)) ∧
      SameOutsidePages (p :: w.pages) w.heap h' := by
  have hvalid : ∀ c ∈ pageBlk p :: l, c.Valid := by
    intro c hc
    rcases List.mem_cons.mp hc with rfl | hc
    · exact hp.valid
    · exact h.valid (List.mem_append_left _ hc)
  obtain ⟨h', q, hadd, hrep, hs⟩ := addBlock_ok h.rep (pageBlk_cons_apart h hp) hvalid pageBlk_size
  refine ⟨h', q, hadd, h.grow hp hrep hs, hs.pages fun x hx => inPages_cons.mpr ?_⟩
  exact (covers_cons.mp hx).imp_right fun hx => h.inside x (covers_append.mpr (Or.inl hx))

theorem Inv.kfree_pages (h : Inv w l) (hb : b ∈ w.live) :
    ∃ h' l', kfree w.heap b.ptr = .ok h' ∧ SameOutsidePages w.pages w.heap h' ∧
      ∃ gone, Moved w l (spared w (.kfree b.ptr)) gone
        { w with heap := h', live := w.live.eraseP fun c => c.ptr = b.ptr } l' := by
  obtain ⟨w', l', gone, hexec, hmoved, _⟩ := kfree_ok h (Or.inr ⟨b, hb, rfl⟩)
  rw [exec] at hexec
  obtain ⟨h', hrun, rfl⟩ := exists_ok_of_map hexec
  refine ⟨h', l', hrun, ?_, gone, hmoved⟩
  rw [kfree, if_neg b.ptr_ne_zero, b.ptr_sub] at hrun
  dsimp only at hrun
  rw [h.header b hb] at hrun
  by_cases hsmall : b.size < 8
  · rw [addBlock_small (by simp only [minBlockSize, totalMetadataSize]; omega)] at hrun
    cases hrun
    exact fun x _ => rfl
  · have hbl : (b :: l).Pairwise Apart :=
      List.pairwise_cons.mpr ⟨fun c hc => (h.apart_live hc hb).symm, h.free.apart⟩
    obtain ⟨h₁, q, hadd, _, hs⟩ := addBlock_ok h.rep hbl (fun c hc => by
      rcases List.mem_cons.mp hc with rfl | hc
      · exact h.valid (List.mem_append_right _ hb)
      · exact h.valid (List.mem_append_left _ hc)) (by omega)
    rw [hadd] at hrun
    cases hrun
    refine hs.pages fun x hx => h.inside x ?_
    rcases covers_cons.mp hx with hx | hx
    · exact ⟨b, List.mem_append_right _ hb, hx⟩
    · exact covers_append.mpr (Or.inl hx)

end

end Kmalloc

/-! ## Stores to pages that are not free -/

namespace PageAlloc

section

variable {F : Finset Nat} {h : History} {k : Kernel} {s : State} {l : Nat → List Nat}

theorem Inv.setNext (hinv : Inv s l) {next : Nat → Nat}
    (hnext : ∀ p ∈ freePages s, next (pageVa p) = s.next (pageVa p)) :
    Inv { s with next := next } l ∧ freePages { s with next := next } = freePages s := by
  have hinv' : Inv { s with next := next } l := by
    refine ⟨hinv.fit, fun o ho => ?_, hinv.size, hinv.aligned, hinv.below, hinv.disjoint, hinv.parity,
      hinv.single⟩
    refine (hinv.chain o ho).congr fun va hva => ?_
    obtain ⟨i, hi, hva⟩ := List.mem_map.mp hva
    rw [← hva]
    exact hnext i (hinv.mem_freePages.mpr ⟨o, i, ⟨ho, hi⟩, self_mem_block i o⟩)
  refine ⟨hinv', ?_⟩
  ext p
  rw [hinv'.mem_freePages, hinv.mem_freePages]

/-- The allocator reads its bitmaps and the first words of the free pages. -/
theorem Held.setMem (hh : Held F h k s l) (mem : Bytes) (hmaps : ∀ b, InBitmaps k b → mem b = k.mem b)
    (hfree : ∀ p ∈ freePages s, ∀ b, pageVa p ≤ b → b < pageVa p + pgSize → mem b = k.mem b) :
    ∃ s', Held F h { k with mem := mem } s' l ∧ freePages s' = freePages s := by
  -- The map is kept closed, so that the two records are not compared through it.
  obtain ⟨next, hload⟩ : ∃ next, load64 mem = next := ⟨_, rfl⟩
  obtain ⟨hinv, hpages⟩ : Inv { s with next := next } l ∧ freePages { s with next := next } = freePages s := by
    refine hh.inv.setNext fun p hp => ?_
    rw [← hh.stored.links.next p (hh.pages hp), ← hload]
    refine load64_congr fun b hb hb' => hfree p hp b hb ?_
    rw [pgSize]
    omega
  have hlinks : Links F { k with mem := mem } { s with next := next } := by
    refine ⟨hh.stored.links.maxAddr, hh.stored.links.list, fun p _ => ?_⟩
    rw [Kernel.next, hload]
  refine ⟨{ s with next := next }, ?_, hpages⟩
  constructor
  · exact hlinks.stored hinv ((hh.stored.lists hh.inv).setMem hmaps)
  · exact hh.layout.congr rfl fun _ => rfl
  · exact hinv
  · rw [hpages]
    exact hh.pages
  · constructor
    · rw [hpages]
      exact hh.ledger.total
    · rw [hpages]
      exact hh.ledger.apart
    · exact hh.ledger.owned
    · exact hh.ledger.once
  · exact hh.fed

end

end PageAlloc

/-! ## The machine -/

namespace Kmain

open PageAlloc Kmalloc

inductive Panic
  | pgalloc (e : PageAlloc.Panic)
  | heap (e : Kmalloc.Panic)
deriving DecidableEq

namespace Machine

def heap (m : Machine) : Heap := ⟨m.kernel.mem, m.sizeList⟩

def setHeap (m : Machine) (h : Heap) : Machine :=
  { m with kernel := { m.kernel with mem := h.mem }, sizeList := h.sizeList }

def pgallocAllocate (m : Machine) (order : Int) : Except Panic (Nat × Machine) :=
  ((m.kernel.pgallocAllocate order).mapError .pgalloc).map fun r => (r.1, { m with kernel := r.2 })

def pgallocFree (m : Machine) (addr order : Nat) : Except Panic Machine :=
  ((m.kernel.pgallocFree addr order).mapError .pgalloc).map fun k => { m with kernel := k }

def findFitBlock (m : Machine) (requestSize : Nat) : Except Panic (Nat × Machine) :=
  ((orLoop (Kmalloc.findFitBlock m.heap requestSize)).mapError .heap).map fun r => (r.2, m.setHeap r.1)

def addBlock (m : Machine) (block rawSize : Nat) : Except Panic Machine :=
  ((orLoop (Kmalloc.addBlock m.heap block rawSize)).mapError .heap).map fun r => m.setHeap r.1

/-- The pointer, the machine and the page that was taken, or null. -/
def kmalloc (m : Machine) (size : Nat) : Except Panic (Nat × Machine × Nat) :=
  if size = 0 then
    .ok (0, m, 0)
  else if size > pgSize - totalMetadataSize then
    .ok (0, m, 0)
  else do
    let (rtn, m) ← m.findFitBlock size
    if rtn ≠ 0 then
      return (rtn, m, 0)
    else
      let (newRam, m) ← m.pgallocAllocate 0
      if newRam ≠ 0 then
        let m ← m.addBlock newRam pgSize
        let (rtn, m) ← m.findFitBlock size
        return (rtn, m, newRam)
      else
        throw (.heap .oom)

def kfree (m : Machine) (ptr : Nat) : Except Panic Machine :=
  ((Kmalloc.kfree m.heap ptr).mapError .heap).map m.setHeap

def store (m : Machine) (a : Nat) (v : BitVec 8) : Machine :=
  m.setHeap { m.heap with mem := Function.update m.kernel.mem a v }

end Machine

inductive Call
  | allocate (order : Int)
  | free (addr order : Nat)
  | kmalloc (size : Nat)
  | kfree (ptr : Nat)
  /-- A store by a client -/
  | store (a : Nat) (v : BitVec 8)
deriving DecidableEq

/-- The machine with what its clients know: the blocks and the pages they hold, and the pages that
the heap has taken. -/
structure World where
  machine : Machine
  live : List Blk
  heapPages : List Nat
  clientPages : Finset Nat

/-- The world after `kmalloc`. -/
def kmallocWorld (w : World) (size : Nat) (r : Nat × Machine × Nat) : World where
  machine := r.2.1
  live := if r.1 = 0 then w.live else ⟨r.1 - totalMetadataSize, size⟩ :: w.live
  heapPages := if r.2.2 = 0 then w.heapPages else r.2.2 :: w.heapPages
  clientPages := w.clientPages

/-- Run one call.  The functions without a result return `0` here. -/
def exec (w : World) : Call → Except Panic (Nat × World)
  | .allocate order => (w.machine.pgallocAllocate order).map fun r =>
      (r.1, { w with machine := r.2, clientPages := w.clientPages ∪ handedOut (.allocate order, r.1) })
  | .free addr order => (w.machine.pgallocFree addr order).map fun m =>
      (0, { w with machine := m, clientPages := w.clientPages \ block (pgIndex (kv2p addr)) order })
  | .kmalloc size => (w.machine.kmalloc size).map fun r => (r.1, kmallocWorld w size r)
  | .kfree ptr => (w.machine.kfree ptr).map fun m =>
      (0, { w with machine := m, live := w.live.eraseP fun b => b.ptr = ptr })
  | .store a v => .ok (0, { w with machine := w.machine.store a v })

/-- In front of the zone of `kmain`, or behind it and behind the memory that is fed in, and no byte of
the variables `V` of the kernel -/
def Elsewhere (V : Set Nat) (kernEnd a : Nat) : Prop :=
  a ∉ V ∧ (a < kernEnd ∨ kernEnd + 39 * 4096 ≤ a ∧ kernBase + 16384 * 4096 ≤ a)

/-- A client frees what it holds and stores into what it holds, or away from the zone. -/
def Legal (V : Set Nat) (kernEnd : Nat) (w : World) : Call → Prop
  | .allocate _ => True
  | .free addr order => order ≤ maxOrder ∧ 2 ^ order ∣ pgIndex (kv2p addr) ∧
      block (pgIndex (kv2p addr)) order ⊆ w.clientPages
  | .kmalloc _ => True
  | .kfree ptr => ptr = 0 ∨ ∃ b ∈ w.live, b.ptr = ptr
  | .store a _ => (∃ b ∈ w.live, b.ptr ≤ a ∧ a < b.stop) ∨
      (∃ p ∈ w.clientPages, pageVa p ≤ a ∧ a < pageVa p + pgSize) ∨ Elsewhere V kernEnd a

/-- A run starts with what `kmain` leaves. -/
inductive Run (V : Set Nat) (kernEnd : Nat) (mem : Bytes) : World → Prop
  | start {m : Machine} (hboot : kmain kernEnd mem = .ok m) : Run V kernEnd mem ⟨m, [], [], ∅⟩
  | call {w w' : World} {c : Call} {r : Nat} (hrun : Run V kernEnd mem w) (hc : Legal V kernEnd w c)
      (hexec : exec w c = .ok (r, w')) : Run V kernEnd mem w'

/-- The indices of the pages of the heap. -/
def World.heapIndices (w : World) : Finset Nat := (w.heapPages.map fun va => pgIndex (kv2p va)).toFinset

def World.heap (w : World) : Kmalloc.World := ⟨w.machine.heap, w.live, w.heapPages⟩

/-! ## The kernel below the heap -/

section

variable {V : Set Nat} {kernEnd : Nat} {m m' : Machine} {h : PageAlloc.History} {s : PageAlloc.State} {l : Nat → List Nat}

/-- What holds of the page tables and of the page allocator. -/
structure Grounded (kernEnd : Nat) (m : Machine) (h : PageAlloc.History) (s : PageAlloc.State)
    (l : Nat → List Nat) : Prop where
  held : Held (ramPages kernEnd) h m.kernel s l
  fed : fedPages h = ramPages kernEnd
  bitmaps : ∀ b, InBitmaps m.kernel b → kernEnd + 2 * 4096 ≤ b ∧ b < kernEnd + 39 * 4096
  tables : Vmm.Tables ⟨m.kernel.zone, m.kernel.mem, m.kernPml4, m.cr3⟩ kernEnd (kernEnd + 4096)

/-- The bytes of a page -/
def InPage (p x : Nat) : Prop := pageVa p ≤ x ∧ x < pageVa p + pgSize

theorem InPage.above (hp : Placed V kernEnd) {p x : Nat} (hmem : p ∈ ramPages kernEnd) (hx : InPage p x) :
    kernEnd + 39 * 4096 ≤ x ∧ x < kernBase + 16384 * 4096 := by
  obtain ⟨hva, hge⟩ := ram_pageVa hp hmem
  have hlt := (mem_ramPages hp hmem).1
  obtain ⟨hlo, hhi⟩ := hx
  rw [pgSize] at hhi
  omega

theorem InPage.unique (hp : Placed V kernEnd) {p q x : Nat} (hpm : p ∈ ramPages kernEnd) (hqm : q ∈ ramPages kernEnd)
    (hx : InPage p x) (hx' : InPage q x) : p = q := by
  have hva := (ram_pageVa hp hpm).1
  have hva' := (ram_pageVa hp hqm).1
  obtain ⟨hlo, hhi⟩ := hx
  obtain ⟨hlo', hhi'⟩ := hx'
  rw [pgSize] at hhi hhi'
  omega

theorem pgIndex_ram (hp : Placed V kernEnd) {p : Nat} (hmem : p ∈ ramPages kernEnd) :
    pgIndex (kv2p (pageVa p)) = p := by
  have hlt := (mem_ramPages hp hmem).1
  exact pgIndex_kv2p_pageVa (show kernBase + 2 ^ 32 ≤ 2 ^ 64 by decide) (by rw [pgSize]; omega)

/-- The page tables and the page allocator stay when what changes lies behind the bitmaps and in no
free page. -/
theorem Grounded.setHeap (hg : Grounded kernEnd m h s l) (hp' : Heap)
    (hzone : ∀ x, kernEnd ≤ x → x < kernEnd + 39 * 4096 → hp'.mem x = m.kernel.mem x)
    (hfree : ∀ p ∈ freePages s, ∀ x, InPage p x → hp'.mem x = m.kernel.mem x) :
    ∃ s', Grounded kernEnd (m.setHeap hp') h s' l ∧ freePages s' = freePages s := by
  obtain ⟨s', hheld, hpages⟩ := hg.held.setMem hp'.mem
    (fun b hb => by
      have := hg.bitmaps b hb
      exact hzone b (by omega) this.2)
    (fun p hp b hb hb' => hfree p hp b ⟨hb, hb'⟩)
  have htables := tables_congr hg.tables hp'.mem
    (fun b hb hb' => hzone b hb (by rw [pgSize] at hb'; omega))
    (fun b hb hb' => hzone b (by omega) (by rw [pgSize] at hb'; omega))
  exact ⟨s', ⟨hheld, hg.fed, hg.bitmaps, ⟨htables.kernPml4, htables.cr3, htables.root, htables.pages⟩⟩, hpages⟩

/-- A call of the page allocator for pages that are its own. -/
theorem Grounded.request (hp : Placed V kernEnd) (hg : Grounded kernEnd m h s l) {c : PageAlloc.Call}
    (hreq : c.isRequest) (hc : m.kernel.Legal V (ramPages kernEnd) c) (hcF : freed c ⊆ ramPages kernEnd) :
    ∃ r s' l' k', PageAlloc.exec s c = .ok (r, s') ∧ m.kernel.exec c = .ok (r, k') ∧
      Grounded kernEnd { m with kernel := k' } ((c, r) :: h) s' l' ∧
      PageAlloc.Moved s (c, r) s' ∧
      (∀ p ∈ livePages h, p ∉ freed c → ∀ x, InPage p x → k'.mem x = m.kernel.mem x) ∧
      ∀ x, Elsewhere V kernEnd x → k'.mem x = m.kernel.mem x := by
  obtain ⟨hlegal, r, s', l', k', hok, hk', hheld, hwrites⟩ := hg.held.request hreq hc
  have hram : ∀ p ∈ freePages m.kernel.state ∪ freed c, p ∈ ramPages kernEnd := by
    rw [hg.held.state_pages]
    exact fun p hp' => Finset.union_subset hg.held.pages hcF hp'
  have hout : ∀ x, (x < kernEnd + 2 * 4096 ∨ Elsewhere V kernEnd x) → k'.mem x = m.kernel.mem x := by
    intro x hx
    have hx' : x < kernEnd + 2 * 4096 ∨ kernEnd + 39 * 4096 ≤ x ∧ kernBase + 16384 * 4096 ≤ x := by
      rcases hx with hx | ⟨_, hx | hx⟩
      · exact Or.inl hx
      · exact Or.inl (by omega)
      · exact Or.inr hx
    refine hwrites.mem x (fun hin => ?_) fun p hp' => ?_
    · have := hg.bitmaps x hin
      omega
    · obtain ⟨hva, hge⟩ := ram_pageVa hp (hram p hp')
      have hlt := (mem_ramPages hp (hram p hp')).1
      omega
  have htables := tables_congr hg.tables k'.mem
    (fun b hb hb' => hout b (by rw [pgSize] at hb'; omega))
    (fun b hb hb' => hout b (by rw [pgSize] at hb'; omega))
  refine ⟨r, s', l', k', hok, hk', ⟨hheld, ?_, ?_, ?_⟩, exec_moved hg.held.inv hlegal hok,
    fun p hp' hpc x hx => hg.held.keeps_live hcF hwrites hp' hpc hx.1 hx.2, fun x hx => hout x (Or.inr hx)⟩
  · rw [fedPages, hg.fed]
    exact Finset.union_eq_left.mpr hcF
  · exact fun b hb => hg.bitmaps b ((hwrites.inBitmaps b).mp hb)
  · exact ⟨htables.kernPml4, htables.cr3, htables.root, htables.pages⟩

end

/-! ## The invariant -/

/-- What holds in every state of a run: the pages handed out are those of the clients and those of
the heap. -/
structure Sound (kernEnd : Nat) (w : World) (h : PageAlloc.History) (s : PageAlloc.State)
    (l : Nat → List Nat) (fl : List Blk) : Prop where
  ground : Grounded kernEnd w.machine h s l
  owned : livePages h = w.clientPages ∪ w.heapIndices
  apart : Disjoint w.clientPages w.heapIndices
  heap : Kmalloc.Inv w.heap fl
  ram : ∀ q ∈ w.heapPages, ∃ p ∈ ramPages kernEnd, q = pageVa p

/-- The memory keeps blocks, pages and what lies away from the zone. -/
structure Keeps (V : Set Nat) (kernEnd : Nat) (blocks : List Blk) (pages : Finset Nat) (mem mem' : Bytes) : Prop where
  blocks : ∀ b ∈ blocks, ∀ x, b.Has x → mem' x = mem x
  pages : ∀ p ∈ pages, ∀ x, InPage p x → mem' x = mem x
  elsewhere : ∀ x, Elsewhere V kernEnd x → mem' x = mem x

section

variable {V : Set Nat} {kernEnd : Nat} {w w' : World} {h : PageAlloc.History} {s : PageAlloc.State} {l : Nat → List Nat}
  {fl : List Blk} {blocks : List Blk} {pages : Finset Nat} {mem mem' mem'' : Bytes} {p x : Nat}

theorem Keeps.refl (V : Set Nat) (kernEnd : Nat) (blocks : List Blk) (pages : Finset Nat) (mem : Bytes) :
    Keeps V kernEnd blocks pages mem mem :=
  ⟨fun _ _ _ _ => rfl, fun _ _ _ _ => rfl, fun _ _ => rfl⟩

theorem Keeps.trans (h : Keeps V kernEnd blocks pages mem mem') (h' : Keeps V kernEnd blocks pages mem' mem'') :
    Keeps V kernEnd blocks pages mem mem'' where
  blocks b hb x hx := (h'.blocks b hb x hx).trans (h.blocks b hb x hx)
  pages p hp x hx := (h'.pages p hp x hx).trans (h.pages p hp x hx)
  elsewhere x hx := (h'.elsewhere x hx).trans (h.elsewhere x hx)

namespace Sound

theorem mem_heapIndices (hp : Placed V kernEnd) (hs : Sound kernEnd w h s l fl) :
    p ∈ w.heapIndices ↔ p ∈ ramPages kernEnd ∧ pageVa p ∈ w.heapPages := by
  simp only [World.heapIndices, List.mem_toFinset, List.mem_map]
  constructor
  · rintro ⟨q, hq, hidx⟩
    obtain ⟨i, hi, hva⟩ := hs.ram q hq
    rw [hva, pgIndex_ram hp hi] at hidx
    rw [← hidx, ← hva]
    exact ⟨hi, hq⟩
  · rintro ⟨hram, hmem⟩
    exact ⟨pageVa p, hmem, pgIndex_ram hp hram⟩

theorem inPages_iff (hp : Placed V kernEnd) (hs : Sound kernEnd w h s l fl) :
    InPages w.heapPages x ↔ ∃ p ∈ w.heapIndices, InPage p x := by
  constructor
  · rintro ⟨q, hq, hlo, hhi⟩
    obtain ⟨i, hi, hva⟩ := hs.ram q hq
    rw [hva] at hq hlo hhi
    exact ⟨i, (hs.mem_heapIndices hp).mpr ⟨hi, hq⟩, hlo, hhi⟩
  · rintro ⟨i, hi, hx⟩
    exact ⟨pageVa i, ((hs.mem_heapIndices hp).mp hi).2, hx.1, hx.2⟩

theorem live_client (hs : Sound kernEnd w h s l fl) (hmem : p ∈ w.clientPages) : p ∈ livePages h := by
  rw [hs.owned]
  exact Finset.mem_union_left _ hmem

theorem live_heap (hs : Sound kernEnd w h s l fl) (hmem : p ∈ w.heapIndices) : p ∈ livePages h := by
  rw [hs.owned]
  exact Finset.mem_union_right _ hmem

theorem ram_of_live (hs : Sound kernEnd w h s l fl) (hmem : p ∈ livePages h) :
    p ∈ ramPages kernEnd ∧ p ∉ freePages s :=
  hs.ground.held.live_mem hmem

/-- A byte of a client's page is not in the heap. -/
theorem not_inPages_of_client (hp : Placed V kernEnd) (hs : Sound kernEnd w h s l fl) (hmem : p ∈ w.clientPages)
    (hx : InPage p x) : ¬InPages w.heapPages x := by
  intro hin
  obtain ⟨q, hq, hxq⟩ := (hs.inPages_iff hp).mp hin
  have heq := InPage.unique hp (hs.ram_of_live (hs.live_client hmem)).1 (hs.ram_of_live (hs.live_heap hq)).1 hx hxq
  rw [← heq] at hq
  exact Finset.disjoint_left.mp hs.apart hmem hq

theorem not_inPages_of_elsewhere (hp : Placed V kernEnd) (hs : Sound kernEnd w h s l fl) (hx : Elsewhere V kernEnd x) :
    ¬InPages w.heapPages x := by
  intro hin
  obtain ⟨q, hq, hxq⟩ := (hs.inPages_iff hp).mp hin
  have hab := hxq.above hp (hs.ram_of_live (hs.live_heap hq)).1
  rcases hx.2 with hx | hx
  · omega
  · omega

theorem inPages_of_block (hs : Sound kernEnd w h s l fl) {b : Blk} (hb : b ∈ fl ++ w.live) (hx : b.Has x) :
    InPages w.heapPages x :=
  hs.heap.inside x ⟨b, hb, hx⟩

/-- A call of the heap that writes in its pages. -/
theorem setHeap (hp : Placed V kernEnd) (hs : Sound kernEnd w h s l fl) {h' : Heap} {live' fl' : List Blk}
    (hinv : Kmalloc.Inv ⟨h', live', w.heapPages⟩ fl')
    (hout : SameOutsidePages w.heapPages w.machine.heap h')
    (hblocks : ∀ b ∈ blocks, ∀ x, b.Has x → h'.mem x = w.machine.kernel.mem x) :
    ∃ s', Sound kernEnd { w with machine := w.machine.setHeap h', live := live' } h s' l fl' ∧
      freePages s' = freePages s ∧ Keeps V kernEnd blocks w.clientPages w.machine.kernel.mem h'.mem := by
  have hzone : ∀ x, ¬InPages w.heapPages x → h'.mem x = w.machine.kernel.mem x := hout
  obtain ⟨s', hground, hpages⟩ := hs.ground.setHeap h'
    (fun x hlo hhi => hzone x fun hin => by
      obtain ⟨q, hq, hxq⟩ := (hs.inPages_iff hp).mp hin
      have := hxq.above hp (hs.ram_of_live (hs.live_heap hq)).1
      omega)
    (fun q hq x hx => hzone x fun hin => by
      obtain ⟨i, hi, hxi⟩ := (hs.inPages_iff hp).mp hin
      obtain ⟨hram, hfree⟩ := hs.ram_of_live (hs.live_heap hi)
      have heq := InPage.unique hp hram (hs.ground.held.pages hq) hxi hx
      rw [heq] at hfree
      exact hfree hq)
  exact ⟨s', ⟨hground, hs.owned, hs.apart, hinv, hs.ram⟩, hpages, hblocks,
    fun q hq x hx => hzone x (hs.not_inPages_of_client hp hq hx),
    fun x hx => hzone x (hs.not_inPages_of_elsewhere hp hx)⟩

/-! ## The calls -/

theorem findFit (hp : Placed V kernEnd) (hs : Sound kernEnd w h s l fl) (n : Nat) :
    w.machine.findFitBlock n = .ok (0, w.machine) ∨
      ∃ ptr m s' fl', ptr ≠ 0 ∧ w.machine.findFitBlock n = .ok (ptr, m) ∧
        Sound kernEnd { w with machine := m, live := ⟨ptr - totalMetadataSize, n⟩ :: w.live } h s' l fl' ∧
        freePages s' = freePages s ∧
        Keeps V kernEnd w.live w.clientPages w.machine.kernel.mem m.kernel.mem := by
  have hcall : ∀ {r}, Kmalloc.findFitBlock w.machine.heap n = some r →
      w.machine.findFitBlock n = .ok (r.2, w.machine.setHeap r.1) := fun hr => by
    rw [Machine.findFitBlock, hr]
    rfl
  rcases hs.heap.findFit_pages n with hnone | ⟨r, h', hrun, hblk, hmoved, hout⟩
  · exact Or.inl (hcall hnone)
  · obtain ⟨s', hs', hpages, hkeeps⟩ := hs.setHeap hp hmoved.inv hout hmoved.bytes
    rw [hblk] at hs'
    exact Or.inr ⟨r.1.ptr, _, s', r.2, r.1.ptr_ne_zero, hcall hrun, hs', hpages, hkeeps⟩

/-- A page that a client holds goes to the heap. -/
theorem grow (hp : Placed V kernEnd) (hs : Sound kernEnd w h s l fl) (hmem : p ∈ w.clientPages) :
    ∃ m s' fl', w.machine.addBlock (pageVa p) pgSize = .ok m ∧
      Sound kernEnd ⟨m, w.live, pageVa p :: w.heapPages, w.clientPages \ {p}⟩ h s' l fl' ∧
      freePages s' = freePages s ∧
      Keeps V kernEnd w.live (w.clientPages \ {p}) w.machine.kernel.mem m.kernel.mem := by
  obtain ⟨hram, hfree⟩ := hs.ram_of_live (hs.live_client hmem)
  obtain ⟨hva, hge⟩ := ram_pageVa hp hram
  have hlt := (mem_ramPages hp hram).1
  have hbase : kernBase = 0xFFFF800000000000 := rfl
  have hfresh : FreshPage w.heapPages (pageVa p) := by
    refine ⟨by omega, ?_, ?_, fun hin => ?_⟩
    · rw [hva]
      exact Nat.dvd_add (by decide) (Nat.dvd_mul_left _ _)
    · rw [pgSize]
      omega
    · exact Finset.disjoint_left.mp hs.apart hmem ((hs.mem_heapIndices hp).mpr ⟨hram, hin⟩)
  obtain ⟨h', q, hadd, hmoved, hout⟩ := hs.heap.grow_pages hfresh
  have hzone : ∀ x, ¬InPage p x → ¬InPages w.heapPages x → h'.mem x = w.machine.kernel.mem x :=
    fun x hx hx' => hout x fun hin => by
      obtain ⟨q, hq, hxq⟩ := hin
      rcases List.mem_cons.mp hq with heq | hq
      · rw [heq] at hxq
        exact hx hxq
      · exact hx' ⟨q, hq, hxq⟩
  have hidx : (World.heapIndices ⟨w.machine.setHeap h', w.live, pageVa p :: w.heapPages, w.clientPages \ {p}⟩) =
      insert p w.heapIndices := by
    rw [World.heapIndices, List.map_cons, pgIndex_ram hp hram, List.toFinset_cons]
    rfl
  obtain ⟨s', hground, hpages⟩ := hs.ground.setHeap h'
    (fun x hlo hhi => hzone x (fun hx => by have := hx.above hp hram; omega) fun hin => by
      obtain ⟨q, hq, hxq⟩ := (hs.inPages_iff hp).mp hin
      have := hxq.above hp (hs.ram_of_live (hs.live_heap hq)).1
      omega)
    (fun q hq x hx => hzone x
      (fun hxp => by
        rw [← InPage.unique hp (hs.ground.held.pages hq) hram hx hxp] at hfree
        exact hfree hq)
      fun hin => by
        obtain ⟨i, hi, hxi⟩ := (hs.inPages_iff hp).mp hin
        obtain ⟨hram', hfree'⟩ := hs.ram_of_live (hs.live_heap hi)
        rw [InPage.unique hp hram' (hs.ground.held.pages hq) hxi hx] at hfree'
        exact hfree' hq)
  refine ⟨w.machine.setHeap h', s', _, ?_, ⟨hground, ?_, ?_, hmoved.inv, ?_⟩, hpages, ?_⟩
  · have hadd' : Kmalloc.addBlock w.machine.heap (pageVa p) pgSize = some (h', q) := hadd
    rw [Machine.addBlock, hadd']
    rfl
  · rw [hidx, hs.owned]
    ext i
    simp only [Finset.mem_union, Finset.mem_sdiff, Finset.mem_singleton, Finset.mem_insert]
    by_cases heq : i = p
    · rw [heq]
      simp [hmem]
    · simp [heq]
  · rw [hidx, Finset.disjoint_insert_right]
    exact ⟨by simp, hs.apart.mono_left Finset.sdiff_subset⟩
  · intro q hq
    rcases List.mem_cons.mp hq with heq | hq
    · exact ⟨p, hram, heq⟩
    · exact hs.ram q hq
  · refine ⟨hmoved.bytes, fun q hq x hx => ?_, fun x hx => ?_⟩
    · obtain ⟨hq, hne⟩ := Finset.mem_sdiff.mp hq
      refine hzone x (fun hxp => hne ?_) (hs.not_inPages_of_client hp hq hx)
      rw [InPage.unique hp (hs.ram_of_live (hs.live_client hq)).1 hram hx hxp]
      exact Finset.mem_singleton_self p
    · refine hzone x (fun hxp => ?_) (hs.not_inPages_of_elsewhere hp hx)
      have := hxp.above hp hram
      rcases hx.2 with hx | hx
      · omega
      · omega

/-- The heap stays when the pages of the heap do. -/
theorem heap_setMem (hp : Placed V kernEnd) (hs : Sound kernEnd w h s l fl) (k' : Kernel) (pages' : Finset Nat)
    (hkeep : ∀ p ∈ w.heapIndices, ∀ x, InPage p x → k'.mem x = w.machine.kernel.mem x) :
    Kmalloc.Inv (World.heap ⟨{ w.machine with kernel := k' }, w.live, w.heapPages, pages'⟩) fl ∧
      ∀ b ∈ w.live, ∀ x, b.Has x → k'.mem x = w.machine.kernel.mem x := by
  have hblock : ∀ b ∈ fl ++ w.live, ∀ x, b.Has x → k'.mem x = w.machine.kernel.mem x := by
    intro b hb x hx
    obtain ⟨q, hq, hxq⟩ := (hs.inPages_iff hp).mp (hs.inPages_of_block hb hx)
    exact hkeep q hq x hxq
  have hheader : ∀ b ∈ fl ++ w.live, ∀ x, b.addr ≤ x → x < b.addr + 16 → k'.mem x = w.machine.kernel.mem x := by
    intro b hb x hlo hhi
    have := b.stop_eq
    exact hblock b hb x ⟨hlo, by omega⟩
  exact ⟨hs.heap.setMem hheader, fun b hb => hblock b (List.mem_append_right _ hb)⟩

theorem allocate (hp : Placed V kernEnd) (hs : Sound kernEnd w h s l fl) (order : Int) :
    ∃ r k' h' s' l', w.machine.pgallocAllocate order = .ok (r, { w.machine with kernel := k' }) ∧
      PageAlloc.exec s (.allocate order) = .ok (r, s') ∧ handedOut (.allocate order, r) ⊆ freePages s ∧
      Sound kernEnd ⟨{ w.machine with kernel := k' }, w.live, w.heapPages,
        w.clientPages ∪ handedOut (.allocate order, r)⟩ h' s' l' fl ∧
      Keeps V kernEnd w.live w.clientPages w.machine.kernel.mem k'.mem := by
  obtain ⟨r, s', l', k', hok, hk', hground, hmoved, hkeep, hout⟩ :=
    hs.ground.request hp rfl (w.machine.kernel.legal_allocate order) (Finset.empty_subset _)
  have hstay : ∀ p ∈ livePages h, ∀ x, InPage p x → k'.mem x = w.machine.kernel.mem x := fun p hp' =>
    hkeep p hp' (Finset.notMem_empty p)
  obtain ⟨hheap, hblocks⟩ := hs.heap_setMem hp k' (w.clientPages ∪ handedOut (.allocate order, r))
    fun p hp' => hstay p (hs.live_heap hp')
  refine ⟨r, k', _, s', l', ?_, hok, hmoved.handed, ⟨hground, ?_, ?_, hheap, hs.ram⟩,
    hblocks, fun p hp' => hstay p (hs.live_client hp'), hout⟩
  · have hcall : w.machine.kernel.pgallocAllocate order = .ok (r, k') := hk'
    rw [Machine.pgallocAllocate, hcall]
    rfl
  · have hlive : livePages ((PageAlloc.Call.allocate order, r) :: h) =
        (livePages h \ ∅) ∪ handedOut (.allocate order, r) := rfl
    rw [hlive, Finset.sdiff_empty, hs.owned, Finset.union_right_comm]
    rfl
  · refine Finset.disjoint_union_left.mpr ⟨hs.apart, Finset.disjoint_left.mpr fun p hp' hidx => ?_⟩
    exact (hs.ram_of_live (hs.live_heap hidx)).2 (hmoved.handed hp')

theorem free (hp : Placed V kernEnd) (hs : Sound kernEnd w h s l fl) {addr order : Nat}
    (hc : Legal V kernEnd w (.free addr order)) :
    ∃ k' h' s' l', w.machine.pgallocFree addr order = .ok { w.machine with kernel := k' } ∧
      Sound kernEnd ⟨{ w.machine with kernel := k' }, w.live, w.heapPages,
        w.clientPages \ block (pgIndex (kv2p addr)) order⟩ h' s' l' fl ∧
      Keeps V kernEnd w.live (w.clientPages \ block (pgIndex (kv2p addr)) order) w.machine.kernel.mem k'.mem := by
  obtain ⟨ho, hdvd, hsub⟩ := hc
  have hcF : freed (.free addr order) ⊆ ramPages kernEnd := fun p hp' =>
    (hs.ram_of_live (hs.live_client (hsub hp'))).1
  have hlegal : w.machine.kernel.Legal V (ramPages kernEnd) (.free addr order) := by
    refine ⟨⟨⟨ho, hdvd⟩, fun p hp' => ⟨hs.ground.held.layout.below_maxAddr (hcF hp'), ?_⟩⟩, hcF⟩
    rw [hs.ground.held.state_pages]
    exact (hs.ram_of_live (hs.live_client (hsub hp'))).2
  obtain ⟨r, s', l', k', hok, hk', hground, hmoved, hkeep, hout⟩ := hs.ground.request hp rfl hlegal hcF
  have hheap_out : ∀ p ∈ w.heapIndices, p ∉ freed (.free addr order) := fun p hidx hp' =>
    Finset.disjoint_left.mp hs.apart (hsub hp') hidx
  obtain ⟨hheap, hblocks⟩ := hs.heap_setMem hp k' (w.clientPages \ block (pgIndex (kv2p addr)) order)
    fun p hp' => hkeep p (hs.live_heap hp') (hheap_out p hp')
  refine ⟨k', _, s', l', ?_, ⟨hground, ?_, hs.apart.mono_left Finset.sdiff_subset, hheap, hs.ram⟩,
    hblocks, fun p hp' => ?_, hout⟩
  · rw [Kernel.exec] at hk'
    obtain ⟨k₁, hrun, hpair⟩ := exists_ok_of_map hk'
    cases hpair
    rw [Machine.pgallocFree, hrun]
    rfl
  · have hlive : livePages ((PageAlloc.Call.free addr order, r) :: h) =
        (livePages h \ block (pgIndex (kv2p addr)) order) ∪ ∅ := rfl
    rw [hlive, Finset.union_empty, hs.owned, Finset.union_sdiff_distrib]
    congr 1
    exact Finset.sdiff_eq_self_of_disjoint (Finset.disjoint_left.mpr hheap_out)
  · obtain ⟨hp', hne⟩ := Finset.mem_sdiff.mp hp'
    exact hkeep p (hs.live_client hp') hne

theorem kfree (hp : Placed V kernEnd) (hs : Sound kernEnd w h s l fl) {ptr : Nat}
    (hc : ptr = 0 ∨ ∃ b ∈ w.live, b.ptr = ptr) :
    ∃ m s' fl', w.machine.kfree ptr = .ok m ∧
      Sound kernEnd { w with machine := m, live := w.live.eraseP fun b => b.ptr = ptr } h s' l fl' ∧
      (∀ b ∈ w.live, b.ptr ≠ ptr → b ∈ w.live.eraseP fun b => b.ptr = ptr) ∧
      Keeps V kernEnd (w.live.filter fun b => b.ptr ≠ ptr) w.clientPages w.machine.kernel.mem m.kernel.mem := by
  have hstay : ∀ b ∈ w.live, b.ptr ≠ ptr → b ∈ w.live.eraseP fun b => b.ptr = ptr := fun b hb hne =>
    (List.mem_eraseP_of_neg (by simpa using hne)).mpr hb
  rcases hc with h0 | ⟨b, hb, hptr⟩
  · subst h0
    have hnone : ∀ b ∈ w.live, ¬decide (b.ptr = 0) = true := fun b _ => by simp [b.ptr_ne_zero]
    refine ⟨w.machine, s, fl, rfl, ?_, hstay, Keeps.refl _ _ _ _ _⟩
    rw [List.eraseP_of_forall_not hnone]
    exact hs
  · obtain ⟨h', fl', hrun, hout, gone, hmoved⟩ := hs.heap.kfree_pages hb
    rw [hptr] at hrun hmoved
    obtain ⟨s', hs', _, hkeeps⟩ := hs.setHeap hp hmoved.inv hout hmoved.bytes
    have hrun' : Kmalloc.kfree w.machine.heap ptr = .ok h' := hrun
    exact ⟨w.machine.setHeap h', s', fl', by rw [Machine.kfree, hrun']; rfl, hs', hstay, hkeeps⟩

theorem store (hp : Placed V kernEnd) (hs : Sound kernEnd w h s l fl) {a : Nat} {v : BitVec 8}
    (hc : Legal V kernEnd w (.store a v)) :
    ∃ s', Sound kernEnd { w with machine := w.machine.store a v } h s' l fl := by
  have hheap : Kmalloc.Legal w.heap (.clientStore a v) := by
    rcases hc with hb | ⟨q, hq, hx⟩ | hx
    · exact Or.inl hb
    · exact Or.inr (hs.not_inPages_of_client hp hq hx)
    · exact Or.inr (hs.not_inPages_of_elsewhere hp hx)
  -- The byte is in a page that was handed out, or away from the zone.
  have hwhere : (∃ q ∈ livePages h, InPage q a) ∨ Elsewhere V kernEnd a := by
    rcases hc with ⟨b, hb, hlo, hhi⟩ | ⟨q, hq, hx⟩ | hx
    · have hhas : b.Has a := ⟨by rw [Blk.ptr] at hlo; omega, hhi⟩
      obtain ⟨q, hq, hx⟩ := (hs.inPages_iff hp).mp (hs.inPages_of_block (List.mem_append_right _ hb) hhas)
      exact Or.inl ⟨q, hs.live_heap hq, hx⟩
    · exact Or.inl ⟨q, hs.live_client hq, hx⟩
    · exact Or.inr hx
  obtain ⟨w', hexec, _, hmoved⟩ := clientStore_ok hs.heap hheap
  rw [Kmalloc.exec, Except.ok.injEq] at hexec
  have hinv := hmoved.inv
  rw [← hexec] at hinv
  obtain ⟨s', hground, _⟩ := hs.ground.setHeap { w.machine.heap with mem := Function.update w.machine.kernel.mem a v }
    (fun x hlo hhi => Function.update_of_ne (by
      rintro rfl
      rcases hwhere with ⟨q, hq, hx⟩ | ⟨_, hx | hx⟩
      · have := hx.above hp (hs.ram_of_live hq).1
        omega
      · omega
      · omega) _ _)
    (fun q hq x hx => Function.update_of_ne (by
      rintro rfl
      rcases hwhere with ⟨i, hi, hxi⟩ | hout
      · obtain ⟨hram, hfree⟩ := hs.ram_of_live hi
        rw [InPage.unique hp hram (hs.ground.held.pages hq) hxi hx] at hfree
        exact hfree hq
      · have := hx.above hp (hs.ground.held.pages hq)
        rcases hout.2 with hout | hout
        · omega
        · omega) _ _)
  exact ⟨s', hground, hs.owned, hs.apart, hinv, hs.ram⟩

/-- What the first page from `pgalloc_allocate(0)` is. -/
theorem allocate_one (hp : Placed V kernEnd) (hs : Sound kernEnd w h s l fl) {r : Nat} {s' : PageAlloc.State}
    (hok : PageAlloc.exec s (.allocate 0) = .ok (r, s')) :
    (r = 0 → freePages s = ∅) ∧
      (r ≠ 0 → ∃ p ∈ ramPages kernEnd, r = pageVa p ∧ handedOut (.allocate 0, r) = {p}) := by
  have hinv := hs.ground.held.inv
  have hcall : pgallocAllocate s ((0 : Nat) : Int) = .ok (r, s') := hok
  rcases pgallocAllocate_ok hinv 0 with ⟨hrun, hnone⟩ | ⟨i, t, hrun, hne, _, htaken⟩
  · rw [hrun, Except.ok.injEq, Prod.mk.injEq] at hcall
    refine ⟨fun _ => Finset.eq_empty_of_forall_notMem fun p hmem => ?_, fun hr => absurd hcall.1.symm hr⟩
    obtain ⟨o, i, hon, _⟩ := hinv.mem_freePages.mp hmem
    exact hnone o i (Nat.zero_le o) hon
  · rw [hrun, Except.ok.injEq, Prod.mk.injEq] at hcall
    have hi : i ∈ ramPages kernEnd := hs.ground.held.pages (htaken.free (self_mem_block i 0))
    refine ⟨fun hr => absurd (hcall.1.trans hr) hne, fun hr => ⟨i, hi, hcall.1.symm, ?_⟩⟩
    rw [handedOut, if_neg hr, ← hcall.1, pgIndex_ram hp hi]
    ext q
    simp only [Int.toNat_zero, mem_block, Nat.pow_zero, Finset.mem_singleton]
    omega

/-- `kmalloc` refuses the size, finds a block, or takes a page and looks again; it panics only when no
page is free. -/
theorem kmalloc (hp : Placed V kernEnd) (hs : Sound kernEnd w h s l fl) (size : Nat) :
    (w.machine.kmalloc size = .error (.heap .oom) ∧ freePages s = ∅) ∨
      ∃ r h' s' l' fl', w.machine.kmalloc size = .ok r ∧ Sound kernEnd (kmallocWorld w size r) h' s' l' fl' ∧
        Keeps V kernEnd w.live w.clientPages w.machine.kernel.mem r.2.1.kernel.mem := by
  rw [Machine.kmalloc]
  by_cases hsmall : size = 0
  · rw [if_pos hsmall]
    exact Or.inr ⟨_, h, s, l, fl, rfl, hs, Keeps.refl _ _ _ _ _⟩
  rw [if_neg hsmall]
  by_cases hbig : size > pgSize - totalMetadataSize
  · rw [if_pos hbig]
    exact Or.inr ⟨_, h, s, l, fl, rfl, hs, Keeps.refl _ _ _ _ _⟩
  rw [if_neg hbig]
  rcases hs.findFit hp size with hnone | ⟨ptr, m, s', fl', hne, hfit, hs', _, hkeeps⟩
  · obtain ⟨r, k', h₁, s₁, l₁, hcall, hok, hhanded, hs₁, hkeeps₁⟩ := hs.allocate hp 0
    obtain ⟨hoom, hpage⟩ := hs.allocate_one hp hok
    by_cases hr : r = 0
    · refine Or.inl ⟨?_, hoom hr⟩
      simp only [hnone, hcall, hr, bind, Except.bind, ne_eq, not_true_eq_false, if_false]
      rfl
    · obtain ⟨p, hram, hva, hone⟩ := hpage hr
      rw [hone] at hs₁ hhanded
      have hclient : p ∉ w.clientPages := fun hmem =>
        (hs.ram_of_live (hs.live_client hmem)).2 (hhanded (Finset.mem_singleton_self p))
      have hback : (w.clientPages ∪ {p}) \ {p} = w.clientPages := by
        rw [Finset.union_sdiff_right]
        exact Finset.sdiff_eq_self_of_disjoint (Finset.disjoint_singleton_right.mpr hclient)
      obtain ⟨m₂, s₂, fl₂, hadd, hs₂, _, hkeeps₂⟩ :=
        hs₁.grow hp (p := p) (Finset.mem_union_right _ (Finset.mem_singleton_self p))
      rw [hback] at hs₂ hkeeps₂
      have hkeeps₁₂ := hkeeps₁.trans hkeeps₂
      rw [← hva] at hadd hs₂
      rcases hs₂.findFit hp size with hagain | ⟨ptr, m, s', fl', hne, hfit, hs', _, hkeeps⟩
      · refine Or.inr ⟨(0, m₂, r), h₁, s₂, l₁, fl₂, ?_, ?_, hkeeps₁₂⟩
        · simp only [hnone, hcall, hadd, hagain, bind, Except.bind, ne_eq, not_true_eq_false, if_false, hr,
            not_false_eq_true, if_true]
          rfl
        · rw [kmallocWorld, if_pos rfl, if_neg hr]
          exact hs₂
      · refine Or.inr ⟨(ptr, m, r), h₁, s', l₁, fl', ?_, ?_, hkeeps₁₂.trans hkeeps⟩
        · simp only [hnone, hcall, hadd, hfit, bind, Except.bind, ne_eq, not_true_eq_false, if_false, hr,
            not_false_eq_true, if_true]
          rfl
        · rw [kmallocWorld, if_neg hne, if_neg hr]
          exact hs'
  · refine Or.inr ⟨(ptr, m, 0), h, s', l, fl', ?_, ?_, hkeeps⟩
    · simp only [hfit, bind, Except.bind, ne_eq, hne, not_false_eq_true, if_true]
      rfl
    · rw [kmallocWorld, if_neg hne, if_pos rfl]
      exact hs'

end Sound

/-! ## Runs -/

/-- The blocks and the pages of clients that a call leaves to them. -/
def sparedBlocks (w : World) : Call → List Blk
  | .kfree ptr => w.live.filter fun b => b.ptr ≠ ptr
  | _ => w.live

def sparedPages (w : World) : Call → Finset Nat
  | .free addr order => w.clientPages \ block (pgIndex (kv2p addr)) order
  | _ => w.clientPages

def Call.isStore : Call → Bool
  | .store _ _ => true
  | _ => false

/-- Every legal call returns, or is a `kmalloc` that finds no page. -/
theorem Sound.exec (hp : Placed V kernEnd) (hs : Sound kernEnd w h s l fl) {c : Call} (hc : Legal V kernEnd w c) :
    (exec w c = .error (.heap .oom) ∧ freePages s = ∅ ∧ ∃ size, c = .kmalloc size) ∨
      ∃ r w' h' s' l' fl', exec w c = .ok (r, w') ∧ Sound kernEnd w' h' s' l' fl' ∧
        (∀ order, c = .allocate order → handedOut (.allocate order, r) ⊆ freePages s) ∧
        (c.isStore = false → (∀ b ∈ sparedBlocks w c, b ∈ w'.live) ∧ sparedPages w c ⊆ w'.clientPages ∧
          Keeps V kernEnd (sparedBlocks w c) (sparedPages w c) w.machine.kernel.mem w'.machine.kernel.mem) := by
  cases c with
  | allocate order =>
      obtain ⟨r, k', h', s', l', hcall, _, hhanded, hs', hkeeps⟩ := hs.allocate hp order
      refine Or.inr ⟨r, _, h', s', l', fl, ?_, hs', fun order' heq => ?_,
        fun _ => ⟨fun b hb => hb, Finset.subset_union_left, hkeeps⟩⟩
      · rw [Kmain.exec, hcall]
        rfl
      · cases heq
        exact hhanded
  | free addr order =>
      obtain ⟨k', h', s', l', hcall, hs', hkeeps⟩ := hs.free hp hc
      refine Or.inr ⟨0, _, h', s', l', fl, ?_, hs', (fun _ heq => nomatch heq),
        fun _ => ⟨fun b hb => hb, Finset.Subset.refl _, hkeeps⟩⟩
      rw [Kmain.exec, hcall]
      rfl
  | kmalloc size =>
      rcases hs.kmalloc hp size with ⟨hcall, hempty⟩ | ⟨r, h', s', l', fl', hcall, hs', hkeeps⟩
      · refine Or.inl ⟨?_, hempty, size, rfl⟩
        rw [Kmain.exec, hcall]
        rfl
      · refine Or.inr ⟨r.1, _, h', s', l', fl', ?_, hs', (fun _ heq => nomatch heq),
          fun _ => ⟨fun b hb => ?_, Finset.Subset.refl _, hkeeps⟩⟩
        · rw [Kmain.exec, hcall]
          rfl
        · rw [kmallocWorld]
          dsimp only
          split
          · exact hb
          · exact List.mem_cons_of_mem _ hb
  | kfree ptr =>
      obtain ⟨m, s', fl', hcall, hs', hstay, hkeeps⟩ := hs.kfree hp hc
      refine Or.inr ⟨0, _, h, s', l, fl', ?_, hs', (fun _ heq => nomatch heq),
        fun _ => ⟨fun b hb => ?_, Finset.Subset.refl _, hkeeps⟩⟩
      · rw [Kmain.exec, hcall]
        rfl
      · rw [sparedBlocks, List.mem_filter, decide_eq_true_eq] at hb
        exact hstay b hb.1 hb.2
  | store a v =>
      obtain ⟨s', hs'⟩ := hs.store hp hc
      exact Or.inr ⟨0, _, h, s', l, fl, rfl, hs', (fun _ heq => nomatch heq),
        fun hstore => absurd hstore (by simp [Call.isStore])⟩

theorem sound_boot {m : Machine} (hb : Booted V kernEnd mem m) :
    ∃ h s l, Sound kernEnd ⟨m, [], [], ∅⟩ h s l [] := by
  obtain ⟨_, s, l, _, _, hheld⟩ := hb.run.held
  have hlive : livePages [(ramRange kernEnd, 0)] = ∅ := by
    rw [livePages, livePages, Finset.empty_sdiff, Finset.empty_union, ramRange]
    rfl
  have htotal := hheld.ledger.total
  rw [hlive, Finset.union_empty, ← hheld.state_pages, hb.free] at htotal
  have hinv : Kmalloc.Inv ⟨⟨m.kernel.mem, m.sizeList⟩, [], []⟩ [] := by
    rw [hb.heap]
    exact inv_start m.kernel.mem
  refine ⟨_, s, l, ⟨hheld, htotal.symm, hb.bitmaps, hb.tables⟩, ?_, Finset.disjoint_empty_left _, hinv, ?_⟩
  · rw [hlive]
    rfl
  · exact fun q hq => absurd hq List.not_mem_nil

theorem Run.sound (hp : Placed V kernEnd) (hzero : ZeroBitmaps kernEnd mem) (hrun : Run V kernEnd mem w) :
    ∃ h s l fl, Sound kernEnd w h s l fl := by
  induction hrun with
  | @start m hboot =>
      obtain ⟨m', hok, hbooted⟩ := kmain_booted hp hzero
      obtain rfl : m = m' := Except.ok.inj (hboot.symm.trans hok)
      obtain ⟨h, s, l, hs⟩ := sound_boot hbooted
      exact ⟨h, s, l, [], hs⟩
  | call _ hc hexec ih =>
      obtain ⟨h, s, l, fl, hs⟩ := ih
      rcases hs.exec hp hc with ⟨herr, _⟩ | ⟨r', w'', h', s', l', fl', hok, hs', _, _⟩
      · rw [hexec] at herr
        cases herr
      · rw [hexec, Except.ok.injEq, Prod.mk.injEq] at hok
        rw [hok.2]
        exact ⟨h', s', l', fl', hs'⟩

/-- In every run from boot the pages fed in are free, held by clients or in the heap; every block of a
client is its own; the page tables map physical memory; and no call panics, but for a `kmalloc` when
no page is free. -/
theorem machine_sound (hp : Placed V kernEnd) (hzero : ZeroBitmaps kernEnd mem) (hrun : Run V kernEnd mem w) :
    freePages w.machine.kernel.state ∪ (w.clientPages ∪ w.heapIndices) = ramPages kernEnd ∧
    Disjoint (freePages w.machine.kernel.state) (w.clientPages ∪ w.heapIndices) ∧
    Disjoint w.clientPages w.heapIndices ∧
    (∀ b ∈ w.live, Exclusive w.heap b ∧ ∀ x, b.Has x → ∃ p ∈ w.heapIndices, InPage p x) ∧
    HeapInv w.heap ∧
    (∀ va, Vmm.Canonical va → pageWalk (Vmm.readPhys w.machine.kernel.mem) w.machine.cr3 va =
      if kernBase ≤ va ∧ va < Vmm.kernPhymapTop then .page ⟨va - kernBase, 2 ^ 30, true, false⟩
      else .notPresent) ∧
    ∀ c, Legal V kernEnd w c → (∃ r w', exec w c = .ok (r, w')) ∨
      exec w c = .error (.heap .oom) ∧ freePages w.machine.kernel.state = ∅ ∧ ∃ size, c = .kmalloc size := by
  obtain ⟨h, s, l, fl, hs⟩ := hrun.sound hp hzero
  have hpages := hs.ground.held.state_pages
  rw [hpages, ← hs.owned, ← hs.ground.fed]
  refine ⟨hs.ground.held.ledger.total, hs.ground.held.ledger.apart, hs.apart, fun b hb => ⟨hs.heap.exclusive hb,
    fun x hx => ?_⟩, hs.heap.heapInv, fun va hva => tables_walk hs.ground.tables hp.physPage hp.physPage_next hva,
    fun c hc => ?_⟩
  · exact (hs.inPages_iff hp).mp (hs.inPages_of_block (List.mem_append_right fl hb) hx)
  · rcases hs.exec hp hc with herr | ⟨r, w', _, _, _, _, hok, _⟩
    · exact Or.inr herr
    · exact Or.inl ⟨r, w', hok⟩

/-- A call leaves the blocks and the pages of the other clients, and what lies away from the zone, and
it hands out pages that were free. -/
theorem machine_frame (hp : Placed V kernEnd) (hzero : ZeroBitmaps kernEnd mem) (hrun : Run V kernEnd mem w)
    {c : Call} {r : Nat} (hc : Legal V kernEnd w c) (hstore : c.isStore = false) (hexec : exec w c = .ok (r, w')) :
    (∀ b ∈ sparedBlocks w c, b ∈ w'.live) ∧ sparedPages w c ⊆ w'.clientPages ∧
    Keeps V kernEnd (sparedBlocks w c) (sparedPages w c) w.machine.kernel.mem w'.machine.kernel.mem ∧
    ∀ order, c = .allocate order → Disjoint (handedOut (.allocate order, r)) (w.clientPages ∪ w.heapIndices) := by
  obtain ⟨h, s, l, fl, hs⟩ := hrun.sound hp hzero
  rcases hs.exec hp hc with ⟨herr, _⟩ | ⟨r', w'', h', s', l', fl', hok, _, hhanded, hkeeps⟩
  · rw [hexec] at herr
    cases herr
  · rw [hexec, Except.ok.injEq, Prod.mk.injEq] at hok
    obtain ⟨rfl, rfl⟩ := hok
    obtain ⟨hlive, hpages, hmem⟩ := hkeeps hstore
    refine ⟨hlive, hpages, hmem, fun order heq => ?_⟩
    rw [← hs.owned]
    exact hs.ground.held.ledger.apart.mono_left (hhanded order heq)

end

/-! ## A run -/

/-- From zeroed memory, with an image of 2 MiB: one `kmalloc` takes the first page. -/
theorem exists_run_kmalloc : ∃ w r w', Run lastPage 0xFFFF800000200000 (fun _ => 0) w ∧ exec w (.kmalloc 100) = .ok (r, w') := by
  have hzero : ZeroBitmaps 0xFFFF800000200000 fun _ => 0 := fun _ _ _ => rfl
  obtain ⟨m, hboot, hbooted⟩ := kmain_booted placed_kmain hzero
  have hrun : Run lastPage 0xFFFF800000200000 (fun _ => 0) ⟨m, [], [], ∅⟩ := .start hboot
  obtain ⟨h, s, l, hs⟩ := sound_boot hbooted
  rcases hs.exec placed_kmain (c := .kmalloc 100) trivial with ⟨_, hempty, _⟩ | ⟨r, w', _, _, _, _, hok, _⟩
  · rw [← hs.ground.held.state_pages, hbooted.free] at hempty
    have hmem : 1000 ∈ ramPages 0xFFFF800000200000 := by
      rw [ramPages, Finset.mem_Ico]
      decide
    rw [hempty] at hmem
    exact absurd hmem (Finset.notMem_empty 1000)
  · exact ⟨_, r, w', hrun, hok⟩

theorem machine_sound_kmalloc : ∃ w, Run lastPage 0xFFFF800000200000 (fun _ => 0) w ∧
    freePages w.machine.kernel.state ∪ (w.clientPages ∪ w.heapIndices) = ramPages 0xFFFF800000200000 ∧
    HeapInv w.heap := by
  obtain ⟨w, r, w', hrun, hexec⟩ := exists_run_kmalloc
  have hrun' := hrun.call (c := .kmalloc 100) trivial hexec
  obtain ⟨hpages, _, _, _, hheap, _⟩ := machine_sound placed_kmain (fun _ _ _ => rfl) hrun'
  exact ⟨w', hrun', hpages, hheap⟩

theorem machine_frame_kmalloc : ∃ w r w', Run lastPage 0xFFFF800000200000 (fun _ => 0) w ∧
    exec w (.kmalloc 100) = .ok (r, w') ∧
    Keeps lastPage 0xFFFF800000200000 w.live w.clientPages w.machine.kernel.mem w'.machine.kernel.mem := by
  obtain ⟨w, r, w', hrun, hexec⟩ := exists_run_kmalloc
  obtain ⟨_, _, hkeeps, _⟩ := machine_frame placed_kmain (fun _ _ _ => rfl) hrun (c := .kmalloc 100) trivial rfl hexec
  exact ⟨w, r, w', hrun, hexec, hkeeps⟩

end Kmain

end GuideOS
