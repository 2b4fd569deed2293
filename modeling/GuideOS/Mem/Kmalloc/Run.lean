import GuideOS.Lib.Result
import GuideOS.Mem.Kmalloc.Refine

/-!
# Runs of the kernel heap

A run starts with `kmalloc_init` and makes calls.  Beside the heap it keeps what
the callers know: the blocks handed out and not freed, and the pages taken from
the page allocator.  A call is legal when it frees a live pointer, or none, and
when the page it is given, if any, is a fresh one; between the calls a client may
write into the usable part of its own block, and the rest of the kernel anywhere
outside the pages of the heap.
-/

namespace GuideOS
namespace Kmalloc

open Lib Blk

attribute [local irreducible] load64 store64

inductive Call
  /-- `newRam` is what `pgalloc_allocate(0)` returns if the call needs a page. -/
  | kmalloc (size newRam : Nat)
  | kfree (ptr : Nat)
  /-- A store by a client, which is not a call of the heap. -/
  | clientStore (a : Nat) (v : BitVec 8)
deriving DecidableEq

structure World where
  heap : Heap
  /-- The blocks handed out, with the sizes that were requested. -/
  live : List Blk
  pages : List Nat

/-- The pointer to the usable part of a block. -/
def Blk.ptr (b : Blk) : Nat := b.addr + totalMetadataSize

def exec (w : World) : Call → Except Panic World
  | .kmalloc size newRam =>
      (kmalloc w.heap size newRam).map fun r =>
        { heap := r.heap
          live := if r.ptr = 0 then w.live else ⟨r.ptr - totalMetadataSize, size⟩ :: w.live
          pages := if r.grew then newRam :: w.pages else w.pages }
  | .kfree ptr =>
      (kfree w.heap ptr).map fun h =>
        { w with heap := h, live := w.live.eraseP fun b => b.ptr = ptr }
  | .clientStore a v =>
      .ok { w with heap := { w.heap with mem := Function.update w.heap.mem a v } }

/-- A page the heap can be given. -/
structure FreshPage (pages : List Nat) (p : Nat) : Prop where
  ne_zero : p ≠ 0
  aligned : pgSize ∣ p
  le : p + pgSize ≤ 2 ^ 64
  fresh : p ∉ pages

def InPages (pages : List Nat) (x : Nat) : Prop := ∃ p ∈ pages, p ≤ x ∧ x < p + pgSize

def Legal (w : World) : Call → Prop
  | .kmalloc _ newRam => newRam = 0 ∨ FreshPage w.pages newRam
  | .kfree ptr => ptr = 0 ∨ ∃ b ∈ w.live, b.ptr = ptr
  | .clientStore a _ => (∃ b ∈ w.live, b.ptr ≤ a ∧ a < b.stop) ∨ ¬ InPages w.pages a

/-- The live blocks that a call leaves alone. -/
def spared (w : World) : Call → List Blk
  | .kmalloc _ _ => w.live
  | .kfree ptr => w.live.filter fun b => b.ptr ≠ ptr
  | .clientStore a _ => w.live.filter fun b => ¬ (b.addr ≤ a ∧ a < b.stop)

/-- The call frees a block that is below `MIN_BLOCK_SIZE` with its header. -/
def Drops (w : World) : Call → Prop
  | .kmalloc _ _ => False
  | .kfree ptr => ∃ b ∈ w.live, b.ptr = ptr ∧ b.size < 8
  | .clientStore _ _ => False

/-- The calls of a run, latest first, each with the state before it. -/
abbrev History := List (World × Call)

inductive Run : History → World → Prop
  | start (mem : Bytes) : Run [] { heap := kmallocInit mem, live := [], pages := [] }
  | call {h : History} {w w' : World} {c : Call} (hrun : Run h w) (hc : Legal w c)
      (hexec : exec w c = .ok w') : Run ((w, c) :: h) w'

/-! ## The invariant -/

/-- The invariant of a run.  `l` is the list of free blocks. -/
structure Inv (w : World) (l : List Blk) : Prop where
  rep : Rep w.heap l
  free : FreeListInv l
  apart : (l ++ w.live).Pairwise Apart
  inside : ∀ x, Covers (l ++ w.live) x → InPages w.pages x
  header : ∀ b ∈ w.live, w.heap.size b.addr = b.size
  pages : w.pages.Pairwise fun p q => p ≠ q
  page : ∀ p ∈ w.pages, p ≠ 0 ∧ pgSize ∣ p ∧ p + pgSize ≤ 2 ^ 64

theorem Blk.has_addr (b : Blk) : b.Has b.addr := ⟨Nat.le_refl _, by have := b.stop_eq; omega⟩

/-- A block whose bytes lie in pages is valid: its first byte is in a page that
is not at null, and its last in one that ends below `2 ^ 64`. -/
theorem valid_of_inside {pages : List Nat} {b : Blk}
    (hpage : ∀ p ∈ pages, p ≠ 0 ∧ pgSize ∣ p ∧ p + pgSize ≤ 2 ^ 64)
    (hin : ∀ x, b.Has x → InPages pages x) : b.Valid := by
  have hstop := b.stop_eq
  obtain ⟨p, hp, hle, _⟩ := hin b.addr b.has_addr
  obtain ⟨q, hq, _, hlt⟩ := hin (b.stop - 1) ⟨by omega, by omega⟩
  have := (hpage p hp).1
  have := (hpage q hq).2.2
  exact ⟨by omega, by omega⟩

theorem Inv.valid {w : World} {l : List Blk} (h : Inv w l) {b : Blk} (hb : b ∈ l ++ w.live) :
    b.Valid :=
  valid_of_inside h.page fun x hx => h.inside x ⟨b, hb, hx⟩

theorem Inv.apart_live {w : World} {l : List Blk} (h : Inv w l) {b c : Blk} (hb : b ∈ l)
    (hc : c ∈ w.live) : b.Apart c :=
  (List.pairwise_append.mp h.apart).2.2 b hb c hc

/-- Writes to headers away from a block keep its bytes. -/
theorem SameOutside.bytes {r : List Blk} {h h' : Heap} (hs : SameOutside r h h') {c : Blk}
    (hc : ∀ d ∈ r, d.Apart c) {x : Nat} (hx : c.Has x) : h'.mem x = h.mem x := by
  refine hs x fun ⟨d, hd, hdx⟩ => ?_
  refine (hc d hd).not_has ⟨hdx.1, ?_⟩ hx
  have := d.stop_eq
  simp only [totalMetadataSize] at hdx
  omega

/-- What a call of the heap does: the blocks in `kept` stay live with their
bytes, and all but `gone` bytes are accounted for. -/
structure Moved (w : World) (l kept : List Blk) (gone : Nat) (w' : World) (l' : List Blk) :
    Prop where
  inv : Inv w' l'
  live : ∀ b ∈ kept, b ∈ w'.live
  bytes : ∀ b ∈ kept, ∀ x, b.Has x → w'.heap.mem x = w.heap.mem x
  total : total l' + total w'.live + gone + pgSize * w.pages.length =
    total l + total w.live + pgSize * w'.pages.length

/-- The block made of a whole page. -/
def pageBlk (p : Nat) : Blk := ⟨p, pgSize - totalMetadataSize⟩

theorem pageBlk_size {p : Nat} : 8 ≤ (pageBlk p).size := by
  simp only [pageBlk, pgSize, totalMetadataSize]
  omega

theorem pageBlk_has {p x : Nat} : (pageBlk p).Has x ↔ p ≤ x ∧ x < p + pgSize := by
  simp only [Has, Blk.stop, pageBlk, pgSize, totalMetadataSize]

theorem FreshPage.valid {pages : List Nat} {p : Nat} (hp : FreshPage pages p) :
    (pageBlk p).Valid where
  ne_zero := hp.ne_zero
  le := by
    have := hp.le
    simp only [Blk.stop, pageBlk, pgSize, totalMetadataSize] at *
    omega

theorem pageBlk_apart {pages : List Nat} {p : Nat} {c : Blk} (hp : FreshPage pages p)
    (hpage : ∀ q ∈ pages, q ≠ 0 ∧ pgSize ∣ q ∧ q + pgSize ≤ 2 ^ 64)
    (hc : ∀ x, c.Has x → InPages pages x) : (pageBlk p).Apart c := by
  refine apart_of_no_common fun x hx hcx => ?_
  obtain ⟨q, hq, hle, hlt⟩ := hc x hcx
  obtain ⟨a, ha⟩ := (hpage q hq).2.1
  obtain ⟨b, hb⟩ := hp.aligned
  have hne : p ≠ q := fun e => hp.fresh (e ▸ hq)
  rw [pageBlk_has] at hx
  rw [pgSize_eq] at *
  omega

theorem inPages_cons {p x : Nat} {pages : List Nat} :
    InPages (p :: pages) x ↔ (pageBlk p).Has x ∨ InPages pages x := by
  rw [pageBlk_has]
  simp [InPages]

/-- A block goes on the list: a new page, or a block that was freed. -/
theorem Inv.add {w : World} {l : List Blk} {b : Blk} {pages : List Nat} {h' : Heap} (h : Inv w l)
    (hb : 8 ≤ b.size) (hap : ∀ c ∈ l ++ w.live, b.Apart c)
    (hin : ∀ x, InPages pages x ↔ b.Has x ∨ InPages w.pages x)
    (hpages : pages.Pairwise fun p q => p ≠ q)
    (hpage : ∀ p ∈ pages, p ≠ 0 ∧ pgSize ∣ p ∧ p + pgSize ≤ 2 ^ 64)
    (hrep : Rep h' (addBlk l b)) (hs : SameOutside (b :: l) w.heap h') :
    Inv { w with heap := h', pages := pages } (addBlk l b) ∧
      ∀ c ∈ w.live, ∀ x, c.Has x → h'.mem x = w.heap.mem x := by
  have hbl : (b :: l).Pairwise Apart :=
    List.pairwise_cons.mpr ⟨fun c hc => hap c (List.mem_append_left _ hc), h.free.apart⟩
  have hlive : ∀ c ∈ w.live, ∀ d ∈ b :: l, d.Apart c := by
    intro c hc d hd
    rcases List.mem_cons.mp hd with rfl | hd
    · exact hap c (List.mem_append_right _ hc)
    · exact h.apart_live hd hc
  have hinv := h.free.addBlk hb hbl
  refine ⟨⟨hrep, hinv, ?_, ?_, ?_, hpages, hpage⟩, fun c hc x hx => hs.bytes (hlive c hc) hx⟩
  · refine List.pairwise_append.mpr
      ⟨hinv.apart, (List.pairwise_append.mp h.apart).2.1, fun d hd c hc => ?_⟩
    refine (apart_of_covers (fun e he => (hlive c hc e he).symm) fun x hx => ?_).symm
    exact covers_cons.mpr ((addBlk_covers hbl x).mp ⟨d, hd, hx⟩)
  · intro x hx
    rw [covers_append, addBlk_covers hbl, or_assoc, ← covers_append] at hx
    exact (hin x).mpr (hx.imp_right (h.inside x))
  · intro c hc
    show h'.size c.addr = c.size
    rw [hs.size (hlive c hc), h.header c hc]

/-- The heap takes a page. -/
theorem Inv.grow {w : World} {l : List Blk} {p : Nat} {h' : Heap} (h : Inv w l)
    (hp : FreshPage w.pages p) (hrep : Rep h' (addBlk l (pageBlk p)))
    (hs : SameOutside (pageBlk p :: l) w.heap h') :
    Moved w l w.live 0 { w with heap := h', pages := p :: w.pages } (addBlk l (pageBlk p)) := by
  have hap : ∀ c ∈ l ++ w.live, (pageBlk p).Apart c := fun c hc =>
    pageBlk_apart hp h.page fun x hx => h.inside x ⟨c, hc, hx⟩
  have hpages : ∀ q ∈ p :: w.pages, q ≠ 0 ∧ pgSize ∣ q ∧ q + pgSize ≤ 2 ^ 64 := by
    intro q hq
    rcases List.mem_cons.mp hq with rfl | hq
    · exact ⟨hp.ne_zero, hp.aligned, hp.le⟩
    · exact h.page q hq
  obtain ⟨hinv, hbytes⟩ := h.add pageBlk_size hap (fun x => inPages_cons)
    (List.pairwise_cons.mpr ⟨fun q hq e => hp.fresh (e ▸ hq), h.pages⟩) hpages hrep hs
  refine ⟨hinv, fun b hb => hb, hbytes, ?_⟩
  rw [addBlk_total (List.pairwise_cons.mpr
    ⟨fun c hc => hap c (List.mem_append_left _ hc), h.free.apart⟩)]
  simp only [List.length_cons, pageBlk, pgSize, totalMetadataSize]
  omega

/-- The heap hands out a block. -/
theorem Inv.take {w : World} {l : List Blk} {n : Nat} {r : Blk × List Blk} {h' : Heap}
    (h : Inv w l) (halloc : allocBlk l n = some r) (ht : Taken w.heap l r h') :
    Moved w l w.live 0 { w with heap := h', live := r.1 :: w.live } r.2 := by
  have hc := allocBlk_carved h.free halloc
  have hlive : ∀ c ∈ w.live, ∀ d ∈ r.1 :: r.2, d.Apart c := fun c hcl d hd =>
    (apart_of_covers (fun e he => (h.apart_live he hcl).symm) fun x hx =>
      (hc.covers x).mp ⟨d, hd, hx⟩).symm
  have hwrite : ∀ c ∈ w.live, ∀ d ∈ r.1 :: l, d.Apart c := by
    intro c hcl d hd
    rcases List.mem_cons.mp hd with rfl | hd
    · exact hlive c hcl r.1 List.mem_cons_self
    · exact h.apart_live hd hcl
  have hperm : (r.2 ++ r.1 :: w.live).Perm ((r.1 :: r.2) ++ w.live) := List.perm_middle
  refine ⟨⟨ht.rep, hc.inv, ?_, ?_, ?_, h.pages, h.page⟩, fun b hb => List.mem_cons_of_mem _ hb,
    fun b hb x hx => ht.same.bytes (hwrite b hb) hx, ?_⟩
  · refine (pairwise_apart_perm hperm).mpr (List.pairwise_append.mpr
      ⟨hc.apart, (List.pairwise_append.mp h.apart).2.1, fun b hb c hcl => hlive c hcl b hb⟩)
  · intro x hx
    rw [covers_perm hperm, covers_append, hc.covers, ← covers_append] at hx
    exact h.inside x hx
  · intro b hb
    show h'.size b.addr = b.size
    rcases List.mem_cons.mp hb with rfl | hb
    · exact ht.size
    · rw [ht.same.size (hwrite b hb), h.header b hb]
  · have htotal := hc.total
    rw [total_cons] at htotal
    simp only [total_cons]
    omega

/-- A freed block that is too small for the list stays where it is. -/
theorem Inv.drop {w : World} {l u v : List Blk} {b : Blk} (h : Inv w l)
    (hlive : w.live = u ++ b :: v) :
    Moved w l (u ++ v) (16 + b.size) { w with live := u ++ v } l := by
  have hsub : (u ++ v).Sublist w.live := by
    rw [hlive]
    exact List.Sublist.append_left (List.sublist_cons_self b v) u
  refine ⟨⟨h.rep, h.free, h.apart.sublist (hsub.append_left l), ?_, ?_, h.pages, h.page⟩,
    fun c hc => hc, fun c _ x _ => rfl, ?_⟩
  · rintro x ⟨c, hc, hx⟩
    exact h.inside x ⟨c, (hsub.append_left l).subset hc, hx⟩
  · exact fun c hc => h.header c (hsub.subset hc)
  · simp only [hlive, total_append, total_cons]
    omega

/-- A freed block goes back to the list. -/
theorem Inv.release {w : World} {l u v : List Blk} {b : Blk} {h' : Heap} (h : Inv w l)
    (hlive : w.live = u ++ b :: v) (hb : 8 ≤ b.size) (hrep : Rep h' (addBlk l b))
    (hs : SameOutside (b :: l) w.heap h') :
    Moved w l (u ++ v) 0 { w with heap := h', live := u ++ v } (addBlk l b) := by
  have hbmem : b ∈ l ++ w.live := by simp [hlive]
  have hperm : (l ++ w.live).Perm (b :: (l ++ (u ++ v))) := by
    rw [hlive, ← List.append_assoc, ← List.append_assoc]
    exact List.perm_middle
  have hap := List.pairwise_cons.mp ((pairwise_apart_perm hperm).mp h.apart)
  obtain ⟨hinv, hbytes⟩ := (h.drop hlive).inv.add hb hap.1
    (fun x => ⟨Or.inr, fun hx => hx.elim (fun hx => h.inside x ⟨b, hbmem, hx⟩) id⟩)
    h.pages h.page hrep hs
  refine ⟨hinv, fun c hc => hc, hbytes, ?_⟩
  rw [addBlk_total (List.pairwise_cons.mpr
    ⟨fun c hc => hap.1 c (List.mem_append_left _ hc), h.free.apart⟩), hlive]
  simp only [total_append, total_cons]
  omega

/-! ## One call -/

theorem Blk.ptr_ne_zero (b : Blk) : b.ptr ≠ 0 := by
  simp only [Blk.ptr, totalMetadataSize]
  omega

theorem Blk.ptr_sub (b : Blk) : b.ptr - totalMetadataSize = b.addr := Nat.add_sub_cancel _ _

theorem Moved.refl {w : World} {l : List Blk} (h : Inv w l) : Moved w l w.live 0 w l :=
  ⟨h, fun _ hb => hb, fun _ _ _ _ => rfl, rfl⟩

theorem Moved.trans {w w' w'' : World} {l l' l'' : List Blk} (h : Moved w l w.live 0 w' l')
    (h' : Moved w' l' w'.live 0 w'' l'') : Moved w l w.live 0 w'' l'' where
  inv := h'.inv
  live b hb := h'.live b (h.live b hb)
  bytes b hb x hx := (h'.bytes b (h.live b hb) x hx).trans (h.bytes b hb x hx)
  total := by
    have := h.total
    have := h'.total
    omega

/-- The search of `kmalloc`, in the world. -/
theorem Inv.findFit {w : World} {l : List Blk} (h : Inv w l) (n : Nat) :
    (allocBlk l n = none ∧ findFitBlock w.heap n = some (w.heap, 0)) ∨
      ∃ r h', allocBlk l n = some r ∧ findFitBlock w.heap n = some (h', r.1.ptr) ∧
        r.1 = ⟨r.1.ptr - totalMetadataSize, n⟩ ∧
        Moved w l w.live 0 { w with heap := h', live := r.1 :: w.live } r.2 := by
  rcases findFitBlock_ok h.rep h.free fun c hc => h.valid (List.mem_append_left _ hc) with
    hnone | ⟨r, h', halloc, hrun, htaken⟩
  · exact Or.inl hnone
  · refine Or.inr ⟨r, h', halloc, hrun, ?_, h.take halloc htaken⟩
    ext
    · exact (Blk.ptr_sub _).symm
    · exact (allocBlk_carved h.free halloc).size

theorem kmalloc_fit {h h' : Heap} {size newRam p : Nat} (hsize : size ≠ 0)
    (hbig : ¬ size > pgSize - totalMetadataSize) (hrun : findFitBlock h size = some (h', p))
    (hp : p ≠ 0) : kmalloc h size newRam = .ok ⟨h', p, false⟩ := by
  rw [kmalloc, if_neg hsize, if_neg hbig, hrun]
  simp only [orLoop, bind, Except.bind]
  rw [if_pos hp]
  rfl

theorem kmalloc_oom {h : Heap} {size : Nat} (hsize : size ≠ 0)
    (hbig : ¬ size > pgSize - totalMetadataSize) (hrun : findFitBlock h size = some (h, 0)) :
    kmalloc h size 0 = .error .oom := by
  rw [kmalloc, if_neg hsize, if_neg hbig, hrun]
  rfl

theorem kmalloc_grow {h h₁ h₂ : Heap} {size newRam p q : Nat} (hsize : size ≠ 0)
    (hbig : ¬ size > pgSize - totalMetadataSize) (hrun : findFitBlock h size = some (h, 0))
    (hram : newRam ≠ 0) (hadd : addBlock h newRam pgSize = some (h₁, q))
    (hrun₂ : findFitBlock h₁ size = some (h₂, p)) :
    kmalloc h size newRam = .ok ⟨h₂, p, true⟩ := by
  rw [kmalloc, if_neg hsize, if_neg hbig, hrun]
  simp only [orLoop, bind, Except.bind, ne_eq, not_true_eq_false, if_false]
  rw [if_pos hram, hadd]
  simp only [hrun₂]
  rfl

/-- What a call of `kmalloc` can do: refuse the size, serve it from the list, find no
page, or take the page and search again, which may still find no block. -/
inductive Kmalloced (w : World) (l : List Blk) (size newRam : Nat) : Except Panic Result → Prop
  | refused (hsize : size = 0 ∨ pgSize - totalMetadataSize < size) :
      Kmalloced w l size newRam (.ok ⟨w.heap, 0, false⟩)
  | fit {r : Blk × List Blk} {h' : Heap} (hpos : 0 < size) (hle : size ≤ pgSize - totalMetadataSize)
      (halloc : allocBlk l size = some r) (hblk : r.1 = ⟨r.1.ptr - totalMetadataSize, size⟩)
      (hmoved : Moved w l w.live 0 { w with heap := h', live := r.1 :: w.live } r.2) :
      Kmalloced w l size newRam (.ok ⟨h', r.1.ptr, false⟩)
  | oom (hpos : 0 < size) (hle : size ≤ pgSize - totalMetadataSize)
      (hnone : allocBlk l size = none) (hram : newRam = 0) : Kmalloced w l size newRam (.error .oom)
  | grown {r : Blk × List Blk} {h' : Heap} (hpos : 0 < size)
      (hle : size ≤ pgSize - totalMetadataSize) (hnone : allocBlk l size = none)
      (hp : FreshPage w.pages newRam) (halloc : allocBlk (addBlk l (pageBlk newRam)) size = some r)
      (hblk : r.1 = ⟨r.1.ptr - totalMetadataSize, size⟩)
      (hmoved : Moved w l w.live 0
        { heap := h', live := r.1 :: w.live, pages := newRam :: w.pages } r.2) :
      Kmalloced w l size newRam (.ok ⟨h', r.1.ptr, true⟩)
  | wasted {h' : Heap} (hpos : 0 < size) (hle : size ≤ pgSize - totalMetadataSize)
      (hnone : allocBlk l size = none) (hp : FreshPage w.pages newRam)
      (hagain : allocBlk (addBlk l (pageBlk newRam)) size = none)
      (hmoved : Moved w l w.live 0 { w with heap := h', pages := newRam :: w.pages }
        (addBlk l (pageBlk newRam))) :
      Kmalloced w l size newRam (.ok ⟨h', 0, true⟩)

theorem pageBlk_cons_apart {w : World} {l : List Blk} (h : Inv w l) {p : Nat}
    (hp : FreshPage w.pages p) : (pageBlk p :: l).Pairwise Apart :=
  List.pairwise_cons.mpr ⟨fun c hcl => pageBlk_apart hp h.page fun x hx =>
    h.inside x ⟨c, List.mem_append_left _ hcl, hx⟩, h.free.apart⟩

theorem kmalloc_cases {w : World} {l : List Blk} (h : Inv w l) {size newRam : Nat}
    (hc : Legal w (.kmalloc size newRam)) :
    Kmalloced w l size newRam (kmalloc w.heap size newRam) := by
  by_cases hsize : size = 0
  · rw [kmalloc, if_pos hsize]
    exact .refused (Or.inl hsize)
  by_cases hbig : size > pgSize - totalMetadataSize
  · rw [kmalloc, if_neg hsize, if_pos hbig]
    exact .refused (Or.inr hbig)
  have hpos : 0 < size := Nat.pos_of_ne_zero hsize
  have hle : size ≤ pgSize - totalMetadataSize := Nat.le_of_not_lt hbig
  rcases h.findFit size with ⟨hnone, hrun⟩ | ⟨r, h', halloc, hrun, hblk, hmoved⟩
  · rcases hc with rfl | hp
    · rw [kmalloc_oom hsize hbig hrun]
      exact .oom hpos hle hnone rfl
    · -- No block fits: the page becomes a block and the search runs again.
      have hvalid : ∀ c ∈ pageBlk newRam :: l, c.Valid := by
        intro c hcl
        rcases List.mem_cons.mp hcl with rfl | hcl
        · exact hp.valid
        · exact h.valid (List.mem_append_left _ hcl)
      obtain ⟨h₁, q, hadd, hrep, hs⟩ :=
        addBlock_ok h.rep (pageBlk_cons_apart h hp) hvalid pageBlk_size
      have hgrow := h.grow hp hrep hs
      have hadd' : addBlock w.heap newRam pgSize = some (h₁, q) := hadd
      rcases hgrow.inv.findFit size with ⟨hagain, hrun₂⟩ | ⟨r, h₂, halloc, hrun₂, hblk, hmoved⟩
      · rw [kmalloc_grow hsize hbig hrun hp.ne_zero hadd' hrun₂]
        exact .wasted hpos hle hnone hp hagain hgrow
      · rw [kmalloc_grow hsize hbig hrun hp.ne_zero hadd' hrun₂]
        exact .grown hpos hle hnone hp halloc hblk (hgrow.trans hmoved)
  · rw [kmalloc_fit hsize hbig hrun r.1.ptr_ne_zero]
    exact .fit hpos hle halloc hblk hmoved

/-- `kmalloc` returns, or there was no page. -/
theorem kmalloc_ok {w : World} {l : List Blk} (h : Inv w l) {size newRam : Nat}
    (hc : Legal w (.kmalloc size newRam)) :
    (newRam = 0 ∧ exec w (.kmalloc size newRam) = .error .oom) ∨
      ∃ w' l', exec w (.kmalloc size newRam) = .ok w' ∧ Moved w l w.live 0 w' l' := by
  have hcases := kmalloc_cases h hc
  rw [exec]
  generalize kmalloc w.heap size newRam = res at hcases
  cases hcases with
  | refused _ => exact Or.inr ⟨w, l, rfl, Moved.refl h⟩
  | @fit r h' _ _ _ hblk hmoved =>
      refine Or.inr ⟨_, r.2, rfl, ?_⟩
      simp only [if_neg r.1.ptr_ne_zero, ← hblk]
      exact hmoved
  | oom _ _ _ hram => exact Or.inl ⟨hram, rfl⟩
  | @grown r h' _ _ _ _ _ hblk hmoved =>
      refine Or.inr ⟨_, r.2, rfl, ?_⟩
      simp only [if_neg r.1.ptr_ne_zero, ← hblk]
      exact hmoved
  | wasted _ _ _ _ _ hmoved => exact Or.inr ⟨_, _, rfl, hmoved⟩

theorem Moved.mono {w w' : World} {l l' kept kept' : List Blk} {gone : Nat}
    (h : Moved w l kept gone w' l') (hsub : ∀ b ∈ kept', b ∈ kept) :
    Moved w l kept' gone w' l' :=
  ⟨h.inv, fun b hb => h.live b (hsub b hb), fun b hb => h.bytes b (hsub b hb), h.total⟩

theorem addBlock_small {h : Heap} {block rawSize : Nat} (hsmall : rawSize < minBlockSize) :
    addBlock h block rawSize = some (h, 0) := by
  rw [addBlock, if_pos hsmall]

/-- Live blocks are told apart by their pointers. -/
theorem Inv.ptr_inj {w : World} {l : List Blk} (h : Inv w l) {b c : Blk} (hb : b ∈ w.live)
    (hc : c ∈ w.live) (hptr : b.ptr = c.ptr) : b = c := by
  by_contra hne
  have hhead := ((List.pairwise_append.mp h.apart).2.1.forall hb hc hne).headers
  have hsame : b.addr = c.addr := Nat.add_right_cancel hptr
  omega

/-- The free list after a block is given back. -/
def putBack (l : List Blk) (b : Blk) : List Blk := if b.size < 8 then l else addBlk l b

/-- `kfree` of a live pointer returns.  A small block is lost. -/
theorem Inv.kfree_live {w : World} {l : List Blk} (h : Inv w l) {b : Blk} (hb : b ∈ w.live) :
    ∃ u v h', w.live = u ++ b :: v ∧ (w.live.eraseP fun c => c.ptr = b.ptr) = u ++ v ∧
      kfree w.heap b.ptr = .ok h' ∧
      Moved w l (u ++ v) (if b.size < 8 then 16 + b.size else 0)
        { w with heap := h', live := u ++ v } (putBack l b) := by
  obtain ⟨c, u, v, _, hc, hlive, herase⟩ :=
    List.exists_of_eraseP (p := fun c => c.ptr = b.ptr) hb (by simp)
  obtain rfl : b = c := h.ptr_inj hb (by simp [hlive]) (by simpa using Eq.symm (of_decide_eq_true hc))
  have hrun : kfree w.heap b.ptr =
      orLoop ((addBlock w.heap b.addr (b.size + totalMetadataSize)).map Prod.fst) := by
    rw [kfree, if_neg b.ptr_ne_zero, b.ptr_sub]
    dsimp only
    rw [h.header b hb]
  rw [hrun, putBack]
  by_cases hsmall : b.size < 8
  · refine ⟨u, v, w.heap, hlive, herase, ?_, ?_⟩
    · rw [addBlock_small (by simp only [minBlockSize, totalMetadataSize]; omega)]
      rfl
    · rw [if_pos hsmall, if_pos hsmall]
      exact h.drop hlive
  · have hbl : (b :: l).Pairwise Apart :=
      List.pairwise_cons.mpr ⟨fun c hc => (h.apart_live hc hb).symm, h.free.apart⟩
    obtain ⟨h', q, hadd, hrep, hs⟩ := addBlock_ok h.rep hbl (fun c hc => by
      rcases List.mem_cons.mp hc with rfl | hc
      · exact h.valid (List.mem_append_right _ hb)
      · exact h.valid (List.mem_append_left _ hc)) (by omega)
    refine ⟨u, v, h', hlive, herase, ?_, ?_⟩
    · rw [hadd]
      rfl
    · rw [if_neg hsmall, if_neg hsmall]
      exact h.release hlive (by omega) hrep hs

/-- `kfree` of a live pointer returns, and loses the block only when it is small. -/
theorem kfree_ok {w : World} {l : List Blk} (h : Inv w l) {ptr : Nat}
    (hc : Legal w (.kfree ptr)) :
    ∃ w' l' gone, exec w (.kfree ptr) = .ok w' ∧ Moved w l (spared w (.kfree ptr)) gone w' l' ∧
      (gone = 0 ↔ ¬ Drops w (.kfree ptr)) := by
  have hspared : ∀ {b : Blk}, b ∈ spared w (.kfree ptr) → b ∈ w.live ∧ b.ptr ≠ ptr := by
    intro b hb
    simpa [spared] using hb
  rcases hc with rfl | ⟨b, hb, rfl⟩
  · have hnone : ∀ b ∈ w.live, ¬ decide (b.ptr = 0) = true := fun b _ => by simp [b.ptr_ne_zero]
    refine ⟨w, l, 0, ?_, (Moved.refl h).mono fun b hb => (hspared hb).1, ?_⟩
    · rw [exec, kfree, if_pos rfl, Except.map, List.eraseP_of_forall_not hnone]
    · refine iff_of_true rfl ?_
      rintro ⟨b, _, hb, _⟩
      exact b.ptr_ne_zero hb
  · obtain ⟨u, v, h', hlive, herase, hrun, hmoved⟩ := h.kfree_live hb
    have hperm : w.live.Perm (b :: (u ++ v)) := hlive ▸ List.perm_middle
    refine ⟨{ w with heap := h', live := u ++ v }, putBack l b, _, ?_, hmoved.mono fun c hc => ?_, ?_⟩
    · rw [exec, hrun, herase]
      rfl
    · obtain ⟨hc, hne⟩ := hspared hc
      rcases List.mem_cons.mp (hperm.mem_iff.mp hc) with rfl | hc
      · exact absurd rfl hne
      · exact hc
    · have hdrops : Drops w (.kfree b.ptr) ↔ b.size < 8 := by
        refine ⟨fun ⟨c, hc, hcp, hsmall⟩ => ?_, fun hsmall => ⟨b, hb, rfl, hsmall⟩⟩
        rwa [h.ptr_inj hc hb hcp] at hsmall
      rw [hdrops]
      split <;> omega

/-- The invariant reads memory only at the headers of the blocks. -/
theorem Inv.setMem {w : World} {l : List Blk} (h : Inv w l) {mem : Bytes}
    (hsame : ∀ c ∈ l ++ w.live, ∀ x, c.addr ≤ x → x < c.addr + 16 → mem x = w.heap.mem x) :
    Inv { w with heap := { w.heap with mem := mem } } l := by
  have hsize : ∀ c ∈ l ++ w.live,
      Heap.size { w.heap with mem := mem } c.addr = w.heap.size c.addr := fun c hc =>
    load64_congr fun x hx hx' => hsame c hc x (by omega) (by omega)
  refine ⟨⟨?_, fun c hc => ?_⟩, h.free, h.apart, h.inside, fun c hc => ?_, h.pages, h.page⟩
  · refine h.rep.chain.congr fun b hb => ?_
    obtain ⟨c, hc, rfl⟩ := List.mem_map.mp hb
    exact load64_congr fun x hx hx' => hsame c (List.mem_append_left _ hc) x hx (by omega)
  · rw [hsize c (List.mem_append_left _ hc), h.rep.size c hc]
  · show Heap.size { w.heap with mem := mem } c.addr = c.size
    rw [hsize c (List.mem_append_right _ hc), h.header c hc]

theorem clientStore_ok {w : World} {l : List Blk} (h : Inv w l) {a : Nat} {v : BitVec 8}
    (hc : Legal w (.clientStore a v)) :
    ∃ w', exec w (.clientStore a v) = .ok w' ∧ w'.live = w.live ∧
      Moved w l (spared w (.clientStore a v)) 0 w' l := by
  have hspared : ∀ {b : Blk}, b ∈ spared w (.clientStore a v) → b ∈ w.live ∧ ¬ b.Has a := by
    intro b hb
    rw [spared, List.mem_filter, decide_eq_true_eq] at hb
    exact hb
  -- The byte is in the usable part of a live block, or in no block at all.
  have haway : ∀ c ∈ l ++ w.live, a < c.addr ∨ c.addr + 16 ≤ a := by
    intro c hcl
    by_contra hin
    have hcstop := c.stop_eq
    have hca : c.Has a := ⟨by omega, by omega⟩
    rcases hc with ⟨b, hb, hle, hlt⟩ | hout
    · have hptr : b.addr + 16 ≤ a := hle
      have hba : b.Has a := ⟨by omega, hlt⟩
      have hne : c ≠ b := fun e => by
        rw [e] at hin
        omega
      exact (h.apart.forall hcl (List.mem_append_right _ hb) hne).not_has hca hba
    · exact hout (h.inside a ⟨c, hcl, hca⟩)
  refine ⟨_, rfl, rfl, ⟨h.setMem fun c hcl x hx hx' => ?_, fun b hb => (hspared hb).1,
    fun b hb x hx => ?_, rfl⟩⟩
  · refine Function.update_of_ne ?_ _ _
    have := haway c hcl
    omega
  · refine Function.update_of_ne ?_ _ _
    rintro rfl
    exact (hspared hb).2 hx

/-- Every legal call returns, unless a page was needed and there was none. -/
theorem exec_ok {w : World} {l : List Blk} (h : Inv w l) {c : Call} (hc : Legal w c) :
    (exec w c = .error .oom ∧ ∃ size, c = .kmalloc size 0) ∨
      ∃ w' l' gone, exec w c = .ok w' ∧ Moved w l (spared w c) gone w' l' ∧
        (gone = 0 ↔ ¬ Drops w c) := by
  cases c with
  | kmalloc size newRam =>
      rcases kmalloc_ok h hc with ⟨rfl, hrun⟩ | ⟨w', l', hrun, hmoved⟩
      · exact Or.inl ⟨hrun, size, rfl⟩
      · exact Or.inr ⟨w', l', 0, hrun, hmoved, iff_of_true rfl id⟩
  | kfree ptr => exact Or.inr (kfree_ok h hc)
  | clientStore a v =>
      obtain ⟨w', hrun, _, hmoved⟩ := clientStore_ok h hc
      exact Or.inr ⟨w', l, 0, hrun, hmoved, iff_of_true rfl id⟩

theorem inv_start (mem : Bytes) : Inv ⟨kmallocInit mem, [], []⟩ [] where
  rep := ⟨rfl, fun b hb => absurd hb List.not_mem_nil⟩
  free := ⟨List.Pairwise.nil, fun b hb => absurd hb List.not_mem_nil, List.Pairwise.nil,
    fun b hb => absurd hb List.not_mem_nil⟩
  apart := List.Pairwise.nil
  inside x hx := by obtain ⟨b, hb, _⟩ := hx; exact absurd hb List.not_mem_nil
  header b hb := absurd hb List.not_mem_nil
  pages := List.Pairwise.nil
  page p hp := absurd hp List.not_mem_nil

theorem Run.inv {h : History} {w : World} (hrun : Run h w) : ∃ l, Inv w l := by
  induction hrun with
  | start mem => exact ⟨[], inv_start mem⟩
  | call _ hc hexec ih =>
      obtain ⟨l, hinv⟩ := ih
      rcases exec_ok hinv hc with ⟨herr, _⟩ | ⟨w', l', _, hok, hmoved, _⟩
      · rw [hexec] at herr
        cases herr
      · rw [hexec, Except.ok.injEq] at hok
        rw [hok]
        exact ⟨l', hmoved.inv⟩

/-! ## The invariant over a run -/

/-- The free list, read from memory. -/
def freeList (h : Heap) : List Blk :=
  (walk 0 h.next walkFuel h.sizeList).map fun a => ⟨a, h.size a⟩

theorem Inv.freeList_eq {w : World} {l : List Blk} (h : Inv w l) : freeList w.heap = l := by
  have hlen := length_lt_of_apart h.free.apart fun c hc => h.valid (List.mem_append_left _ hc)
  rw [freeList, h.rep.chain.walk_eq (by rw [List.length_map]; exact hlen.le), List.map_map]
  calc l.map ((fun a => ⟨a, w.heap.size a⟩) ∘ Blk.addr) = l.map id :=
        List.map_congr_left fun b hb => Blk.ext rfl (h.rep.size b hb)
    _ = l := List.map_id l

/-- The invariant of the heap, over the list read from memory. -/
structure HeapInv (w : World) : Prop where
  chain : Chain 0 w.heap.next w.heap.sizeList ((freeList w.heap).map Blk.addr)
  nodup : ((freeList w.heap).map Blk.addr).Nodup
  sorted : (freeList w.heap).Pairwise fun b c => b.size ≤ c.size
  minSize : ∀ b ∈ freeList w.heap, 8 ≤ b.size
  apart : (freeList w.heap).Pairwise Apart
  inside : ∀ b ∈ freeList w.heap, ∀ x, b.Has x → InPages w.pages x
  notAdjacent : ∀ b ∈ freeList w.heap, ∀ c ∈ freeList w.heap, b.stop ≠ c.addr

theorem Inv.heapInv {w : World} {l : List Blk} (h : Inv w l) : HeapInv w := by
  constructor <;> rw [h.freeList_eq]
  · exact h.rep.chain
  · exact h.rep.chain.nodup
  · exact h.free.sorted
  · exact h.free.minSize
  · exact h.free.apart
  · exact fun b hb x hx => h.inside x ⟨b, List.mem_append_left _ hb, hx⟩
  · exact h.free.notAdjacent

/-- In every state of a run the invariant of the heap holds, and every legal call
returns, or panics because it needs a page and there is none. -/
theorem run_heapInv {h : History} {w : World} (hrun : Run h w) :
    HeapInv w ∧ ∀ c, Legal w c →
      (∃ w', exec w c = .ok w') ∨ (exec w c = .error .oom ∧ ∃ size, c = .kmalloc size 0) := by
  obtain ⟨l, hinv⟩ := hrun.inv
  refine ⟨hinv.heapInv, fun c hc => ?_⟩
  rcases exec_ok hinv hc with herr | ⟨w', _, _, hok, _⟩
  · exact Or.inr herr
  · exact Or.inl ⟨w', hok⟩

/-! ## Runs on given inputs -/

/-- The state after a call that returns. -/
def after (w : World) (c : Call) : World := (exec w c).toOption.getD w

theorem Run.after {h : History} {w : World} {c : Call} (hrun : Run h w) (hc : Legal w c)
    (hok : (exec w c).toOption.isSome = true) : Run ((w, c) :: h) (after w c) := by
  refine Run.call hrun hc ?_
  rw [Kmalloc.after]
  cases hexec : exec w c with
  | ok w' => rfl
  | error e =>
      rw [hexec] at hok
      cases hok

/-- A heap in zeroed memory. -/
def zeroed : World := ⟨kmallocInit fun _ => 0, [], []⟩

theorem freshPage_zeroed : FreshPage zeroed.pages 4096 :=
  ⟨by decide, by decide, by decide, List.not_mem_nil⟩

theorem run_zeroed {size : Nat} (hok : (exec zeroed (.kmalloc size 4096)).toOption.isSome = true) :
    Run [(zeroed, .kmalloc size 4096)] (after zeroed (.kmalloc size 4096)) :=
  (Run.start _).after (Or.inr freshPage_zeroed) hok

theorem run_heapInv_page :
    freeList (after zeroed (.kmalloc 100 4096)).heap = [⟨4096, 3964⟩] ∧
      HeapInv (after zeroed (.kmalloc 100 4096)) :=
  ⟨by decide +kernel, (run_heapInv (run_zeroed (by decide +kernel))).1⟩

/-! ## Exclusive ownership of blocks -/

/-- What holds of a live block. -/
structure Exclusive (w : World) (b : Blk) : Prop where
  header : w.heap.size b.addr = b.size
  apartLive : ∀ c ∈ w.live, c ≠ b → b.Apart c
  apartFree : ∀ c ∈ freeList w.heap, b.Apart c
  inside : ∀ x, b.Has x → InPages w.pages x

theorem Inv.exclusive {w : World} {l : List Blk} (h : Inv w l) {b : Blk} (hb : b ∈ w.live) :
    Exclusive w b where
  header := h.header b hb
  apartLive _ hc hne := (List.pairwise_append.mp h.apart).2.1.forall hb hc hne.symm
  apartFree c hc := by
    rw [h.freeList_eq] at hc
    exact (h.apart_live hc hb).symm
  inside x hx := h.inside x ⟨b, List.mem_append_right _ hb, hx⟩

/-- A live block stays live until it is freed. -/
theorem Inv.live_exec {w w' : World} {l : List Blk} (h : Inv w l) {c : Call} (hc : Legal w c)
    (hexec : exec w c = .ok w') {b : Blk} (hb : b ∈ w.live) (hne : c ≠ .kfree b.ptr) :
    b ∈ w'.live ∧ ((∀ a v, c ≠ .clientStore a v) → ∀ x, b.Has x → w'.heap.mem x = w.heap.mem x) := by
  rcases exec_ok h hc with ⟨herr, _⟩ | ⟨w'', l', _, hok, hmoved, _⟩
  · rw [hexec] at herr
    cases herr
  · rw [hexec, Except.ok.injEq] at hok
    subst hok
    cases c with
    | kmalloc size newRam => exact ⟨hmoved.live b hb, fun _ => hmoved.bytes b hb⟩
    | kfree ptr =>
        have hmem : b ∈ spared w (.kfree ptr) := by
          rw [spared, List.mem_filter, decide_eq_true_eq]
          exact ⟨hb, fun e => hne (by rw [e])⟩
        exact ⟨hmoved.live b hmem, fun _ => hmoved.bytes b hmem⟩
    | clientStore a v =>
        rw [exec, Except.ok.injEq] at hexec
        subst hexec
        exact ⟨hb, fun hstore => absurd rfl (hstore a v)⟩

/-- The pointer that `kmalloc` returns is that of a live block of the requested
size. -/
theorem Inv.live_kmalloc {w : World} {l : List Blk} (h : Inv w l) {size newRam : Nat} {r : Result}
    (hc : Legal w (.kmalloc size newRam)) (hrun : kmalloc w.heap size newRam = .ok r)
    (hr : r.ptr ≠ 0) :
    ∃ w', exec w (.kmalloc size newRam) = .ok w' ∧ w'.heap = r.heap ∧
      ∃ b ∈ w'.live, b.ptr = r.ptr ∧ b.size = size := by
  have hexec : exec w (.kmalloc size newRam) = .ok ⟨r.heap,
      ⟨r.ptr - totalMetadataSize, size⟩ :: w.live,
      if r.grew then newRam :: w.pages else w.pages⟩ := by
    rw [exec, hrun, Except.map, if_neg hr]
  rcases kmalloc_ok h hc with ⟨_, herr⟩ | ⟨w', l', hok, hmoved⟩
  · rw [hexec] at herr
    cases herr
  · rw [hexec, Except.ok.injEq] at hok
    subst hok
    refine ⟨_, hexec, rfl, _, List.mem_cons_self, ?_, rfl⟩
    have hne := (hmoved.inv.valid (List.mem_append_right _ List.mem_cons_self)).ne_zero
    simp only [Blk.ptr] at hne ⊢
    omega

/-- In every state of a run each live block has its size in its header, shares no
byte with another live block or a free one, and lies inside the pages; it stays
live until it is freed, and no call for another block changes its bytes.  Every
pointer that `kmalloc` returns is that of such a block. -/
theorem run_exclusive {h : History} {w : World} (hrun : Run h w) :
    w.live.Pairwise Apart ∧
    (∀ b ∈ w.live, Exclusive w b ∧
      ∀ c w', Legal w c → exec w c = .ok w' → c ≠ .kfree b.ptr → b ∈ w'.live ∧
        ((∀ a v, c ≠ .clientStore a v) → ∀ x, b.Has x → w'.heap.mem x = w.heap.mem x)) ∧
    ∀ size newRam r, Legal w (.kmalloc size newRam) → kmalloc w.heap size newRam = .ok r →
      r.ptr ≠ 0 → ∃ w', exec w (.kmalloc size newRam) = .ok w' ∧ w'.heap = r.heap ∧
        ∃ b ∈ w'.live, b.ptr = r.ptr ∧ b.size = size := by
  obtain ⟨l, hinv⟩ := hrun.inv
  exact ⟨(List.pairwise_append.mp hinv.apart).2.1,
    fun b hb => ⟨hinv.exclusive hb, fun c w' hc hexec hne => hinv.live_exec hc hexec hb hne⟩,
    fun size newRam r hc hrun hr => hinv.live_kmalloc hc hrun hr⟩

theorem run_exclusive_page :
    (after zeroed (.kmalloc 100 4096)).live = [⟨8076, 100⟩] ∧
      Exclusive (after zeroed (.kmalloc 100 4096)) ⟨8076, 100⟩ := by
  have hlive : (after zeroed (.kmalloc 100 4096)).live = [⟨8076, 100⟩] := by decide +kernel
  refine ⟨hlive, ((run_exclusive (run_zeroed (by decide +kernel))).2.1 _ ?_).1⟩
  rw [hlive]
  exact List.mem_cons_self

end Kmalloc
end GuideOS
