import GuideOS.Lib.Chain
import GuideOS.Mem.Kmalloc.FreeList
import Mathlib.Order.Interval.Finset.Nat

/-!
# The heap code computes the list functions

`Rep h l` says that `size_list` is a null-terminated chain through the headers
of the blocks of `l` and that every header holds its block's size.  Under it the
loops of `kmalloc.c` compute the list functions of the previous module, and
write only headers: `SameOutside l h h'` says that every byte outside the
headers of `l` is kept.
-/

namespace GuideOS
namespace Kmalloc

open Lib Blk

-- A heap is compared with another by lemmas, never by unfolding the loads.
attribute [local irreducible] load64 store64

/-! ## Header fields -/

namespace Heap

variable {h : Heap} {a b v : Nat}

theorem next_setNext (hv : v < 2 ^ 64) : (h.setNext a v).next a = v := load64_store64 h.mem hv

theorem size_setSize (hv : v < 2 ^ 64) : (h.setSize a v).size a = v := load64_store64 h.mem hv

theorem next_setNext_ne (hab : b + 8 ≤ a ∨ a + 8 ≤ b) : (h.setNext a v).next b = h.next b :=
  load64_store64_ne hab

theorem size_setNext (hab : a ≤ b ∨ b + 16 ≤ a) : (h.setNext a v).size b = h.size b :=
  load64_store64_ne (by omega)

theorem next_setSize (hab : b ≤ a ∨ a + 16 ≤ b) : (h.setSize a v).next b = h.next b :=
  load64_store64_ne (by omega)

/-- The header fields are in memory: moving `size_list` keeps them. -/
theorem fields_congr {h h' : Heap} (e : h'.mem = h.mem) : h'.next = h.next ∧ h'.size = h.size := by
  constructor <;> funext x
  · rw [next, next, e]
  · rw [size, size, e]

theorem next_lt (h : Heap) (a : Nat) : h.next a < 2 ^ 64 := load64_lt h.mem a

end Heap

/-- A block the allocator can work on. -/
structure Blk.Valid (b : Blk) : Prop where
  ne_zero : b.addr ≠ 0
  le : b.stop ≤ 2 ^ 64

/-- The bytes of the headers of a list of blocks. -/
def InHeaders (l : List Blk) (x : Nat) : Prop :=
  ∃ b ∈ l, b.addr ≤ x ∧ x < b.addr + totalMetadataSize

def SameOutside (l : List Blk) (h h' : Heap) : Prop := ∀ x, ¬ InHeaders l x → h'.mem x = h.mem x

theorem SameOutside.refl (l : List Blk) (h : Heap) : SameOutside l h h := fun _ _ => rfl

theorem SameOutside.trans {l : List Blk} {h h' h'' : Heap} (h₁ : SameOutside l h h')
    (h₂ : SameOutside l h' h'') : SameOutside l h h'' := fun x hx =>
  (h₂ x hx).trans (h₁ x hx)

theorem SameOutside.mono {l r : List Blk} {h h' : Heap} (h₁ : SameOutside l h h')
    (hsub : ∀ b ∈ l, b.addr ∈ r.map Blk.addr) : SameOutside r h h' := by
  intro x hx
  refine h₁ x fun ⟨b, hb, hbx⟩ => hx ?_
  obtain ⟨c, hc, e⟩ := List.mem_map.mp (hsub b hb)
  exact ⟨c, hc, by rw [e]; exact hbx⟩

theorem sameOutside_setNext {l : List Blk} {h : Heap} {a v : Nat} (ha : a ∈ l.map Blk.addr) :
    SameOutside l h (h.setNext a v) := by
  intro x hx
  obtain ⟨b, hb, rfl⟩ := List.mem_map.mp ha
  refine store64_outside ?_
  by_contra hin
  exact hx ⟨b, hb, by simp only [totalMetadataSize]; omega⟩

theorem sameOutside_setSize {l : List Blk} {h : Heap} {a v : Nat} (ha : a ∈ l.map Blk.addr) :
    SameOutside l h (h.setSize a v) := by
  intro x hx
  obtain ⟨b, hb, rfl⟩ := List.mem_map.mp ha
  refine store64_outside ?_
  by_contra hin
  exact hx ⟨b, hb, by simp only [totalMetadataSize]; omega⟩

/-! ## Representation -/

structure Rep (h : Heap) (l : List Blk) : Prop where
  chain : Chain 0 h.next h.sizeList (l.map Blk.addr)
  size : ∀ b ∈ l, h.size b.addr = b.size

/-- The headers of two blocks that are apart do not overlap. -/
theorem Blk.Apart.headers {b c : Blk} (h : b.Apart c) :
    b.addr + 16 ≤ c.addr ∨ c.addr + 16 ≤ b.addr := by
  have := b.stop_eq
  have := c.stop_eq
  unfold Apart at h
  omega

theorem Blk.Apart.not_inHeaders {c : Blk} {l : List Blk} (h : ∀ d ∈ l, d.Apart c) {x : Nat}
    (hx : c.addr ≤ x ∧ x < c.addr + 16) : ¬ InHeaders l x := by
  rintro ⟨d, hd, hdx⟩
  have := (h d hd).headers
  simp only [totalMetadataSize] at hdx
  omega

theorem SameOutside.next {l : List Blk} {h h' : Heap} (hs : SameOutside l h h') {c : Blk}
    (hc : ∀ d ∈ l, d.Apart c) : h'.next c.addr = h.next c.addr :=
  load64_congr fun x _ _ => hs x (Apart.not_inHeaders hc (by omega))

theorem SameOutside.size {l : List Blk} {h h' : Heap} (hs : SameOutside l h h') {c : Blk}
    (hc : ∀ d ∈ l, d.Apart c) : h'.size c.addr = h.size c.addr :=
  load64_congr fun x _ _ => hs x (Apart.not_inHeaders hc (by omega))

/-- Writes to headers away from the list keep what it represents. -/
theorem Rep.frame {h h' : Heap} {l r : List Blk} (hrep : Rep h l) (hs : SameOutside r h h')
    (hhead : h'.sizeList = h.sizeList) (hap : ∀ c ∈ l, ∀ d ∈ r, d.Apart c) : Rep h' l := by
  constructor
  · rw [hhead]
    refine hrep.chain.congr fun a ha => ?_
    obtain ⟨c, hc, rfl⟩ := List.mem_map.mp ha
    exact hs.next (hap c hc)
  · intro c hc
    rw [hs.size (hap c hc)]
    exact hrep.size c hc

/-- The last block of a list, or null: the `parent` of what follows. -/
def parentOf (u : List Blk) : Nat := (u.getLast?.map Blk.addr).getD 0

@[simp] theorem parentOf_nil : parentOf [] = 0 := rfl

@[simp] theorem parentOf_concat (u : List Blk) (b : Blk) : parentOf (u ++ [b]) = b.addr := by
  simp [parentOf]

/-- What taking a block out of the list keeps. -/
structure Unlinked (h : Heap) (u v : List Blk) (b : Blk) (h' : Heap) : Prop where
  rep : Rep h' (u ++ v)
  next : h'.next b.addr = h.next b.addr
  size : ∀ c, (∀ d ∈ u, d.Apart c ∨ d = c) → h'.size c.addr = h.size c.addr
  same : SameOutside u h h'

theorem unlink_ok {h : Heap} {u v : List Blk} {b : Blk} (hrep : Rep h (u ++ b :: v))
    (hap : (u ++ b :: v).Pairwise Apart) (hval : ∀ c ∈ u, c.Valid) :
    Unlinked h u v b (h.unlink b.addr (parentOf u)) := by
  rcases List.eq_nil_or_concat u with rfl | ⟨u, p, rfl⟩
  · have hchain := (chain_cons.mp hrep.chain).2.2
    rw [parentOf_nil, Heap.unlink, if_pos rfl]
    have hfields := @Heap.fields_congr h { h with sizeList := h.next b.addr } rfl
    refine ⟨⟨?_, fun c hc => ?_⟩, ?_, fun c _ => ?_, fun _ _ => rfl⟩
    · rw [hfields.1]
      exact hchain
    · rw [hfields.2]
      exact hrep.size c (List.mem_cons_of_mem b hc)
    · rw [hfields.1]
    · rw [hfields.2]
  · rw [List.concat_eq_append] at *
    have hp0 : p.addr ≠ 0 := (hval p (by simp)).ne_zero
    have hun : h.unlink b.addr (parentOf (u ++ [p])) = h.setNext p.addr (h.next b.addr) := by
      rw [parentOf_concat, Heap.unlink, if_neg hp0]
    have happ : ∀ c ∈ u ++ b :: v, p.Apart c := by
      intro c hc
      rw [List.append_assoc, List.singleton_append] at hap
      have h₁ := List.pairwise_append.mp hap
      rcases List.mem_append.mp hc with hc | hc
      · exact (h₁.2.2 c hc p List.mem_cons_self).symm
      · exact (List.pairwise_cons.mp h₁.2.1).1 c hc
    have hother : ∀ c ∈ u ++ b :: v, (h.setNext p.addr (h.next b.addr)).next c.addr = h.next c.addr := by
      intro c hc
      have := (happ c hc).headers
      exact Heap.next_setNext_ne (by omega)
    have hsize : ∀ c, p.Apart c ∨ p = c →
        (h.setNext p.addr (h.next b.addr)).size c.addr = h.size c.addr := by
      rintro c (hc | rfl)
      · have := hc.headers
        exact Heap.size_setNext (by omega)
      · exact Heap.size_setNext (Or.inl (Nat.le_refl _))
    rw [hun]
    refine ⟨⟨?_, ?_⟩, hother b (by simp), fun c hc => hsize c (hc p (by simp)), ?_⟩
    · have hchain := hrep.chain
      simp only [List.map_append, List.map_cons, List.append_assoc, List.singleton_append]
        at hchain ⊢
      refine hchain.unlink (Heap.next_setNext (h.next_lt _)) fun a ha => ?_
      rw [← List.map_append] at ha
      obtain ⟨c, hc, rfl⟩ := List.mem_map.mp ha
      refine hother c ?_
      rcases List.mem_append.mp hc with hc | hc
      · exact List.mem_append_left _ hc
      · exact List.mem_append_right _ (List.mem_cons_of_mem b hc)
    · intro c hc
      have hmem : c ∈ (u ++ [p]) ++ b :: v := by
        rcases List.mem_append.mp hc with hc | hc
        · exact List.mem_append_left _ hc
        · exact List.mem_append_right _ (List.mem_cons_of_mem b hc)
      rw [← hrep.size c hmem]
      refine hsize c ?_
      by_cases e : p = c
      · exact Or.inr e
      · refine Or.inl (happ c ?_)
        simp only [List.mem_append, List.mem_singleton] at hc ⊢
        rcases hc with (hc | hc) | hc
        · exact Or.inl hc
        · exact absurd hc.symm e
        · exact Or.inr (List.mem_cons_of_mem b hc)
    · exact sameOutside_setNext (by simp)

/-! ## The coalescing loop -/

/-- The invariant of the first loop of `add_block`: `kept` is the part of the
list already passed, `rest` the part ahead of `currentBlock`, and `m` the block
at `metaBlock`. -/
structure MergeInv (lo hi : Nat) (kept rest : List Blk) (m : Blk) (h : Heap) (cur : Nat) :
    Prop where
  rep : Rep h (kept ++ rest)
  cur : Chain 0 h.next cur (rest.map Blk.addr)
  size : h.size m.addr = m.size
  apart : (m :: (kept ++ rest)).Pairwise Apart
  valid : ∀ c ∈ m :: (kept ++ rest), c.Valid
  spans : Spans lo hi m

theorem MergeInv.keep {lo hi cur : Nat} {kept rest : List Blk} {m b : Blk} {h : Heap}
    (hm : MergeInv lo hi kept (b :: rest) m h cur) :
    MergeInv lo hi (kept ++ [b]) rest m h (h.next b.addr) := by
  have hlist : kept ++ [b] ++ rest = kept ++ b :: rest := by simp
  constructor
  · rw [hlist]
    exact hm.rep
  · exact (chain_cons.mp hm.cur).2.2
  · exact hm.size
  · rw [hlist]
    exact hm.apart
  · rw [hlist]
    exact hm.valid
  · exact hm.spans

/-- Joining `b` to the block being added, with the joined header at `t`, one of
the two. -/
theorem MergeInv.join {lo hi cur : Nat} {kept rest : List Blk} {m b : Blk} {h : Heap}
    (hm : MergeInv lo hi kept (b :: rest) m h cur) (t m' : Blk) (ht : t = b ∨ t = m)
    (haddr : m'.addr = t.addr) (hhas : ∀ x, m'.Has x ↔ m.Has x ∨ b.Has x)
    (hval : m'.Valid) (hspans : Spans lo hi m') :
    MergeInv lo hi kept rest m' ((h.unlink b.addr (parentOf kept)).setSize m'.addr m'.size)
      (((h.unlink b.addr (parentOf kept)).setSize m'.addr m'.size).next b.addr) ∧
    SameOutside (m :: (kept ++ b :: rest)) h
      ((h.unlink b.addr (parentOf kept)).setSize m'.addr m'.size) := by
  have hmem : ∀ c ∈ kept ++ rest, c ∈ kept ++ b :: rest := fun c hc => by
    rcases List.mem_append.mp hc with hc | hc
    · exact List.mem_append_left _ hc
    · exact List.mem_append_right _ (List.mem_cons_of_mem b hc)
  obtain ⟨hml, hl⟩ := List.pairwise_cons.mp hm.apart
  obtain ⟨_, hbrest, hkept⟩ := List.pairwise_append.mp hl
  have hb : ∀ c ∈ kept ++ rest, b.Apart c := fun c hc => by
    rcases List.mem_append.mp hc with hc | hc
    · exact (hkept c hc b List.mem_cons_self).symm
    · exact (List.pairwise_cons.mp hbrest).1 c hc
  have htl : ∀ c ∈ kept ++ rest, t.Apart c := by
    rcases ht with rfl | rfl
    · exact hb
    · exact fun c hc => hml c (hmem c hc)
  have hun := unlink_ok hm.rep hl fun c hc =>
    hm.valid c (List.mem_cons_of_mem m (List.mem_append_left _ hc))
  rw [haddr]
  have hs : SameOutside [t] (h.unlink b.addr (parentOf kept))
      ((h.unlink b.addr (parentOf kept)).setSize t.addr m'.size) :=
    sameOutside_setSize (by simp)
  have hnext : ((h.unlink b.addr (parentOf kept)).setSize t.addr m'.size).next b.addr =
      h.next b.addr := by
    rw [Heap.next_setSize, hun.next]
    rcases ht with rfl | rfl
    · exact Or.inl (Nat.le_refl _)
    · have := (hml b (by simp)).headers
      omega
  refine ⟨⟨?_, ?_, ?_, ?_, ?_, hspans⟩, ?_⟩
  · refine hun.rep.frame hs rfl fun c hc d hd => ?_
    rw [List.mem_singleton.mp hd]
    exact htl c hc
  · rw [hnext]
    refine (chain_cons.mp hm.cur).2.2.congr fun a ha => ?_
    obtain ⟨c, hc, rfl⟩ := List.mem_map.mp ha
    rw [hs.next, hun.same.next]
    · exact fun d hd => hkept d hd c (List.mem_cons_of_mem b hc)
    · intro d hd
      rw [List.mem_singleton.mp hd]
      exact htl c (List.mem_append_right _ hc)
  · rw [haddr]
    refine Heap.size_setSize ?_
    have := hval.le
    have := m'.stop_eq
    omega
  · refine List.pairwise_cons.mpr ⟨fun c hc => apart_of_no_common fun x hx hcx => ?_, ?_⟩
    · rcases (hhas x).mp hx with hx | hx
      · exact (hml c (hmem c hc)).not_has hx hcx
      · exact (hb c hc).not_has hx hcx
    · exact hl.sublist (List.Sublist.append_left (List.sublist_cons_self b rest) kept)
  · intro c hc
    rcases List.mem_cons.mp hc with rfl | hc
    · exact hval
    · exact hm.valid c (List.mem_cons_of_mem m (hmem c hc))
  · refine (hun.same.mono fun c hc => ?_).trans (hs.mono fun c hc => ?_)
    · exact List.mem_map_of_mem (by simp [hc])
    · rw [List.mem_singleton.mp hc]
      rcases ht with rfl | rfl <;> simp

/-- What one joining step of the loop does: the block it returns and the heap it
leaves. -/
structure JoinStep (lo hi : Nat) (kept rest : List Blk) (m b m' : Blk) (h : Heap)
    (r : Heap × Nat) : Prop where
  block : r.2 = m'.addr
  inv : MergeInv lo hi kept rest m' r.1 (r.1.next b.addr)
  same : SameOutside (m :: (kept ++ b :: rest)) h r.1
  addr : m'.addr = b.addr ∨ m'.addr = m.addr

section JoinStep

variable {lo hi cur : Nat} {kept rest : List Blk} {m b : Blk} {h : Heap}

theorem MergeInv.apart_head (hm : MergeInv lo hi kept (b :: rest) m h cur) : m.Apart b :=
  (List.pairwise_cons.mp hm.apart).1 b (by simp)

theorem MergeInv.size_unlink (hm : MergeInv lo hi kept (b :: rest) m h cur) :
    (h.unlink b.addr (parentOf kept)).size b.addr = b.size ∧
      (h.unlink b.addr (parentOf kept)).size m.addr = m.size := by
  obtain ⟨hml, hl⟩ := List.pairwise_cons.mp hm.apart
  have hun := unlink_ok hm.rep hl fun c hc =>
    hm.valid c (List.mem_cons_of_mem m (List.mem_append_left _ hc))
  constructor
  · rw [hun.size b, hm.rep.size b (by simp)]
    exact fun d hd => Or.inl ((List.pairwise_append.mp hl).2.2 d hd b List.mem_cons_self)
  · rw [hun.size m, hm.size]
    exact fun d hd => Or.inl (hml d (List.mem_append_left _ hd)).symm

theorem MergeInv.front (hm : MergeInv lo hi kept (b :: rest) m h cur) (hfront : b.stop = lo) :
    JoinStep lo hi kept rest m b ⟨b.addr, b.size + (m.size + totalMetadataSize)⟩ h
      (mergeWithFront h b.addr (parentOf kept) (h.size m.addr + totalMetadataSize)) := by
  have hbv := hm.valid b (by simp)
  have hj : Joins b m ⟨b.addr, b.size + (m.size + totalMetadataSize)⟩ :=
    joins_size (hm.spans.front hm.apart_head hfront) _ rfl
  have hspans : Spans lo hi ⟨b.addr, b.size + (m.size + totalMetadataSize)⟩ := by
    refine ⟨?_, hm.spans.proper, by rw [hj.stop]; exact hm.spans.right⟩
    have := b.stop_eq
    show b.addr ≤ lo
    omega
  have hstep := hm.join b ⟨b.addr, b.size + (m.size + totalMetadataSize)⟩ (Or.inl rfl) rfl
    (fun x => by rw [hj.has, or_comm])
    ⟨hbv.ne_zero, by rw [hj.stop]; exact (hm.valid m List.mem_cons_self).le⟩ hspans
  rw [mergeWithFront, hm.size_unlink.1, hm.size]
  exact ⟨rfl, hstep.1, hstep.2, Or.inl rfl⟩

theorem MergeInv.back (hm : MergeInv lo hi kept (b :: rest) m h cur) (hback : hi = b.addr) :
    JoinStep lo hi kept rest m b ⟨m.addr, m.size + (b.size + totalMetadataSize)⟩ h
      (mergeWithBack h b.addr (parentOf kept) m.addr) := by
  have hmv := hm.valid m List.mem_cons_self
  have hj : Joins m b ⟨m.addr, m.size + (b.size + totalMetadataSize)⟩ :=
    joins_size (hm.spans.back hm.apart_head hback) _ rfl
  have hspans : Spans lo hi ⟨m.addr, m.size + (b.size + totalMetadataSize)⟩ := by
    refine ⟨hm.spans.left, hm.spans.proper, ?_⟩
    have := b.stop_eq
    rw [hj.stop]
    omega
  have hstep := hm.join m ⟨m.addr, m.size + (b.size + totalMetadataSize)⟩ (Or.inr rfl) rfl
    (fun x => hj.has)
    ⟨hmv.ne_zero, by rw [hj.stop]; exact (hm.valid b (by simp)).le⟩ hspans
  rw [mergeWithBack, hm.size_unlink.1, hm.size_unlink.2]
  exact ⟨rfl, hstep.1, hstep.2, Or.inr rfl⟩

end JoinStep

/-- The tests of the loop compare pointers; on valid blocks they compare ends. -/
theorem stop_mod_eq_iff {b : Blk} {lo : Nat} (hb : b.Valid) (hlo : lo ≠ 0) (hlt : lo < 2 ^ 64) :
    b.stop % 2 ^ 64 = lo ↔ b.stop = lo := by
  have := hb.le
  omega

theorem mod_eq_addr_iff {b : Blk} {hi : Nat} (hb : b.Valid) (hle : hi ≤ 2 ^ 64) :
    hi % 2 ^ 64 = b.addr ↔ hi = b.addr := by
  have := hb.le
  have := hb.ne_zero
  have := b.stop_eq
  omega

/-- The loop ends, with the list and the block that `mergeBlk` gives. -/
structure MergeDone (lo hi : Nat) (kept rest : List Blk) (m : Blk) (h h' : Heap) : Prop where
  rep : Rep h' (kept ++ (mergeBlk lo hi rest m).1)
  size : h'.size (mergeBlk lo hi rest m).2.addr = (mergeBlk lo hi rest m).2.size
  valid : (mergeBlk lo hi rest m).2.Valid
  same : SameOutside (m :: (kept ++ rest)) h h'

theorem JoinStep.sub {lo hi : Nat} {kept rest : List Blk} {m b m' : Blk} {h : Heap}
    {r : Heap × Nat} (hj : JoinStep lo hi kept rest m b m' h r) {c : Blk}
    (hc : c ∈ m' :: (kept ++ rest)) : c.addr ∈ (m :: (kept ++ b :: rest)).map Blk.addr := by
  simp only [List.mem_cons, List.mem_append] at hc
  rcases hc with rfl | hc | hc
  · rcases hj.addr with e | e <;> simp [e]
  · exact List.mem_map_of_mem (by simp [hc])
  · exact List.mem_map_of_mem (by simp [hc])

theorem JoinStep.done {lo hi : Nat} {kept rest : List Blk} {m b m' : Blk} {h h' : Heap}
    {r : Heap × Nat} (hj : JoinStep lo hi kept rest m b m' h r)
    (heq : mergeBlk lo hi (b :: rest) m = mergeBlk lo hi rest m')
    (hd : MergeDone lo hi kept rest m' r.1 h') : MergeDone lo hi kept (b :: rest) m h h' := by
  constructor
  · rw [heq]
    exact hd.rep
  · rw [heq]
    exact hd.size
  · rw [heq]
    exact hd.valid
  · exact hj.same.trans (hd.same.mono fun c hc => hj.sub hc)

theorem mergeLoop_ok {lo hi fuel cur : Nat} {kept rest : List Blk} {m : Blk} {h : Heap}
    (hm : MergeInv lo hi kept rest m h cur) (hlo : lo ≠ 0) (hfuel : rest.length < fuel) :
    ∃ h', mergeLoop lo (hi % 2 ^ 64) fuel h cur (parentOf kept) m.addr =
        some (h', (mergeBlk lo hi rest m).2.addr) ∧ MergeDone lo hi kept rest m h h' := by
  induction rest generalizing kept m h cur fuel with
  | nil =>
      obtain ⟨fuel, rfl⟩ := Nat.exists_eq_add_of_lt hfuel
      have hcur : cur = 0 := hm.cur
      rw [show [].length + fuel + 1 = fuel + 1 by simp, mergeLoop, if_pos hcur]
      exact ⟨h, rfl, hm.rep, hm.size, hm.valid m List.mem_cons_self, SameOutside.refl _ h⟩
  | cons b rest ih =>
      cases fuel with
      | zero => omega
      | succ fuel =>
          have hfuel' : rest.length < fuel := by simpa using hfuel
          obtain ⟨rfl, hb0, _⟩ := chain_cons.mp hm.cur
          have hbv := hm.valid b (by simp)
          have hmv := hm.valid m List.mem_cons_self
          have hstop : b.addr + h.size b.addr + totalMetadataSize = b.stop := by
            rw [hm.rep.size b (by simp), Blk.stop]
            omega
          have hhile : hi ≤ 2 ^ 64 := hm.spans.right.trans hmv.le
          have hlolt : lo < 2 ^ 64 := lt_of_lt_of_le hm.spans.proper hhile
          rw [mergeLoop, if_neg hb0, hstop]
          by_cases hfront : b.stop = lo
          · have heq : mergeBlk lo hi (b :: rest) m =
                mergeBlk lo hi rest ⟨b.addr, b.size + (m.size + totalMetadataSize)⟩ := by
              rw [mergeBlk, if_pos hfront]
            have hj := hm.front hfront
            obtain ⟨h', hrun, hdone⟩ := ih hj.inv hfuel'
            rw [if_pos ((stop_mod_eq_iff hbv hlo hlolt).mpr hfront), heq]
            rw [← hj.block] at hrun
            exact ⟨h', hrun, hj.done heq hdone⟩
          · by_cases hback : hi = b.addr
            · have heq : mergeBlk lo hi (b :: rest) m =
                  mergeBlk lo hi rest ⟨m.addr, m.size + (b.size + totalMetadataSize)⟩ := by
                rw [mergeBlk, if_neg hfront, if_pos hback]
              have hj := hm.back hback
              obtain ⟨h', hrun, hdone⟩ := ih hj.inv hfuel'
              rw [if_neg (mt (stop_mod_eq_iff hbv hlo hlolt).mp hfront),
                if_pos ((mod_eq_addr_iff hbv hhile).mpr hback), heq]
              rw [← hj.block] at hrun
              exact ⟨h', hrun, hj.done heq hdone⟩
            · have heq : mergeBlk lo hi (b :: rest) m =
                  (b :: (mergeBlk lo hi rest m).1, (mergeBlk lo hi rest m).2) := by
                rw [mergeBlk, if_neg hfront, if_neg hback]
              rw [if_neg (mt (stop_mod_eq_iff hbv hlo hlolt).mp hfront),
                if_neg (mt (mod_eq_addr_iff hbv hhile).mp hback), heq]
              obtain ⟨h', hrun, hdone⟩ := ih hm.keep hfuel'
              rw [parentOf_concat] at hrun
              refine ⟨h', hrun, ?_⟩
              constructor
              · simpa [heq] using hdone.rep
              · simpa [heq] using hdone.size
              · simpa [heq] using hdone.valid
              · simpa using hdone.same

/-! ## Insertion -/

theorem Blk.Valid.addr_lt {b : Blk} (h : b.Valid) : b.addr < 2 ^ 64 := by
  have := h.le
  have := b.stop_eq
  omega

/-- Linking `m` into the list: after the block `b`, or in front. -/
theorem linkAfter_ok {h : Heap} {u v : List Blk} {b m : Blk} (hrep : Rep h (u ++ b :: v))
    (hap : (m :: (u ++ b :: v)).Pairwise Apart) (hval : m.Valid) (hsize : h.size m.addr = m.size) :
    Rep (h.linkAfter m.addr b.addr) (u ++ b :: m :: v) ∧
      SameOutside (m :: (u ++ b :: v)) h (h.linkAfter m.addr b.addr) := by
  obtain ⟨hml, hl⟩ := List.pairwise_cons.mp hap
  obtain ⟨_, hbv, hub⟩ := List.pairwise_append.mp hl
  have hmb := (hml b (by simp)).headers
  have hother : ∀ c ∈ u ++ v, ∀ d ∈ [m, b], d.Apart c := by
    intro c hc d hd
    simp only [List.mem_cons, List.not_mem_nil, or_false] at hd
    rcases hd with rfl | rfl <;> rcases List.mem_append.mp hc with hc | hc
    · exact hml c (List.mem_append_left _ hc)
    · exact hml c (List.mem_append_right _ (List.mem_cons_of_mem b hc))
    · exact (hub c hc d List.mem_cons_self).symm
    · exact (List.pairwise_cons.mp hbv).1 c hc
  have hs : SameOutside [m, b] h (h.linkAfter m.addr b.addr) :=
    (sameOutside_setNext (by simp)).trans (sameOutside_setNext (by simp))
  refine ⟨⟨?_, fun c hc => ?_⟩, hs.mono fun c hc => List.mem_map_of_mem ?_⟩
  · have hchain := hrep.chain
    simp only [List.map_append, List.map_cons] at hchain ⊢
    refine hchain.insertAfter hval.ne_zero (Heap.next_setNext hval.addr_lt) ?_ fun a ha => ?_
    · rw [Heap.linkAfter, Heap.next_setNext_ne (by omega), Heap.next_setNext (h.next_lt _)]
    · rw [← List.map_append] at ha
      obtain ⟨c, hc, rfl⟩ := List.mem_map.mp ha
      exact hs.next (hother c hc)
  · by_cases hcm : c = m
    · rw [hcm, Heap.linkAfter, Heap.size_setNext (by omega),
        Heap.size_setNext (Or.inl (Nat.le_refl _)), hsize]
    · by_cases hcb : c = b
      · rw [hcb, Heap.linkAfter, Heap.size_setNext (Or.inl (Nat.le_refl _)),
          Heap.size_setNext (by omega), hrep.size b (by simp)]
      · have hc' : c ∈ u ++ v := by simpa [hcm, hcb] using hc
        rw [hs.size (hother c hc')]
        refine hrep.size c ?_
        rcases List.mem_append.mp hc' with hc' | hc'
        · exact List.mem_append_left _ hc'
        · exact List.mem_append_right _ (List.mem_cons_of_mem b hc')
  · simp only [List.mem_cons, List.not_mem_nil, or_false] at hc
    rcases hc with rfl | rfl <;> simp

theorem pushFront_ok {h : Heap} {l : List Blk} {m : Blk} (hrep : Rep h l)
    (hap : (m :: l).Pairwise Apart) (hval : ∀ c ∈ m :: l, c.Valid)
    (hsize : h.size m.addr = m.size) :
    Rep { h.setNext m.addr h.sizeList with sizeList := m.addr } (m :: l) := by
  have hml := (List.pairwise_cons.mp hap).1
  have hhead : h.sizeList < 2 ^ 64 := by
    cases l with
    | nil =>
        have e : h.sizeList = 0 := hrep.chain
        omega
    | cons b l =>
        rw [(chain_cons.mp hrep.chain).1]
        exact (hval b (by simp)).addr_lt
  have hfields := @Heap.fields_congr (h.setNext m.addr h.sizeList)
    { h.setNext m.addr h.sizeList with sizeList := m.addr } rfl
  have hs : SameOutside [m] h (h.setNext m.addr h.sizeList) := sameOutside_setNext (by simp)
  have hother : ∀ c ∈ l, ∀ d ∈ [m], d.Apart c := fun c hc d hd => by
    rw [List.mem_singleton.mp hd]
    exact hml c hc
  constructor
  · have hchain := (hrep.frame hs rfl hother).chain
    rw [hfields.1, List.map_cons, chain_cons, Heap.next_setNext hhead]
    exact ⟨rfl, (hval m List.mem_cons_self).ne_zero, hchain⟩
  · intro c hc
    rw [hfields.2]
    rcases List.mem_cons.mp hc with rfl | hc
    · rw [Heap.size_setNext (Or.inl (Nat.le_refl _)), hsize]
    · rw [hs.size (hother c hc), hrep.size c hc]

theorem Rep.next_eq {h : Heap} {u v : List Blk} {b : Blk} (hrep : Rep h (u ++ b :: v)) :
    Chain 0 h.next (h.next b.addr) (v.map Blk.addr) := by
  have hchain := hrep.chain
  rw [List.map_append, List.map_cons] at hchain
  exact (chain_cons.mp hchain.suffix).2.2

theorem insertLoop_ok {fuel : Nat} {h : Heap} {u rest : List Blk} {b m : Blk}
    (hrep : Rep h (u ++ b :: rest)) (hap : (m :: (u ++ b :: rest)).Pairwise Apart)
    (hb : b.addr ≠ 0) (hval : m.Valid) (hsize : h.size m.addr = m.size)
    (hfuel : rest.length < fuel) :
    ∃ h', insertLoop m.addr fuel h b.addr = some h' ∧
      Rep h' (u ++ b :: rest.orderedInsert Le m) ∧ SameOutside (m :: (u ++ b :: rest)) h h' := by
  induction rest generalizing u b fuel with
  | nil =>
      cases fuel with
      | zero => omega
      | succ fuel =>
          have hnext : h.next b.addr = 0 := hrep.next_eq
          rw [insertLoop, if_neg (by simp [hnext]), if_pos hb]
          exact ⟨_, rfl, linkAfter_ok hrep hap hval hsize⟩
  | cons c rest ih =>
      cases fuel with
      | zero => omega
      | succ fuel =>
          obtain ⟨hnext, hc0, _⟩ := chain_cons.mp hrep.next_eq
          have hlist : u ++ b :: c :: rest = u ++ [b] ++ c :: rest := by simp
          rw [insertLoop, if_pos ⟨hb, by rw [hnext]; exact hc0⟩, hnext,
            hrep.size c (by simp), hsize]
          by_cases hle : m.size ≤ c.size
          · rw [if_pos hle, List.orderedInsert_cons_of_le Le rest hle]
            exact ⟨_, rfl, linkAfter_ok hrep hap hval hsize⟩
          · rw [if_neg hle, List.orderedInsert_of_not_le Le rest hle]
            rw [hlist] at hrep hap
            obtain ⟨h', hrun, hrep', hs⟩ := ih hrep hap hc0 (by simpa using hfuel)
            refine ⟨h', hrun, ?_, ?_⟩
            · simpa using hrep'
            · rw [hlist]
              exact hs

theorem length_lt_of_apart {l : List Blk} (hap : l.Pairwise Apart) (hval : ∀ c ∈ l, c.Valid) :
    l.length < walkFuel := by
  have hnd : (l.map Blk.addr).Nodup := by
    refine List.pairwise_map.mpr (hap.imp fun h e => ?_)
    have := h.headers
    omega
  have hsub : (l.map Blk.addr).toFinset ⊆ Finset.Ico 1 (2 ^ 64) := by
    intro a ha
    obtain ⟨c, hc, rfl⟩ := List.mem_map.mp (List.mem_toFinset.mp ha)
    have := (hval c hc).addr_lt
    have := (hval c hc).ne_zero
    rw [Finset.mem_Ico]
    omega
  have hcard := Finset.card_le_card hsub
  rw [List.toFinset_card_of_nodup hnd, List.length_map, Nat.card_Ico] at hcard
  rw [walkFuel]
  omega

theorem insertBlock_ok {h : Heap} {l : List Blk} {m : Blk} (hrep : Rep h l)
    (hap : (m :: l).Pairwise Apart) (hval : ∀ c ∈ m :: l, c.Valid)
    (hsize : h.size m.addr = m.size) :
    ∃ h', insertBlock h m.addr = some (h', m.addr) ∧ Rep h' (l.orderedInsert Le m) ∧
      SameOutside (m :: l) h h' := by
  have hmv := hval m List.mem_cons_self
  have hpush := pushFront_ok hrep hap hval hsize
  have hsame : SameOutside (m :: l) h
      { h.setNext m.addr h.sizeList with sizeList := m.addr } := fun x hx =>
    (sameOutside_setNext (by simp) : SameOutside (m :: l) h (h.setNext m.addr h.sizeList)) x hx
  rw [insertBlock]
  cases l with
  | nil =>
      have hhead : h.sizeList = 0 := hrep.chain
      rw [if_neg (by simp [hhead])]
      exact ⟨_, rfl, hpush, hsame⟩
  | cons b l =>
      obtain ⟨hhead, hb0, _⟩ := chain_cons.mp hrep.chain
      have hbsize : h.size h.sizeList = b.size := by
        rw [hhead]
        exact hrep.size b List.mem_cons_self
      rw [hbsize, hsize]
      by_cases hle : Le m b
      · rw [if_neg fun hlt => Nat.not_lt.mpr hle hlt.2, List.orderedInsert_cons_of_le Le l hle]
        exact ⟨_, rfl, hpush, hsame⟩
      · have hlen := length_lt_of_apart (List.pairwise_cons.mp hap).2 fun c hc =>
          hval c (List.mem_cons_of_mem m hc)
        rw [List.length_cons] at hlen
        obtain ⟨h', hrun, hrep', hs⟩ := insertLoop_ok (u := []) hrep hap hb0 hmv hsize
          (Nat.lt_of_succ_lt hlen)
        rw [if_pos ⟨by rw [hhead]; exact hb0, Nat.not_le.mp hle⟩,
          List.orderedInsert_of_not_le Le l hle, hhead, hrun]
        exact ⟨h', rfl, hrep', hs⟩

theorem addBlock_ok {h : Heap} {l : List Blk} {b : Blk} (hrep : Rep h l)
    (hap : (b :: l).Pairwise Apart) (hval : ∀ c ∈ b :: l, c.Valid) (hb : 8 ≤ b.size) :
    ∃ h' p, addBlock h b.addr (b.size + totalMetadataSize) = some (h', p) ∧
      Rep h' (addBlk l b) ∧ SameOutside (b :: l) h h' := by
  have hbv := hval b List.mem_cons_self
  have hbl : ∀ c ∈ l, b.Apart c := (List.pairwise_cons.mp hap).1
  have hlt : b.size < 2 ^ 64 := by
    have := hbv.le
    have := b.stop_eq
    have := hbv.ne_zero
    omega
  have hsize : (h.setSize b.addr b.size).size b.addr = b.size := Heap.size_setSize hlt
  have hs : SameOutside [b] h (h.setSize b.addr b.size) := sameOutside_setSize (by simp)
  have hrep₁ : Rep (h.setSize b.addr b.size) l := hrep.frame hs rfl fun c hc d hd => by
    rw [List.mem_singleton.mp hd]
    exact hbl c hc
  have hlen := length_lt_of_apart (List.pairwise_cons.mp hap).2 fun c hc =>
    hval c (List.mem_cons_of_mem b hc)
  have hinv : MergeInv b.addr b.stop [] l b (h.setSize b.addr b.size)
      (h.setSize b.addr b.size).sizeList :=
    ⟨hrep₁, hrep₁.chain, hsize, hap, hval, spans_self b⟩
  obtain ⟨h₁, hrun₁, hdone⟩ := mergeLoop_ok hinv hbv.ne_zero hlen
  have hmerged := mergeBlk_merged hap (spans_self b)
  have hsub : ∀ c ∈ (mergeBlk b.addr b.stop l b).1, c ∈ l := fun c hc => by
    rw [mergeBlk_fst] at hc
    exact List.mem_of_mem_filter hc
  have hval₁ : ∀ c ∈ (mergeBlk b.addr b.stop l b).2 :: (mergeBlk b.addr b.stop l b).1, c.Valid := by
    intro c hc
    rcases List.mem_cons.mp hc with rfl | hc
    · exact hdone.valid
    · exact hval c (List.mem_cons_of_mem b (hsub c hc))
  obtain ⟨h₂, hrun₂, hrep₂, hs₂⟩ := insertBlock_ok hdone.rep hmerged.apart hval₁ hdone.size
  refine ⟨h₂, (mergeBlk b.addr b.stop l b).2.addr, ?_, hrep₂, ?_⟩
  · rw [addBlock, if_neg (by simp only [minBlockSize, totalMetadataSize]; omega), Nat.add_sub_cancel]
    dsimp only
    rw [hsize, ← Blk.stop, ← parentOf_nil, hrun₁, Option.bind_some]
    exact hrun₂
  · refine (hs.mono fun c hc => ?_).trans (hdone.same.trans (hs₂.mono fun c hc => ?_))
    · rw [List.mem_singleton.mp hc]
      simp
    · rcases List.mem_cons.mp hc with rfl | hc
      · rcases hmerged.addr with e | ⟨f, hf, _, e⟩
        · simp [e]
        · rw [e]
          exact List.mem_map_of_mem (List.mem_cons_of_mem b hf)
      · exact List.mem_map_of_mem (List.mem_cons_of_mem b (hsub c hc))

/-! ## Taking a block -/

/-- What handing out a block leaves in the heap: the new free list, the size in
the block's header, and no write outside the headers. -/
structure Taken (h : Heap) (l : List Blk) (r : Blk × List Blk) (h' : Heap) : Prop where
  rep : Rep h' r.2
  size : h'.size r.1.addr = r.1.size
  same : SameOutside (r.1 :: l) h h'

theorem Blk.Valid.of_joins {a b m : Blk} (hm : m.Valid) (hj : Joins a b m) : a.Valid := by
  obtain ⟨h₁, h₂, h₃⟩ := hj
  have := b.stop_eq
  have := hm.le
  exact ⟨h₁ ▸ hm.ne_zero, by omega⟩

theorem removeBlock_ok {n : Nat} {h : Heap} {u v : List Blk} {b : Blk}
    (hrep : Rep h (u ++ b :: v)) (hl : FreeListInv (u ++ b :: v))
    (hval : ∀ c ∈ u ++ b :: v, c.Valid) (hfit : Fits n b) :
    ∃ h', removeBlock h b.addr (parentOf u) n =
        some (h', (carve n b (u ++ v)).1.addr + totalMetadataSize) ∧
      Taken h (u ++ b :: v) (carve n b (u ++ v)) h' := by
  have hun := unlink_ok hrep hl.apart fun c hc => hval c (List.mem_append_left _ hc)
  obtain ⟨_, hbv, hub⟩ := List.pairwise_append.mp hl.apart
  have hsize : (h.unlink b.addr (parentOf u)).size b.addr = b.size := by
    rw [hun.size b fun d hd => Or.inl (hub d hd b List.mem_cons_self), hrep.size b (by simp)]
  have hcarved := carve_carved hl hfit
  rw [removeBlock, hsize]
  rw [carve] at hcarved ⊢
  by_cases hexact : b.size = n
  · rw [if_pos hexact, if_pos hexact]
    refine ⟨_, rfl, hun.rep, hsize, hun.same.mono fun c hc => List.mem_map_of_mem ?_⟩
    simp [hc]
  · rw [if_neg hexact] at hcarved ⊢
    rw [if_neg hexact]
    have hn : n + minBlockSize ≤ b.size := hfit.resolve_left hexact
    have hj := joins_split hn
    have hbval := hval b (by simp)
    have hmem : ∀ c ∈ u ++ v, c ∈ u ++ b :: v := fun c hc =>
      (List.Sublist.append_left (List.sublist_cons_self b v) u).subset hc
    have hleft : (⟨b.addr, b.size - (n + totalMetadataSize)⟩ :: (u ++ v)).Pairwise Apart := by
      have hbuv := (pairwise_apart_perm List.perm_middle).mp hl.apart
      refine List.pairwise_cons.mpr ⟨fun c hc => apart_of_no_common fun x hx => ?_,
        (List.pairwise_cons.mp hbuv).2⟩
      exact ((List.pairwise_cons.mp hbuv).1 c hc).not_has (hj.has.mpr (Or.inl hx))
    obtain ⟨h', p, hrun, hrep', hs⟩ := addBlock_ok hun.rep hleft (fun c hc => by
      rcases List.mem_cons.mp hc with rfl | hc
      · exact hbval.of_joins hj
      · exact hval c (hmem c hc)) (le_carve hn)
    dsimp only at hrun hs hcarved ⊢
    rw [hrun, Option.map_some]
    have hlt : n < 2 ^ 64 := by
      have := hbval.le
      have := b.stop_eq
      have := hbval.ne_zero
      omega
    have hs' : SameOutside [⟨b.addr + totalMetadataSize + (b.size - (n + totalMetadataSize)), n⟩] h'
        (h'.setSize (b.addr + totalMetadataSize + (b.size - (n + totalMetadataSize))) n) :=
      sameOutside_setSize (by simp)
    refine ⟨_, rfl, hrep'.frame hs' rfl fun c hc d hd => ?_, Heap.size_setSize hlt, ?_⟩
    · rw [List.mem_singleton.mp hd]
      exact (List.pairwise_cons.mp hcarved.apart).1 c hc
    · refine (hun.same.mono fun c hc => ?_).trans
        ((hs.mono fun c hc => ?_).trans (hs'.mono fun c hc => ?_))
      · exact List.mem_map_of_mem (by simp [hc])
      · rcases List.mem_cons.mp hc with rfl | hc
        · simp
        · exact List.mem_map_of_mem (List.mem_cons_of_mem _ (hmem c hc))
      · rw [List.mem_singleton.mp hc]
        simp

theorem findFitLoop_ok {n fuel cur : Nat} {h : Heap} {u v : List Blk}
    (hrep : Rep h (u ++ v)) (hcur : Chain 0 h.next cur (v.map Blk.addr))
    (hl : FreeListInv (u ++ v)) (hval : ∀ c ∈ u ++ v, c.Valid)
    (hfuel : v.length < fuel) :
    (takeFit n v = none ∧ findFitLoop n fuel h cur (parentOf u) = some (h, 0)) ∨
      ∃ b r h', takeFit n v = some (b, r) ∧
        findFitLoop n fuel h cur (parentOf u) =
          some (h', (carve n b (u ++ r)).1.addr + totalMetadataSize) ∧
        Taken h (u ++ v) (carve n b (u ++ r)) h' := by
  induction v generalizing u cur fuel with
  | nil =>
      cases fuel with
      | zero => omega
      | succ fuel =>
          have hcur0 : cur = 0 := hcur
          rw [findFitLoop, if_pos hcur0]
          exact Or.inl ⟨rfl, rfl⟩
  | cons b v ih =>
      cases fuel with
      | zero => omega
      | succ fuel =>
          obtain ⟨rfl, hb0, hcur'⟩ := chain_cons.mp hcur
          rw [findFitLoop, if_neg hb0, hrep.size b (by simp), takeFit]
          by_cases hfit : Fits n b
          · obtain ⟨h', hrun, htaken⟩ := removeBlock_ok hrep hl hval hfit
            have htest : b.size = n ∨ b.size ≥ n + minBlockSize := hfit
            rw [if_pos hfit, if_pos htest]
            exact Or.inr ⟨b, v, h', rfl, hrun, htaken⟩
          · have htest : ¬ (b.size = n ∨ b.size ≥ n + minBlockSize) := hfit
            rw [if_neg hfit, if_neg htest]
            have hlist : u ++ b :: v = u ++ [b] ++ v := by simp
            rw [hlist] at hrep hl hval ⊢
            have hih := ih hrep hcur' hl hval (by simpa using hfuel)
            rw [parentOf_concat] at hih
            rcases hih with ⟨htake, hrun⟩ | ⟨c, r, h', htake, hrun, htaken⟩
            · exact Or.inl ⟨by rw [htake, Option.map_none], hrun⟩
            · have hr : u ++ b :: r = u ++ [b] ++ r := by simp
              refine Or.inr ⟨c, b :: r, h', by rw [htake, Option.map_some], ?_, ?_⟩
              · rw [hr]
                exact hrun
              · rw [hr]
                exact htaken

theorem findFitBlock_ok {n : Nat} {h : Heap} {l : List Blk} (hrep : Rep h l) (hl : FreeListInv l)
    (hval : ∀ c ∈ l, c.Valid) :
    (allocBlk l n = none ∧ findFitBlock h n = some (h, 0)) ∨
      ∃ r h', allocBlk l n = some r ∧
        findFitBlock h n = some (h', r.1.addr + totalMetadataSize) ∧ Taken h l r h' := by
  have hloop := findFitLoop_ok (n := n) (u := []) hrep hrep.chain hl hval
    (length_lt_of_apart hl.apart hval)
  simp only [parentOf_nil, List.nil_append] at hloop
  rw [findFitBlock, allocBlk]
  rcases hloop with ⟨htake, hrun⟩ | ⟨b, r, h', htake, hrun, htaken⟩
  · exact Or.inl ⟨by rw [htake, Option.map_none], hrun⟩
  · exact Or.inr ⟨carve n b r, h', by rw [htake, Option.map_some], hrun, htaken⟩

end Kmalloc
end GuideOS
