import GuideOS.Mem.PageAlloc.Init
import Mathlib.Algebra.BigOperators.Group.Finset.Basic

/-!
# The page allocator in memory

The functions of `page_alloc.c` again, on the memory itself: the links are words of the free
pages, and the bits are in the words of the bitmaps.  `Stored` says that a memory holds a state
of the allocator, as far as its own pages `F` go.  A call does in memory what it does on the
state, and writes to the bitmaps and to the first words of free pages only.
-/

namespace GuideOS
namespace PageAlloc

open Lib

namespace Kernel

def setList (k : Kernel) (order head size : Nat) : Kernel :=
  { k with pgallocBins := Function.update k.pgallocBins order { k.pgallocBins order with list := ⟨head, size⟩ } }

/-- `pg->next` -/
def next (k : Kernel) (pg : Nat) : Nat := load64 k.mem pg

def store (k : Kernel) (va v : Nat) : Kernel := { k with mem := store64 k.mem va v }

@[simp] theorem maxAddr_store (k : Kernel) (va v : Nat) : (k.store va v).maxAddr = k.maxAddr := rfl
@[simp] theorem pgallocBins_store (k : Kernel) (va v : Nat) : (k.store va v).pgallocBins = k.pgallocBins := rfl
@[simp] theorem zone_store (k : Kernel) (va v : Nat) : (k.store va v).zone = k.zone := rfl
@[simp] theorem mem_store (k : Kernel) (va v : Nat) : (k.store va v).mem = store64 k.mem va v := rfl

def test (k : Kernel) (order bitIndex : Nat) : Bool :=
  bitmapTest (bitmapAt k.mem (k.pgallocBins order).bitmap) bitIndex

/-- `bin->bitmap[bit_index / 32] ^= 1U << (bit_index % 32)` -/
def toggle (k : Kernel) (order bitIndex : Nat) : Kernel :=
  let p := (k.pgallocBins order).bitmap
  let word := bitmapAt k.mem p (bitIndex / 32) ^^^ (1#32 <<< (bitIndex % 32))
  { k with mem := storeLE k.mem ((p + 4 * (bitIndex / 32)) % 2 ^ 64) 4 word.toNat }

def link (k : Kernel) (order : Nat) : Option Nat → Nat
  | none => (k.pgallocBins order).list.head
  | some pg => k.next pg

def setLink (k : Kernel) (order : Nat) : Option Nat → Nat → Kernel
  | none, v => k.setList order v (k.pgallocBins order).list.size
  | some pg, v => k.store pg v

def findLink (k : Kernel) (order target : Nat) : Nat → Option Nat → Option (Option Nat)
  | 0, _ => none
  | fuel + 1, pCurrent =>
      if k.link order pCurrent ≠ 0 ∧ k.link order pCurrent ≠ target then
        findLink k order target fuel (some (k.link order pCurrent))
      else
        some pCurrent

def unlinkBuddy (k : Kernel) (pgidx order : Nat) : Except Panic Kernel :=
  let buddyVa := pageVa (pgidx ^^^ (1 <<< order))
  match k.findLink order buddyVa walkFuel none with
  | none => .error .loop
  | some pCurrent =>
      if k.link order pCurrent = buddyVa then
        let k' := k.setLink order pCurrent (k.next buddyVa)
        .ok (k'.setList order (k'.pgallocBins order).list.head ((k'.pgallocBins order).list.size - 1))
      else
        .error .buddyNotFound

def pushBlock (k : Kernel) (pgidx order : Nat) : Kernel :=
  let pgVa := pageVa pgidx
  let k' := k.store pgVa (k.pgallocBins order).list.head
  k'.setList order pgVa ((k'.pgallocBins order).list.size + 1)

def hasBuddy (k : Kernel) (pgidx order : Nat) : Bool :=
  if order = maxOrder then false else k.test order (pgidx >>> (order + 1))

theorem lt_of_hasBuddy {k : Kernel} {pgidx order : Nat} (ho : ¬maxOrder < order)
    (h : k.hasBuddy pgidx order = true) : order < maxOrder := by
  rcases Nat.lt_or_ge order maxOrder with hlt | hge
  · exact hlt
  · rw [hasBuddy, if_pos (by omega)] at h
    exact absurd h Bool.false_ne_true

def sFreeBlock (k : Kernel) (pgidx order : Nat) : Except Panic Kernel :=
  if ho : maxOrder < order then
    .error .badOrder
  else if pgidx &&& ((1 <<< order) - 1) ≠ 0 then
    .error .freeAlignment
  else if hb : k.hasBuddy pgidx order = true then
    match (k.toggle order (pgidx >>> (order + 1))).unlinkBuddy pgidx order with
    | .error e => .error e
    | .ok k' => sFreeBlock k' (pgidx &&& not64 ((1 <<< (order + 1)) - 1)) (order + 1)
  else
    .ok ((k.toggle order (pgidx >>> (order + 1))).pushBlock pgidx order)
termination_by maxOrder - order
decreasing_by
  have := lt_of_hasBuddy ho hb
  omega

def popBlock (k : Kernel) (order : Nat) : Nat × Kernel :=
  let pg := (k.pgallocBins order).list.head
  let pgidx := pgIndex (kv2p pg)
  let k' := k.setList order (k.next pg) ((k.pgallocBins order).list.size - 1)
  (pg, k'.toggle order (pgidx >>> (order + 1)))

def sAllocBlock (k : Kernel) (order : Nat) : Except Panic (Nat × Kernel) :=
  if maxOrder < order then
    .ok (0, k)
  else if (k.pgallocBins order).list.size ≠ 0 then
    .ok (k.popBlock order)
  else
    match sAllocBlock k (order + 1) with
    | .error e => .error e
    | .ok (largePage, k') =>
        if largePage = 0 then
          .ok (0, k')
        else
          match k'.sFreeBlock (pgIndex (kv2p ((largePage + (pgSize <<< order)) % 2 ^ 64))) order with
          | .error e => .error e
          | .ok k'' => .ok (largePage, k'')
termination_by maxOrder + 1 - order

def freeRangeLoop (k : Kernel) (startPgidx endPgidx : Nat) : Except Panic Kernel :=
  if startPgidx < endPgidx then
    match pickOrder startPgidx endPgidx maxOrder with
    | none => .error .loop
    | some pgOrder =>
        match k.sFreeBlock startPgidx pgOrder with
        | .error e => .error e
        | .ok k' => freeRangeLoop k' (startPgidx + (1 <<< pgOrder)) endPgidx
  else
    .ok k
termination_by endPgidx - startPgidx
decreasing_by
  rw [Nat.one_shiftLeft]
  have := Nat.two_pow_pos pgOrder
  omega

def pgallocFreeRange (k : Kernel) (startVa endVa : Nat) : Except Panic Kernel :=
  k.freeRangeLoop (rangeStart startVa) (rangeEnd endVa)

def pgallocAllocate (k : Kernel) (order : Int) : Except Panic (Nat × Kernel) :=
  if order < 0 then .ok (0, k) else k.sAllocBlock order.toNat

def pgallocFree (k : Kernel) (addr order : Nat) : Except Panic Kernel :=
  k.sFreeBlock (pgIndex (kv2p addr)) order

end Kernel

/-! ## Where the allocator writes -/

/-- The byte that holds a bit, and which of its bits it is -/
def Kernel.place (k : Kernel) (order bitIndex : Nat) : Nat × Nat :=
  (((k.pgallocBins order).bitmap + 4 * (bitIndex / 32)) % 2 ^ 64 + bitIndex % 32 / 8, bitIndex % 8)

/-- The end of the memory below the limit that has an address in the kernel's half -/
def Kernel.limit (k : Kernel) : Nat := min k.maxAddr (2 ^ 64 - kernBase)

/-- A byte of a word that holds the bit of a page -/
def InBitmaps (k : Kernel) (b : Nat) : Prop :=
  ∃ o ≤ maxOrder, ∃ i, (i + 1) * pgSize ≤ k.maxAddr ∧ wordAddr k o i ≤ b ∧ b < wordAddr k o i + 4

/-- No two blocks in `F`, apart from each other and of different orders, have their bits at one place. -/
def NoClash (F : Finset Nat) (k : Kernel) : Prop :=
  ∀ o o' i i', o < o' → o' ≤ maxOrder → 2 ^ o ∣ i → 2 ^ o' ∣ i' → block i o ⊆ F → block i' o' ⊆ F →
    Disjoint (block i o) (block i' o') → k.place o (i >>> (o + 1)) ≠ k.place o' (i' >>> (o' + 1))

/-- The pages `F` of the allocator lie below the limit and apart from the bitmaps. -/
structure Layout (F : Finset Nat) (k : Kernel) : Prop where
  below : ∀ p ∈ F, (p + 1) * pgSize ≤ k.limit
  apart : ∀ b, InBitmaps k b → ∀ p ∈ F, b < pageVa p ∨ pageVa p + pgSize ≤ b
  noClash : NoClash F k

/-- The bitmaps stay where they are, and what changes in memory is in the bitmaps and in the first
words of the pages `W`. -/
structure Writes (W : Finset Nat) (k k' : Kernel) : Prop where
  maxAddr : k'.maxAddr = k.maxAddr
  bitmap : ∀ o, (k'.pgallocBins o).bitmap = (k.pgallocBins o).bitmap
  zone : k'.zone = k.zone
  mem : ∀ b, ¬InBitmaps k b → (∀ p ∈ W, b < pageVa p ∨ pageVa p + 8 ≤ b) → k'.mem b = k.mem b

/-- Only the first words of the pages `W` change. -/
structure Relinks (W : Finset Nat) (k k' : Kernel) : Prop where
  maxAddr : k'.maxAddr = k.maxAddr
  bitmap : ∀ o, (k'.pgallocBins o).bitmap = (k.pgallocBins o).bitmap
  zone : k'.zone = k.zone
  mem : ∀ b, (∀ p ∈ W, b < pageVa p ∨ pageVa p + 8 ≤ b) → k'.mem b = k.mem b

/-- Besides, the bit at `q` flips, and no other bit. -/
structure Flips (q : Nat × Nat) (W : Finset Nat) (k k' : Kernel) : Prop extends Writes W k k' where
  test : ∀ o ≤ maxOrder, ∀ i, (i + 1) * pgSize ≤ k.maxAddr →
    k'.test o (i >>> (o + 1)) = (k.test o (i >>> (o + 1)) ^^ decide (k.place o (i >>> (o + 1)) = q))

/-- The memory holds the lists of the state `s`. -/
structure Links (F : Finset Nat) (k : Kernel) (s : State) : Prop where
  maxAddr : s.maxAddr = k.limit
  list : ∀ o, (k.pgallocBins o).list = (s.bin o).list
  next : ∀ p ∈ F, k.next (pageVa p) = s.next (pageVa p)

/-- How many blocks of the lists have their bit at a place -/
def marks (k : Kernel) (l : Nat → List Nat) (q : Nat × Nat) : Nat :=
  ∑ o ∈ Finset.range (maxOrder + 1), (l o).countP fun i => k.place o (i >>> (o + 1)) = q

/-- A bit says whether the blocks on the lists that have it are odd in number. -/
def Marked (k : Kernel) (l : Nat → List Nat) : Prop :=
  ∀ o ≤ maxOrder, ∀ i, (i + 1) * pgSize ≤ k.maxAddr →
    k.test o (i >>> (o + 1)) = decide (marks k l (k.place o (i >>> (o + 1))) % 2 = 1)

/-- The memory holds the state `s`. -/
structure Stored (F : Finset Nat) (k : Kernel) (s : State) : Prop where
  links : Links F k s
  marked : Marked k (freeList s)

section

variable {F W W' : Finset Nat} {k k' k'' : Kernel} {s s' : State} {l l' : Nat → List Nat} {o i p v : Nat}

theorem Kernel.limit_fit (k : Kernel) : kernBase + k.limit ≤ 2 ^ 64 := by
  have hbase : kernBase = 0xFFFF800000000000 := rfl
  rw [Kernel.limit]
  omega

theorem Kernel.limit_le (k : Kernel) : k.limit ≤ k.maxAddr := Nat.min_le_left _ _

theorem wordAddr_congr (hbitmap : ∀ o, (k'.pgallocBins o).bitmap = (k.pgallocBins o).bitmap) (o i : Nat) :
    wordAddr k' o i = wordAddr k o i := by
  rw [wordAddr, wordAddr, hbitmap]

theorem Kernel.place_congr (hbitmap : ∀ o, (k'.pgallocBins o).bitmap = (k.pgallocBins o).bitmap) (o j : Nat) :
    k'.place o j = k.place o j := by
  rw [Kernel.place, Kernel.place, hbitmap]

theorem noClash_congr (hbitmap : ∀ o, (k'.pgallocBins o).bitmap = (k.pgallocBins o).bitmap) :
    NoClash F k' ↔ NoClash F k := by
  simp only [NoClash, Kernel.place_congr hbitmap]

theorem inBitmaps_congr (hmax : k'.maxAddr = k.maxAddr)
    (hbitmap : ∀ o, (k'.pgallocBins o).bitmap = (k.pgallocBins o).bitmap) (b : Nat) :
    InBitmaps k' b ↔ InBitmaps k b := by
  simp only [InBitmaps, hmax, wordAddr_congr hbitmap]

theorem Writes.inBitmaps (h : Writes W k k') (b : Nat) : InBitmaps k' b ↔ InBitmaps k b :=
  inBitmaps_congr h.maxAddr h.bitmap b

theorem Writes.refl (W : Finset Nat) (k : Kernel) : Writes W k k := ⟨rfl, fun _ => rfl, rfl, fun _ _ _ => rfl⟩

theorem Writes.trans (h : Writes W k k') (h' : Writes W' k' k'') (hW : W' ⊆ W) : Writes W k k'' where
  maxAddr := h'.maxAddr.trans h.maxAddr
  bitmap o := (h'.bitmap o).trans (h.bitmap o)
  zone := h'.zone.trans h.zone
  mem b hb hp :=
    (h'.mem b (fun h' => hb ((h.inBitmaps b).mp h')) fun p hp' => hp p (hW hp')).trans (h.mem b hb hp)

theorem Relinks.trans (h : Relinks W k k') (h' : Relinks W k' k'') : Relinks W k k'' where
  maxAddr := h'.maxAddr.trans h.maxAddr
  bitmap o := (h'.bitmap o).trans (h.bitmap o)
  zone := h'.zone.trans h.zone
  mem b hb := (h'.mem b hb).trans (h.mem b hb)

theorem Relinks.writes (h : Relinks W k k') : Writes W k k' :=
  ⟨h.maxAddr, h.bitmap, h.zone, fun b _ hp => h.mem b hp⟩

theorem Layout.congr (hl : Layout F k) (hmax : k'.maxAddr = k.maxAddr)
    (hbitmap : ∀ o, (k'.pgallocBins o).bitmap = (k.pgallocBins o).bitmap) : Layout F k' where
  below p hp := by
    rw [Kernel.limit, hmax]
    exact hl.below p hp
  apart b hb := hl.apart b ((inBitmaps_congr hmax hbitmap b).mp hb)
  noClash := (noClash_congr hbitmap).mpr hl.noClash

theorem Layout.writes (hl : Layout F k) (h : Writes W k k') : Layout F k' := hl.congr h.maxAddr h.bitmap

theorem Layout.below_maxAddr (hl : Layout F k) (hp : p ∈ F) : (p + 1) * pgSize ≤ k.maxAddr :=
  (hl.below p hp).trans k.limit_le

theorem Kernel.test_eq (k : Kernel) (o j : Nat) : k.test o j = bitAt k.mem (k.place o j) := by
  have hbit := getLsbD_load32 k.mem (((k.pgallocBins o).bitmap + 4 * (j / 32)) % 2 ^ 64) (Nat.mod_lt j (show 0 < 32 by decide))
  rw [Nat.mod_mod_of_dvd j (show 8 ∣ 32 by decide)] at hbit
  rw [Kernel.test, bitmapTest_eq_getLsbD]
  exact hbit

/-- The byte of a bit is a byte of the bitmaps. -/
theorem inBitmaps_place (ho : o ≤ maxOrder) (hi : (i + 1) * pgSize ≤ k.maxAddr) :
    InBitmaps k (k.place o (i >>> (o + 1))).1 := by
  refine ⟨o, ho, i, hi, ?_⟩
  rw [wordAddr, Kernel.place]
  dsimp only
  omega

/-- Bits of separate words are at two places. -/
theorem Separate.noClash (h : Separate k) (hF : ∀ p ∈ F, (p + 1) * pgSize ≤ k.maxAddr) : NoClash F k := by
  intro o o' i i' hlt ho' _ _ hblock hblock' _ heq
  have hsep := h o o' hlt ho' i i' (hF i (hblock (self_mem_block i o))) (hF i' (hblock' (self_mem_block i' o')))
  rw [wordAddr, wordAddr] at hsep
  rw [Kernel.place, Kernel.place, Prod.mk.injEq] at heq
  omega

/-! ## Counting the blocks that share a place -/

theorem marks_congr (hbitmap : ∀ o, (k'.pgallocBins o).bitmap = (k.pgallocBins o).bitmap)
    (hlists : ∀ o ≤ maxOrder, l' o = l o) (q : Nat × Nat) : marks k' l' q = marks k l q := by
  refine Finset.sum_congr rfl fun o ho => ?_
  rw [hlists o (by rw [Finset.mem_range] at ho; omega)]
  simp only [Kernel.place_congr hbitmap]

theorem marks_update (ho : o ≤ maxOrder) (m : List Nat) (q : Nat × Nat) :
    marks k (Function.update l o m) q + ((l o).countP fun i => k.place o (i >>> (o + 1)) = q) =
      marks k l q + m.countP fun i => k.place o (i >>> (o + 1)) = q := by
  have hmem : o ∈ Finset.range (maxOrder + 1) := by
    rw [Finset.mem_range]
    omega
  have hrest : ∀ o' ∈ (Finset.range (maxOrder + 1)).erase o,
      ((Function.update l o m o').countP fun i => k.place o' (i >>> (o' + 1)) = q) =
        (l o').countP fun i => k.place o' (i >>> (o' + 1)) = q := fun o' ho' => by
    rw [Function.update_of_ne (Finset.ne_of_mem_erase ho')]
  rw [marks, marks, ← Finset.add_sum_erase _ _ hmem, ← Finset.add_sum_erase _ _ hmem, Finset.sum_congr rfl hrest,
    Function.update_self]
  omega

theorem marks_cons (ho : o ≤ maxOrder) (q : Nat × Nat) :
    marks k (Function.update l o (i :: l o)) q =
      marks k l q + if k.place o (i >>> (o + 1)) = q then 1 else 0 := by
  have h := marks_update (k := k) (l := l) ho (i :: l o) q
  rw [List.countP_cons] at h
  simp only [decide_eq_true_eq] at h
  omega

theorem marks_erase (ho : o ≤ maxOrder) (hi : i ∈ l o) (q : Nat × Nat) :
    marks k l q = marks k (Function.update l o ((l o).erase i)) q +
      if k.place o (i >>> (o + 1)) = q then 1 else 0 := by
  have h := marks_update (k := k) (l := l) ho ((l o).erase i) q
  rw [(List.perm_cons_erase hi).countP_eq, List.countP_cons] at h
  simp only [decide_eq_true_eq] at h
  omega

/-- Two bits of one bitmap are at two places. -/
theorem Kernel.place_inj {j j' : Nat} (hj : j < 2 ^ 60) (hj' : j' < 2 ^ 60) :
    k.place o j = k.place o j' ↔ j = j' := by
  constructor
  · intro h
    rw [Kernel.place, Kernel.place, Prod.mk.injEq] at h
    omega
  · rintro rfl
    rfl

theorem shiftRight_lt (hi : (i + 1) * pgSize ≤ 2 ^ 64) : i >>> (o + 1) < 2 ^ 60 := by
  have hle : i >>> (o + 1) ≤ i := by
    rw [Nat.shiftRight_eq_div_pow]
    exact Nat.div_le_self _ _
  rw [pgSize] at hi
  omega

/-- The blocks that share the place of a block which is not free are of its pair. -/
theorem Layout.marks_eq (hl : Layout F k) (hinv : Inv s l) (hlists : ∀ p ∈ cover (OnList l), p ∈ F)
    (ho : o ≤ maxOrder) (hi : 2 ^ o ∣ i) (hblock : ∀ p ∈ block i o, p ∈ F)
    (hfree : ∀ p ∈ block i o, p ∉ cover (OnList l)) :
    marks k l (k.place o (i >>> (o + 1))) = pairCount (l o) o (i / 2 ^ (o + 1)) := by
  have hfit := k.limit_fit
  have hsmall : ∀ j ∈ F, j >>> (o + 1) < 2 ^ 60 := fun j hj => by
    have := hl.below j hj
    exact shiftRight_lt (by omega)
  have hon : ∀ o' ≤ maxOrder, ∀ j ∈ l o', ∀ p ∈ block j o', p ∈ cover (OnList l) := fun o' ho' j hj p hp =>
    ⟨o', j, ⟨ho', hj⟩, hp⟩
  rw [marks, Finset.sum_eq_single o]
  · refine List.countP_congr fun j hj => ?_
    have hjF := hlists j (hon o ho j hj j (self_mem_block j o))
    rw [decide_eq_true_eq, decide_eq_true_eq, Kernel.place_inj (hsmall j hjF) (hsmall i (hblock i (self_mem_block i o))),
      Nat.shiftRight_eq_div_pow, Nat.shiftRight_eq_div_pow]
  · intro o' ho' hne
    rw [Finset.mem_range] at ho'
    rw [List.countP_eq_zero]
    intro j hj
    rw [decide_eq_true_eq]
    have hjl := hinv.aligned o' (by omega) j hj
    have hjF : block j o' ⊆ F := fun p hp => hlists p (hon o' (by omega) j hj p hp)
    have hdisj : Disjoint (block i o) (block j o') :=
      Finset.disjoint_left.mpr fun p hp hp' => hfree p hp (hon o' (by omega) j hj p hp')
    rcases Nat.lt_or_gt_of_ne hne with hlt | hgt
    · exact hl.noClash o' o j i hlt ho hjl hi hjF hblock hdisj.symm
    · exact (hl.noClash o o' i j hgt (by omega) hi hjl hblock hjF hdisj).symm
  · intro hno
    exact absurd (Finset.mem_range.mpr (by omega)) hno

/-- The bit of a block that is not free says whether its buddy is on the list. -/
theorem Stored.bit (hs : Stored F k s) (hl : Layout F k) (hinv : Inv s l) (hlists : ∀ p ∈ cover (OnList l), p ∈ F)
    (ho : o ≤ maxOrder) (hi : 2 ^ o ∣ i) (hblock : ∀ p ∈ block i o, p ∈ F)
    (hfree : ∀ p ∈ block i o, p ∉ cover (OnList l)) :
    k.test o (i >>> (o + 1)) = bitmapTest (s.bin o).bitmap (i >>> (o + 1)) := by
  have hmarks := hl.marks_eq hinv hlists ho hi hblock hfree
  rw [hs.marked o ho i (hl.below_maxAddr (hblock i (self_mem_block i o))),
    marks_congr (fun _ => rfl) (fun o' ho' => hinv.freeList_eq ho'), hmarks, Nat.shiftRight_eq_div_pow,
    hinv.parity o ho]

/-- A bit flips as the count changes by one block. -/
theorem Marked.flips {q : Nat × Nat} (hm : Marked k l) (hf : Flips q W k k')
    (hmarks : ∀ q', marks k l' q' % 2 = (marks k l q' + if q = q' then 1 else 0) % 2) : Marked k' l' := by
  intro o ho i hi
  rw [hf.maxAddr] at hi
  rw [hf.test o ho i hi, toggle_parity (hm o ho i hi), Kernel.place_congr hf.bitmap,
    marks_congr (l := l') hf.bitmap (fun _ _ => rfl), hmarks]

theorem Marked.congr (hm : Marked k l) (hlists : ∀ o ≤ maxOrder, l' o = l o) : Marked k l' := by
  intro o ho i hi
  rw [hm o ho i hi, marks_congr (fun _ => rfl) hlists]

/-- The bits stay where only other bytes change. -/
theorem Marked.setMem (hm : Marked k l) {mem : Bytes} (hmaps : ∀ b, InBitmaps k b → mem b = k.mem b) :
    Marked { k with mem := mem } l := by
  intro o ho i hi
  have hplace : Kernel.place { k with mem := mem } o (i >>> (o + 1)) = k.place o (i >>> (o + 1)) := rfl
  have hmarks : ∀ q, marks { k with mem := mem } l q = marks k l q := fun _ => rfl
  have hbit := hm o ho i hi
  rw [Kernel.test_eq, bitAt] at hbit ⊢
  rw [hplace, hmarks, ← hbit]
  show (mem _).getLsbD _ = _
  rw [hmaps _ (inBitmaps_place ho hi)]

theorem Stored.lists (hs : Stored F k s) (hinv : Inv s l) : Marked k l :=
  hs.marked.congr fun _ ho => (hinv.freeList_eq ho).symm

theorem Links.stored (h : Links F k s) (hinv : Inv s l) (hm : Marked k l) : Stored F k s :=
  ⟨h, hm.congr fun _ ho => hinv.freeList_eq ho⟩

/-- A block goes on its list and its bit flips. -/
theorem Stored.push (hs : Stored F k s) (hinv : Inv s l) (ho : o ≤ maxOrder) (h : Links F k' s')
    (hf : Flips (k.place o (i >>> (o + 1))) W k k') (hinv' : Inv s' (Function.update l o (i :: l o))) :
    Stored F k' s' := by
  refine h.stored hinv' ((hs.lists hinv).flips hf fun q => ?_)
  rw [marks_cons ho]

/-- A block goes off its list and its bit flips. -/
theorem Stored.remove (hs : Stored F k s) (hinv : Inv s l) (ho : o ≤ maxOrder) (hi : i ∈ l o) (h : Links F k' s')
    (hf : Flips (k.place o (i >>> (o + 1))) W k k') (hinv' : Inv s' (Function.update l o ((l o).erase i))) :
    Stored F k' s' := by
  refine h.stored hinv' ((hs.lists hinv).flips hf fun q => ?_)
  rw [marks_erase ho hi q]
  omega

/-! ## One access -/

/-- `toggle` flips its bit. -/
theorem Kernel.test_toggle (k : Kernel) (o j o' j' : Nat) :
    (k.toggle o j).test o' j' = (k.test o' j' ^^ decide (k.place o' j' = k.place o j)) := by
  have hflip := bitAt_flip32 k.mem (((k.pgallocBins o).bitmap + 4 * (j / 32)) % 2 ^ 64) (Nat.mod_lt j (show 0 < 32 by decide))
    (Nat.mod_lt j' (show 0 < 8 by decide)) (b := (k.place o' j').1)
  rw [Nat.mod_mod_of_dvd j (show 8 ∣ 32 by decide)] at hflip
  rw [Kernel.test_eq, Kernel.test_eq]
  exact hflip

theorem toggle_flips (ho : o ≤ maxOrder) (hi : (i + 1) * pgSize ≤ k.maxAddr) (W : Finset Nat) :
    Flips (k.place o (i >>> (o + 1))) W k (k.toggle o (i >>> (o + 1))) where
  maxAddr := rfl
  bitmap _ := rfl
  zone := rfl
  mem b hb _ := by
    refine storeLE_outside ?_
    by_contra hin
    refine hb ⟨o, ho, i, hi, ?_⟩
    rw [wordAddr]
    omega
  test o' _ i' _ := k.test_toggle o (i >>> (o + 1)) o' (i' >>> (o' + 1))

theorem Links.toggle (h : Links F k s) (hl : Layout F k) (ho : o ≤ maxOrder) (hi : (i + 1) * pgSize ≤ k.maxAddr) :
    Links F (k.toggle o (i >>> (o + 1))) (s.toggle o (i >>> (o + 1))) where
  maxAddr := h.maxAddr
  list o' := by
    by_cases heq : o' = o
    · subst heq
      rw [State.list_toggle]
      exact h.list o'
    · rw [State.bin_toggle_of_ne _ _ heq]
      exact h.list o'
  next p hp := by
    rw [State.next_toggle, ← h.next p hp]
    refine load64_congr fun b hb hb' => (toggle_flips ho hi ∅).mem b (fun hin => ?_) fun q hq => absurd hq (Finset.notMem_empty q)
    have := hl.apart b hin p hp
    rw [pgSize] at this
    omega

/-- The links of free pages are apart from the bits. -/
theorem Relinks.test (h : Relinks W k k') (hW : ∀ b, InBitmaps k b → ∀ p ∈ W, b < pageVa p ∨ pageVa p + pgSize ≤ b)
    (ho : o ≤ maxOrder) (hi : (i + 1) * pgSize ≤ k.maxAddr) :
    k'.test o (i >>> (o + 1)) = k.test o (i >>> (o + 1)) := by
  rw [Kernel.test_eq, Kernel.test_eq, Kernel.place_congr h.bitmap, bitAt, bitAt, h.mem _ fun p hp => ?_]
  have := hW _ (inBitmaps_place ho hi) p hp
  rw [pgSize] at this
  omega

theorem Layout.apart_of_subset (hl : Layout F k) (hW : W ⊆ F) :
    ∀ b, InBitmaps k b → ∀ p ∈ W, b < pageVa p ∨ pageVa p + pgSize ≤ b := fun b hb p hp => hl.apart b hb p (hW hp)

theorem Flips.relinks {q : Nat × Nat} (hf : Flips q W k k') (h : Relinks W k' k'') (hl : Layout F k) (hW : W ⊆ F) :
    Flips q W k k'' where
  toWrites := hf.toWrites.trans h.writes (Finset.Subset.refl W)
  test o ho i hi := by
    rw [h.test ((hl.writes hf.toWrites).apart_of_subset hW) ho (by rw [hf.maxAddr]; exact hi), hf.test o ho i hi]

theorem Relinks.flips {q : Nat × Nat} (h : Relinks W k k') (hf : Flips q W k' k'') (hl : Layout F k) (hW : W ⊆ F) :
    Flips q W k k'' where
  toWrites := h.writes.trans hf.toWrites (Finset.Subset.refl W)
  test o ho i hi := by
    rw [hf.test o ho i (by rw [h.maxAddr]; exact hi), h.test (hl.apart_of_subset hW) ho hi,
      Kernel.place_congr h.bitmap]

theorem Kernel.setList_list (k : Kernel) (o head size o' : Nat) :
    ((k.setList o head size).pgallocBins o').list = if o' = o then ⟨head, size⟩ else (k.pgallocBins o').list := by
  rw [Kernel.setList]
  simp only
  split
  · rename_i heq
    rw [heq, Function.update_self]
  · rename_i hne
    rw [Function.update_of_ne hne]

theorem Kernel.setList_bitmap (k : Kernel) (o head size o' : Nat) :
    ((k.setList o head size).pgallocBins o').bitmap = (k.pgallocBins o').bitmap := by
  rw [Kernel.setList]
  simp only
  by_cases heq : o' = o
  · rw [heq, Function.update_self]
  · rw [Function.update_of_ne heq]

theorem setList_relinks (W : Finset Nat) (k : Kernel) (o head size : Nat) : Relinks W k (k.setList o head size) :=
  ⟨rfl, k.setList_bitmap o head size, rfl, fun _ _ => rfl⟩

theorem Links.setList (h : Links F k s) (o head size : Nat) :
    Links F (k.setList o head size) (s.setList o head size) where
  maxAddr := h.maxAddr
  list o' := by
    rw [Kernel.setList_list]
    split
    · rename_i heq
      rw [heq, State.list_setList]
    · rename_i hne
      rw [State.bin_setList_of_ne _ _ _ hne]
      exact h.list o'
  next := h.next

theorem store_relinks (hp : p ∈ W) (k : Kernel) (v : Nat) : Relinks W k (k.store (pageVa p) v) where
  maxAddr := k.maxAddr_store _ v
  bitmap o := by rw [Kernel.pgallocBins_store]
  zone := k.zone_store _ v
  mem b h := by
    rw [Kernel.mem_store]
    exact store64_outside (h p hp)

theorem Links.store (h : Links F k s) (hl : Layout F k) (hp : p ∈ F) (hv : v < 2 ^ 64) :
    Links F (k.store (pageVa p) v) (s.store (pageVa p) v) where
  maxAddr := by
    rw [State.maxAddr_store, Kernel.limit, Kernel.maxAddr_store]
    exact h.maxAddr
  list o := by
    rw [Kernel.pgallocBins_store, State.bin_store]
    exact h.list o
  next q hq := by
    have hfit := k.limit_fit
    rw [State.next_store, Kernel.next, Kernel.mem_store]
    by_cases heq : q = p
    · rw [heq, Function.update_self]
      exact load64_store64 k.mem hv
    · have hva : pageVa q ≠ pageVa p := fun e => heq (pageVa_inj hfit (hl.below q hq) (hl.below p hp) e)
      rw [Function.update_of_ne hva, ← h.next q hq, Kernel.next]
      refine load64_congr fun b hb hb' => store64_outside ?_
      rw [pageVa_eq hfit (hl.below q hq)] at hb hb'
      rw [pageVa_eq hfit (hl.below p hp)]
      rw [pgSize] at hb hb' ⊢
      omega

/-! ## The functions -/

theorem Links.link (h : Links F k s) {pc : Option Nat} (hpc : ∀ va, pc = some va → ∃ p ∈ F, va = pageVa p)
    (o : Nat) : k.link o pc = s.link o pc := by
  cases pc with
  | none => rw [Kernel.link, State.link, h.list]
  | some va =>
      obtain ⟨p, hp, hva⟩ := hpc va rfl
      rw [Kernel.link, State.link, hva, h.next p hp]

/-- The walk over a list of pages goes the same way. -/
theorem Links.findLink (h : Links F k s) {L : List Nat} (hL : ∀ p ∈ L, p ∈ F) {pc : Option Nat}
    (hchain : Chain 0 s.next (s.link o pc) (L.map pageVa)) (hpc : ∀ va, pc = some va → ∃ p ∈ F, va = pageVa p)
    (target fuel : Nat) : k.findLink o target fuel pc = PageAlloc.findLink s o target fuel pc := by
  induction fuel generalizing pc L with
  | zero => rfl
  | succ fuel ih =>
      rw [Kernel.findLink, PageAlloc.findLink, h.link hpc]
      split
      · rename_i hnext
        cases L with
        | nil => exact absurd hchain hnext.1
        | cons a L =>
            rw [List.forall_mem_cons] at hL
            rw [List.map_cons, chain_cons] at hchain
            obtain ⟨hlink, _, hrest⟩ := hchain
            rw [hlink]
            refine ih hL.2 hrest fun va hva => ⟨a, hL.1, ?_⟩
            exact (Option.some.inj hva).symm
      · rfl

/-- The walk ends at a link of the list. -/
theorem findLink_mem {L : List Nat} {target fuel : Nat} {pc pc' : Option Nat}
    (hchain : Chain 0 s.next (s.link o pc) (L.map pageVa)) (hfind : PageAlloc.findLink s o target fuel pc = some pc') :
    pc' = pc ∨ ∃ p ∈ L, pc' = some (pageVa p) := by
  induction fuel generalizing pc L with
  | zero => cases hfind
  | succ fuel ih =>
      rw [PageAlloc.findLink] at hfind
      split at hfind
      · rename_i hnext
        cases L with
        | nil => exact absurd hchain hnext.1
        | cons a L =>
            rw [List.map_cons, chain_cons] at hchain
            obtain ⟨hlink, _, hrest⟩ := hchain
            rw [hlink] at hfind
            have hrest' : Chain 0 s.next (s.link o (some (pageVa a))) (L.map pageVa) := hrest
            rcases ih hrest' hfind with hpc | ⟨p, hp, hpc⟩
            · exact Or.inr ⟨a, List.mem_cons_self, hpc⟩
            · exact Or.inr ⟨p, List.mem_cons_of_mem a hp, hpc⟩
      · exact Or.inl (Option.some.inj hfind).symm

theorem Links.setLink (h : Links F k s) (hl : Layout F k) {pc : Option Nat}
    (hpc : ∀ va, pc = some va → ∃ p ∈ W, va = pageVa p) (hW : W ⊆ F) (hv : v < 2 ^ 64) (o : Nat) :
    Links F (k.setLink o pc v) (s.setLink o pc v) ∧ Relinks W k (k.setLink o pc v) := by
  cases pc with
  | none =>
      rw [Kernel.setLink, State.setLink, h.list]
      exact ⟨h.setList o v _, setList_relinks W k o v _⟩
  | some va =>
      obtain ⟨p, hp, hva⟩ := hpc va rfl
      rw [Kernel.setLink, State.setLink, hva]
      exact ⟨h.store hl (hW hp) hv, store_relinks hp k v⟩

theorem Links.unlinkBuddy {L : List Nat} (h : Links F k s) (hl : Layout F k) (hL : ∀ p ∈ L, p ∈ W)
    (hW : W ⊆ F) (hchain : Chain 0 s.next (s.bin o).list.head (L.map pageVa)) (hb : i ^^^ (1 <<< o) ∈ L)
    (hok : PageAlloc.unlinkBuddy s i o = .ok s') :
    ∃ k', k.unlinkBuddy i o = .ok k' ∧ Links F k' s' ∧ Relinks W k k' := by
  have hnone : ∀ va, (none : Option Nat) = some va → ∃ p ∈ F, va = pageVa p := fun va hva => by cases hva
  have hfind : ∀ target fuel, k.findLink o target fuel none = PageAlloc.findLink s o target fuel none :=
    h.findLink (fun p hp => hW (hL p hp)) hchain hnone
  cases hpc : PageAlloc.findLink s o (pageVa (i ^^^ (1 <<< o))) walkFuel none with
  | none =>
      simp only [PageAlloc.unlinkBuddy, hpc] at hok
      cases hok
  | some pc =>
      simp only [PageAlloc.unlinkBuddy, hpc] at hok
      simp only [Kernel.unlinkBuddy, hfind, hpc]
      have hmem : ∀ va, pc = some va → ∃ p ∈ W, va = pageVa p := by
        intro va hva
        rcases findLink_mem hchain hpc with rfl | ⟨p, hp, rfl⟩
        · cases hva
        · exact ⟨p, hL p hp, (Option.some.inj hva).symm⟩
      have hlinks : k.link o pc = s.link o pc :=
        h.link (fun va hva => (hmem va hva).imp fun p hp => ⟨hW hp.1, hp.2⟩) o
      rw [hlinks]
      split at hok
      · rename_i hlink
        rw [if_pos hlink]
        have hbuddy := h.next _ (hW (hL _ hb))
        obtain ⟨hset, hrelinks⟩ := h.setLink hl hmem hW (load64_lt k.mem (pageVa (i ^^^ (1 <<< o)))) o
        rw [← Kernel.next, hbuddy] at hset hrelinks
        rw [hbuddy, hset.list]
        cases hok
        exact ⟨_, rfl, hset.setList o _ _, hrelinks.trans (setList_relinks W _ o _ _)⟩
      · cases hok

theorem Links.pushBlock (h : Links F k s) (hl : Layout F k) (hi : i ∈ W) (hW : W ⊆ F)
    (hhead : (s.bin o).list.head < 2 ^ 64) :
    Links F (k.pushBlock i o) (PageAlloc.pushBlock s i o) ∧ Relinks W k (k.pushBlock i o) := by
  have hstore := h.store hl (hW hi) hhead
  have hrelinks := store_relinks hi k (s.bin o).list.head
  simp only [Kernel.pushBlock, PageAlloc.pushBlock, h.list]
  rw [hstore.list]
  exact ⟨hstore.setList o _ _, hrelinks.trans (setList_relinks W _ o _ _)⟩

theorem Links.popBlock (h : Links F k s) (hl : Layout F k) (ho : o ≤ maxOrder) (hi : i ∈ F)
    (hhead : (s.bin o).list.head = pageVa i) (hW : W ⊆ F) :
    (k.popBlock o).1 = (PageAlloc.popBlock s o).1 ∧ Links F (k.popBlock o).2 (PageAlloc.popBlock s o).2 ∧
      Flips (k.place o (i >>> (o + 1))) W k (k.popBlock o).2 := by
  have hset := h.setList o (s.next (pageVa i)) ((s.bin o).list.size - 1)
  have hrelinks := setList_relinks W k o (s.next (pageVa i)) ((s.bin o).list.size - 1)
  have hlay := hl.writes hrelinks.writes
  have hbelow : (i + 1) * pgSize ≤ (k.setList o (s.next (pageVa i)) ((s.bin o).list.size - 1)).maxAddr :=
    hlay.below_maxAddr hi
  have hflips := hrelinks.flips (toggle_flips ho hbelow W) hl hW
  rw [Kernel.place_congr hrelinks.bitmap] at hflips
  simp only [Kernel.popBlock, PageAlloc.popBlock, h.list, hhead, h.next i hi,
    pgIndex_kv2p_pageVa k.limit_fit (hl.below i hi)]
  exact ⟨trivial, hset.toggle hlay ho hbelow, hflips⟩

theorem chain_start_lt {L : List Nat} {next : Nat → Nat} {a : Nat} (h : Chain 0 next a (L.map pageVa)) :
    a < 2 ^ 64 := by
  cases L with
  | nil =>
      have ha : a = 0 := h
      rw [ha]
      exact Nat.two_pow_pos 64
  | cons p L =>
      rw [List.map_cons, chain_cons] at h
      rw [h.1]
      exact Nat.mod_lt _ (Nat.two_pow_pos 64)

section

variable (hW : W ⊆ F)

include hW

/-- A turn of `s_free_block` that merges takes the buddy off its list. -/
theorem Stored.takeBuddy (h : Stored F k s) (hl : Layout F k) (hinv : Inv s l) (ho : o ≤ maxOrder) (hi : 2 ^ o ∣ i)
    (hself : i ∈ W) (hlists : ∀ p ∈ cover (OnList l), p ∈ W) (hmem : buddy i o ∈ l o)
    (hrun : PageAlloc.unlinkBuddy (s.toggle o (i >>> (o + 1))) i o = .ok s')
    (hinv' : Inv s' (Function.update l o ((l o).erase (buddy i o)))) :
    ∃ k', (k.toggle o (i >>> (o + 1))).unlinkBuddy i o = .ok k' ∧ Stored F k' s' ∧ Writes W k k' := by
  have hbelow := hl.below_maxAddr (hW hself)
  have hflips := toggle_flips ho hbelow W
  have hlist : ((s.toggle o (i >>> (o + 1))).bin o).list = (s.bin o).list := State.list_toggle s o _
  obtain ⟨k', hk', hlinks, hrelinks⟩ := (h.links.toggle hl ho hbelow).unlinkBuddy (L := l o) (hl.writes hflips.toWrites)
    (fun p hp => hlists p ⟨o, p, ⟨ho, hp⟩, self_mem_block p o⟩) hW
    (by rw [hlist]; exact hinv.chain o ho)
    (by rw [Nat.one_shiftLeft]; exact hmem) hrun
  have hstep := hflips.relinks hrelinks hl hW
  -- The bit that flips is the one of the buddy.
  have hpair : buddy i o >>> (o + 1) = i >>> (o + 1) := by
    rw [shift_eq_div, shift_eq_div, buddy_div hi]
  refine ⟨k', hk', ?_, hstep.toWrites⟩
  rw [← hpair] at hstep
  exact h.remove hinv ho hmem hlinks hstep hinv'

/-- The last turn puts the block on the list. -/
theorem Stored.putBlock (h : Stored F k s) (hl : Layout F k) (hinv : Inv s l) (ho : o ≤ maxOrder) (hself : i ∈ W)
    (hinv' : Inv (PageAlloc.pushBlock (s.toggle o (i >>> (o + 1))) i o) (Function.update l o (i :: l o))) :
    Stored F ((k.toggle o (i >>> (o + 1))).pushBlock i o) (PageAlloc.pushBlock (s.toggle o (i >>> (o + 1))) i o) ∧
      Writes W k ((k.toggle o (i >>> (o + 1))).pushBlock i o) := by
  have hbelow := hl.below_maxAddr (hW hself)
  have hflips := toggle_flips ho hbelow W
  have hlist : ((s.toggle o (i >>> (o + 1))).bin o).list = (s.bin o).list := State.list_toggle s o _
  obtain ⟨hlinks, hrelinks⟩ := (h.links.toggle hl ho hbelow).pushBlock (o := o) (hl.writes hflips.toWrites) hself hW
    (by rw [hlist]; exact chain_start_lt (hinv.chain o ho))
  have hstep := hflips.relinks hrelinks hl hW
  exact ⟨h.push hinv ho hlinks hstep hinv', hstep.toWrites⟩

/-- The induction is the one of `sFreeBlock_ok`. -/
theorem Stored.sFreeBlock (h : Stored F k s) (hl : Layout F k) (hinv : Inv s l) (ho : o ≤ maxOrder) (hi : 2 ^ o ∣ i)
    (hbelow : (i + 2 ^ o) * pgSize ≤ s.maxAddr) (hfree : ∀ p ∈ block i o, p ∉ cover (OnList l))
    (hlists : ∀ p ∈ cover (OnList l), p ∈ W) (hblock : ∀ p ∈ block i o, p ∈ W)
    (hok : PageAlloc.sFreeBlock s i o = .ok s') :
    ∃ k', k.sFreeBlock i o = .ok k' ∧ Stored F k' s' ∧ Writes W k k' := by
  induction hn : maxOrder - o using Nat.strong_induction_on generalizing k s l o i with
  | _ n ih =>
      have hself := self_mem_block i o
      have hlistsF : ∀ p ∈ cover (OnList l), p ∈ F := fun p hp => hW (hlists p hp)
      have hbuddy : k.hasBuddy i o = PageAlloc.hasBuddy s i o := by
        rw [Kernel.hasBuddy, PageAlloc.hasBuddy,
          h.bit hl hinv hlistsF ho hi (fun p hp => hW (hblock p hp)) hfree]
      rw [PageAlloc.sFreeBlock] at hok
      rw [Kernel.sFreeBlock]
      split at hok
      · cases hok
      · rename_i hle
        rw [dif_neg hle]
        split at hok
        · cases hok
        · rename_i halign
          rw [if_neg halign]
          split at hok
          · rename_i hb
            rw [dif_pos (hbuddy.trans hb)]
            have hlt := lt_maxOrder_of_hasBuddy hle hb
            have hbit : bitmapTest (s.bin o).bitmap (i / 2 ^ (o + 1)) = true := by
              rw [PageAlloc.hasBuddy, if_neg (by omega), shift_eq_div] at hb
              exact hb
            have hmem := hinv.buddy_mem hlt hi hfree hbit
            obtain ⟨s₁, hrun, hmax, hinv₁⟩ := hinv.unlinkBuddy_ok ho hi hmem
            rw [← shift_eq_div] at hrun
            obtain ⟨k₁, hk₁, hs₁, hw₁⟩ := Stored.takeBuddy hW h hl hinv ho hi (hblock i hself) hlists hmem hrun hinv₁
            have hlt64 : i < 2 ^ 64 := by
              have hfit := hinv.fit
              have hpos := Nat.two_pow_pos o
              unfold pgSize at hbelow
              omega
            have ho64 : o < 64 := by
              unfold maxOrder at hlt
              omega
            simp only [hrun, mask_parent hlt64 ho64] at hok
            simp only [hk₁, mask_parent hlt64 ho64]
            obtain ⟨k', hk', hs', hw'⟩ := ih (maxOrder - (o + 1)) (by omega) hs₁ (hl.writes hw₁) hinv₁
              (Nat.succ_le_of_lt hlt) (dvd_parent i o)
              (by rw [hmax]; exact parent_below hi hbelow (hinv.below o ho _ hmem))
              (by
                intro p hp
                rw [hinv.mem_cover_erase ho hmem]
                rcases (mem_block_parent hi).mp hp with hp | hp
                · exact fun hc => hfree p hp hc.1
                · exact fun hc => hc.2 hp)
              (by
                intro p hp
                rw [hinv.mem_cover_erase ho hmem] at hp
                exact hlists p hp.1)
              (by
                intro p hp
                rcases (mem_block_parent hi).mp hp with hp | hp
                · exact hblock p hp
                · exact hlists p ⟨o, _, ⟨ho, hmem⟩, hp⟩)
              hok rfl
            exact ⟨k', hk', hs', hw₁.trans hw' (Finset.Subset.refl W)⟩
          · rename_i hb
            rw [dif_neg (by rw [hbuddy]; exact hb)]
            cases hok
            have hnone : o < maxOrder → pairCount (l o) o (i / 2 ^ (o + 1)) = 0 := fun hlt => by
              refine hinv.pairCount_eq_zero hlt (Bool.eq_false_iff.mpr ?_)
              rw [PageAlloc.hasBuddy, if_neg (by omega), shift_eq_div] at hb
              exact hb
            have hinv' := hinv.push ho hi hbelow hfree hnone
            rw [← shift_eq_div] at hinv'
            exact ⟨_, rfl, Stored.putBlock hW h hl hinv ho (hblock i hself) hinv'⟩

theorem Stored.sAllocBlock {r : Nat} (h : Stored F k s) (hl : Layout F k) (hinv : Inv s l)
    (ho : o ≤ maxOrder + 1) (hlists : ∀ p ∈ cover (OnList l), p ∈ W)
    (hok : PageAlloc.sAllocBlock s o = .ok (r, s')) :
    ∃ k', k.sAllocBlock o = .ok (r, k') ∧ Stored F k' s' ∧ Writes W k k' := by
  induction hn : maxOrder + 1 - o generalizing o r s' with
  | zero =>
      rw [PageAlloc.sAllocBlock, if_pos (by omega)] at hok
      rw [Kernel.sAllocBlock, if_pos (by omega)]
      cases hok
      exact ⟨k, rfl, h, Writes.refl W k⟩
  | succ n ih =>
      have hle : o ≤ maxOrder := by omega
      rw [PageAlloc.sAllocBlock, if_neg (by omega)] at hok
      rw [Kernel.sAllocBlock, if_neg (by omega), h.links.list]
      split at hok
      · rename_i hsize
        rw [if_pos hsize]
        obtain ⟨j, v, hl'⟩ : ∃ j v, l o = j :: v := by
          refine List.exists_cons_of_length_pos ?_
          rw [hinv.size o hle] at hsize
          omega
        have hj : j ∈ l o := hl' ▸ List.mem_cons_self
        have hhead : (s.bin o).list.head = pageVa j := by
          have hchain := hinv.chain o hle
          rw [hl', List.map_cons, chain_cons] at hchain
          exact hchain.1
        obtain ⟨hpop, hlinks, hflips⟩ := h.links.popBlock (W := W) hl hle
          (hW (hlists j ⟨o, j, ⟨hle, hj⟩, self_mem_block j o⟩)) hhead hW
        have hinv' := (hinv.popBlock_ok hle hl').2.2
        cases hok
        exact ⟨(k.popBlock o).2, congrArg Except.ok (Prod.ext hpop rfl), h.remove hinv hle hj hlinks hflips hinv',
          hflips.toWrites⟩
      · rename_i hsize
        rw [if_neg hsize]
        rcases sAllocBlock_ok hinv (o := o + 1) (by omega) with ⟨_, hrec⟩ | ⟨i, s₁, l₁, hrec, _, ha⟩
        · rw [hrec] at hok
          obtain ⟨k₁, hk₁, hstored, hwrites⟩ := ih (by omega) hrec (by omega)
          rw [hk₁]
          cases hok
          exact ⟨k₁, rfl, hstored, hwrites⟩
        · obtain ⟨k₁, hk₁, hstored, hwrites⟩ := ih (by omega) hrec (by omega)
          obtain ⟨hupper, _⟩ := ha.upper hinv
          simp only [hrec, if_neg (ha.ne_zero hinv), hupper] at hok
          simp only [hk₁, if_neg (ha.ne_zero hinv), hupper]
          obtain ⟨s₂, l₂, hfree, _⟩ := ha.split hle
          simp only [hfree, Except.ok.injEq, Prod.mk.injEq] at hok
          obtain ⟨rfl, rfl⟩ := hok
          have hhalf : i + 2 ^ o + 2 ^ o = i + 2 ^ (o + 1) := by rw [Nat.pow_succ]; omega
          have hupperBlock : ∀ p ∈ block (i + 2 ^ o) o, p ∈ block i (o + 1) := fun p hp =>
            mem_block_succ.mpr (Or.inr hp)
          obtain ⟨k₂, hk₂, hstored', hwrites'⟩ := Stored.sFreeBlock hW hstored (hl.writes hwrites) ha.inv hle
            (Nat.dvd_add (dvd_of_dvd_succ ha.aligned) (dvd_refl _))
            (by rw [hhalf, ha.maxAddr]; exact ha.below)
            (fun p hp hc => ((ha.cover p).mp hc).2 (hupperBlock p hp))
            (fun p hp => hlists p ((ha.cover p).mp hp).1)
            (fun p hp => hlists p (ha.free p (hupperBlock p hp))) hfree
          simp only [hk₂]
          exact ⟨k₂, rfl, hstored', hwrites.trans hwrites' (Finset.Subset.refl W)⟩

theorem Stored.freeRangeLoop {a b : Nat} (h : Stored F k s) (hl : Layout F k) (hinv : Inv s l)
    (hrange : ∀ p, a ≤ p → p < b → ((p + 1) * pgSize ≤ s.maxAddr ∧ p ∉ cover (OnList l)) ∧ p ∈ W)
    (hlists : ∀ p ∈ cover (OnList l), p ∈ W) (hok : PageAlloc.freeRangeLoop s a b = .ok s') :
    ∃ k', k.freeRangeLoop a b = .ok k' ∧ Stored F k' s' ∧ Writes W k k' := by
  induction hn : b - a using Nat.strong_induction_on generalizing k s l a with
  | _ n ih =>
      rw [PageAlloc.freeRangeLoop] at hok
      rw [Kernel.freeRangeLoop]
      by_cases hab : a < b
      · obtain ⟨c, hpick, hc, hdvd, hle⟩ := pickOrder_ok hab maxOrder
        have hpos := Nat.two_pow_pos c
        have hlast := (hrange (a + 2 ^ c - 1) (by omega) (by omega)).1.1
        rw [show a + 2 ^ c - 1 + 1 = a + 2 ^ c by omega] at hlast
        have hin : ∀ p ∈ block a c, a ≤ p ∧ p < b := fun p hp =>
          ⟨(mem_block.mp hp).1, Nat.lt_of_lt_of_le (mem_block.mp hp).2 hle⟩
        obtain ⟨s₁, l₁, hrun, hmax, hinv₁, hcover⟩ := sFreeBlock_ok hinv hc hdvd hlast fun p hp =>
          (hrange p (hin p hp).1 (hin p hp).2).1.2
        obtain ⟨k₁, hk₁, hstored, hwrites⟩ := Stored.sFreeBlock hW h hl hinv hc hdvd hlast
          (fun p hp => (hrange p (hin p hp).1 (hin p hp).2).1.2) hlists
          (fun p hp => (hrange p (hin p hp).1 (hin p hp).2).2) hrun
        rw [if_pos hab] at hok ⊢
        simp only [hpick, hrun, Nat.one_shiftLeft] at hok
        simp only [hpick, hk₁, Nat.one_shiftLeft]
        obtain ⟨k', hk', hstored', hwrites'⟩ := ih (b - (a + 2 ^ c)) (by omega) hstored (hl.writes hwrites) hinv₁
          (by
            intro p hp hpb
            obtain ⟨hp', hpW⟩ := hrange p (by omega) hpb
            rw [hmax, hcover, mem_block]
            exact ⟨⟨hp'.1, fun hc => hc.elim hp'.2 (by omega)⟩, hpW⟩)
          (by
            intro p hp
            rcases (hcover p).mp hp with hp | hp
            · exact hlists p hp
            · exact (hrange p (hin p hp).1 (hin p hp).2).2)
          hok rfl
        exact ⟨k', hk', hstored', hwrites.trans hwrites' (Finset.Subset.refl W)⟩
      · rw [if_neg hab] at hok ⊢
        cases hok
        exact ⟨k, rfl, h, Writes.refl W k⟩

end

end

end PageAlloc
end GuideOS
