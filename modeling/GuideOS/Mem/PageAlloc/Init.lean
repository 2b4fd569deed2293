import GuideOS.Lib.Bytes
import GuideOS.Mem.BootAlloc
import GuideOS.Mem.PageAlloc.Run

/-!
# Start of the page allocator

`pgalloc_init` empties the lists, takes the bitmaps from `boot_alloc` and does not
write them, so they start with what the memory held.
-/

namespace GuideOS
namespace PageAlloc

open Lib
open BootAlloc (allocs bootAlloc bootAllocInit final paged le_paged Astray)

/-! ## `pgalloc_init` -/

/-- `struct page_alloc_free_bin`, with the address of its bitmap. -/
structure Bin where
  list : FreePageList
  bitmap : Nat

/-- The memory and the variables of `page_alloc.c` and `boot_alloc.c`. -/
structure Kernel where
  maxAddr : Nat
  pgallocBins : Nat → Bin
  zone : BootAlloc.State
  mem : Bytes

inductive InitPanic
  | doubleInit
  | outOfMemory
deriving DecidableEq

/-- The `for` of `pgalloc_init`, with `n` orders to go from `i` on. -/
def initLoop (k : Kernel) (bitmapSize : Nat) : Nat → Nat → Except InitPanic Kernel
  | 0, _ => .ok k
  | n + 1, i =>
      let bitmapSize := (bitmapSize + 1) / 2
      let (p, zone) := bootAlloc k.zone bitmapSize
      let k' := { k with
        zone := zone
        pgallocBins := Function.update k.pgallocBins i { k.pgallocBins i with bitmap := p } }
      if p = 0 then .error .outOfMemory else initLoop k' bitmapSize n (i + 1)

/-- `max_addr / PG_SIZE / 8` -/
def bitmapBytes (maxMemAddr : Nat) : Nat := pgRoundUp maxMemAddr / pgSize / 8

def pgallocInit (k : Kernel) (maxMemAddr : Nat) : Except InitPanic Kernel :=
  if k.maxAddr ≠ 0 then .error .doubleInit
  else
    let k' := { k with
      maxAddr := pgRoundUp maxMemAddr
      pgallocBins := fun _ => ⟨⟨0, 0⟩, 0⟩ }
    initLoop k' (bitmapBytes maxMemAddr) (maxOrder + 1) 0

/-- The words of a bitmap. -/
def bitmapAt (mem : Bytes) (p : Nat) : Nat → BitVec 32 := fun w =>
  BitVec.ofNat 32 (loadLE mem ((p + 4 * w) % 2 ^ 64) 4)

/-- The state of the allocator that the memory holds. -/
def Kernel.state (k : Kernel) : State where
  pgallocBins := fun o => ⟨(k.pgallocBins o).list, bitmapAt k.mem (k.pgallocBins o).bitmap⟩
  maxAddr := k.maxAddr
  next := load64 k.mem

/-- The sizes that `n` rounds of the `for` ask for. -/
def bitmapSizes (bitmapSize : Nat) : Nat → List Nat
  | 0 => []
  | n + 1 => (bitmapSize + 1) / 2 :: bitmapSizes ((bitmapSize + 1) / 2) n

/-- What `boot_alloc` does for the bitmaps. -/
def bitmapAllocs (k : Kernel) (maxMemAddr : Nat) : List BootAlloc.Alloc :=
  allocs k.zone (bitmapSizes (bitmapBytes maxMemAddr) (maxOrder + 1))

/-- The memory that becomes the bitmaps holds `0` in the bits of the pages below the
limit. -/
def Blank (k : Kernel) (maxMemAddr : Nat) : Prop :=
  ∀ o ≤ maxOrder, ∀ a, (bitmapAllocs k maxMemAddr)[o]? = some a →
    ∀ i, (i + 1) * pgSize ≤ pgRoundUp maxMemAddr →
      bitmapTest (bitmapAt k.mem a.result) (i >>> (o + 1)) = false

/-- What keeps the words of the bitmaps apart: no request goes astray, and the bitmaps reach the last
page. -/
structure Room (k : Kernel) (maxMemAddr : Nat) : Prop where
  zone : ∃ startKva size ns,
    k.zone = final (bootAllocInit .boot startKva size) ns
  straight : ∀ a ∈ bitmapAllocs k maxMemAddr, ¬Astray a.before a.size
  covered : pgRoundUp maxMemAddr / pgSize % 8 = 0 ∨ bitmapBytes maxMemAddr % (2 * pgSize) ≠ 0

/-- The address of the word that holds the bit of page `i`. -/
def wordAddr (k : Kernel) (o i : Nat) : Nat :=
  ((k.pgallocBins o).bitmap + 4 * ((i >>> (o + 1)) / 32)) % 2 ^ 64

/-- No word holds bits of two orders. -/
def Separate (k : Kernel) : Prop :=
  ∀ o o', o < o' → o' ≤ maxOrder → ∀ i i', (i + 1) * pgSize ≤ k.maxAddr → (i' + 1) * pgSize ≤ k.maxAddr →
    wordAddr k o i + 4 ≤ wordAddr k o' i'

/-! ## What the loop leaves -/

section

variable {k k' : Kernel} {maxMemAddr : Nat}

/-- What `n` rounds from order `i` leave. -/
structure Looped (k : Kernel) (bitmapSize n i : Nat) (k' : Kernel) : Prop where
  mem : k'.mem = k.mem
  maxAddr : k'.maxAddr = k.maxAddr
  list : ∀ o, (k'.pgallocBins o).list = (k.pgallocBins o).list
  done : ∀ o < i, k'.pgallocBins o = k.pgallocBins o
  bitmap : ∀ j < n, ∃ a, (allocs k.zone (bitmapSizes bitmapSize n))[j]? = some a ∧
    a.result ≠ 0 ∧ (k'.pgallocBins (i + j)).bitmap = a.result

theorem initLoop_looped {n i bitmapSize : Nat} (h : initLoop k bitmapSize n i = .ok k') :
    Looped k bitmapSize n i k' := by
  induction n generalizing k i bitmapSize with
  | zero =>
      rw [initLoop, Except.ok.injEq] at h
      subst h
      exact ⟨rfl, rfl, fun _ => rfl, fun _ _ => rfl, fun j hj => absurd hj (Nat.not_lt_zero j)⟩
  | succ n ih =>
      simp only [initLoop] at h
      split at h
      · cases h
      · rename_i hne
        have hrec := ih h
        refine ⟨hrec.mem, hrec.maxAddr, fun o => ?_, fun o ho => ?_, fun j hj => ?_⟩
        · rw [hrec.list]
          dsimp only
          by_cases ho : o = i
          · rw [ho, Function.update_self]
          · rw [Function.update_of_ne ho]
        · rw [hrec.done o (by omega)]
          exact Function.update_of_ne (by omega) _ _
        · rw [bitmapSizes, BootAlloc.allocs]
          cases j with
          | zero =>
              refine ⟨_, List.getElem?_cons_zero, hne, ?_⟩
              rw [Nat.add_zero, hrec.done i (by omega)]
              dsimp only
              rw [Function.update_self]
          | succ j =>
              obtain ⟨a, ha, hresult, hbitmap⟩ := hrec.bitmap j (by omega)
              refine ⟨a, by rw [List.getElem?_cons_succ]; exact ha, hresult, ?_⟩
              rw [show i + (j + 1) = i + 1 + j by omega, hbitmap]

theorem initLoop_ok (n i bitmapSize : Nat)
    (h : ∀ a ∈ allocs k.zone (bitmapSizes bitmapSize n), a.result ≠ 0) :
    ∃ k', initLoop k bitmapSize n i = .ok k' := by
  induction n generalizing k i bitmapSize with
  | zero => exact ⟨k, rfl⟩
  | succ n ih =>
      rw [bitmapSizes, BootAlloc.allocs, List.forall_mem_cons] at h
      simp only [initLoop]
      rw [if_neg h.1]
      exact ih (i + 1) _ h.2

theorem pgallocInit_ok (hfirst : k.maxAddr = 0)
    (h : ∀ a ∈ bitmapAllocs k maxMemAddr, a.result ≠ 0) : ∃ k', pgallocInit k maxMemAddr = .ok k' := by
  rw [pgallocInit, if_neg (not_not.mpr hfirst)]
  exact initLoop_ok _ _ _ h

/-- What `pgalloc_init` leaves when it returns. -/
structure Ready (k : Kernel) (maxMemAddr : Nat) (k' : Kernel) : Prop where
  mem : k'.mem = k.mem
  maxAddr : k'.maxAddr = pgRoundUp maxMemAddr
  list : ∀ o, (k'.pgallocBins o).list = ⟨0, 0⟩
  bitmap : ∀ o ≤ maxOrder, ∃ a, (bitmapAllocs k maxMemAddr)[o]? = some a ∧ a.result ≠ 0 ∧
    (k'.pgallocBins o).bitmap = a.result

theorem pgallocInit_ready (h : pgallocInit k maxMemAddr = .ok k') : Ready k maxMemAddr k' := by
  rw [pgallocInit] at h
  split at h
  · cases h
  · have hloop := initLoop_looped h
    refine ⟨hloop.mem, hloop.maxAddr, hloop.list, fun o ho => ?_⟩
    obtain ⟨a, ha, hresult, hbitmap⟩ := hloop.bitmap o (by omega)
    rw [Nat.zero_add] at hbitmap
    exact ⟨a, ha, hresult, hbitmap⟩

/-- The bits are those that the memory held. -/
theorem Ready.bits_iff (h : Ready k maxMemAddr k') :
    (∀ o ≤ maxOrder, ∀ i, (i + 1) * pgSize ≤ k'.maxAddr →
      bitmapTest (bitmapAt k'.mem (k'.pgallocBins o).bitmap) (i >>> (o + 1)) = false) ↔ Blank k maxMemAddr := by
  rw [h.maxAddr, h.mem]
  constructor
  · intro hbits o ho a ha i hi
    obtain ⟨b, hb, _, hbitmap⟩ := h.bitmap o ho
    rw [ha, Option.some.injEq] at hb
    rw [hb, ← hbitmap]
    exact hbits o ho i hi
  · intro hblank o ho i hi
    obtain ⟨a, ha, _, hbitmap⟩ := h.bitmap o ho
    rw [hbitmap]
    exact hblank o ho a ha i hi

end

/-! ## The bitmaps reach the last page -/

theorem bitmapSizes_getElem? (b n j : Nat) (hj : j < n) :
    (bitmapSizes b n)[j]? = some ((b + (2 ^ (j + 1) - 1)) / 2 ^ (j + 1)) := by
  induction n generalizing b j with
  | zero => exact absurd hj (Nat.not_lt_zero j)
  | succ n ih =>
      cases j with
      | zero => rfl
      | succ j =>
          have hpow : 2 ^ (j + 1 + 1) = 2 * 2 ^ (j + 1) := Nat.pow_succ'
          have hpos := Nat.two_pow_pos (j + 1)
          rw [bitmapSizes, List.getElem?_cons_succ, ih _ j (by omega), Option.some.injEq, hpow,
            ← Nat.div_div_eq_div_mul]
          congr 1
          omega

theorem dvd_paged (n : Nat) : pgSize ∣ paged n := Nat.dvd_mul_left ..

/-- The bytes of a bitmap cover the word of every page. -/
theorem word_le_paged {pages o i : Nat} (hi : i < pages)
    (hcovered : pages % 8 = 0 ∨ pages / 8 % (2 * pgSize) ≠ 0) :
    4 * ((i >>> (o + 1)) / 32) + 4 ≤
      paged ((pages / 8 + (2 ^ (o + 1) - 1)) / 2 ^ (o + 1)) := by
  have hpos := Nat.two_pow_pos (o + 1)
  have hsize := le_paged ((pages / 8 + (2 ^ (o + 1) - 1)) / 2 ^ (o + 1))
  have hup : pages / 8 ≤ (pages / 8 + (2 ^ (o + 1) - 1)) / 2 ^ (o + 1) * 2 ^ (o + 1) := by
    have := Nat.div_add_mod (pages / 8 + (2 ^ (o + 1) - 1)) (2 ^ (o + 1))
    have := Nat.mod_lt (pages / 8 + (2 ^ (o + 1) - 1)) hpos
    rw [Nat.mul_comm]
    omega
  generalize (pages / 8 + (2 ^ (o + 1) - 1)) / 2 ^ (o + 1) = c at *
  obtain ⟨n, hn⟩ := dvd_paged c
  have hmul := Nat.mul_le_mul_right (2 ^ (o + 1)) hsize
  have hlt : i / 8 < paged c * 2 ^ (o + 1) := by
    rcases hcovered with hwhole | hpart
    · omega
    · -- Both roundings are exact only for a multiple of two pages.
      have hne : pages / 8 ≠ paged c * 2 ^ (o + 1) := by
        intro e
        apply hpart
        rw [e, hn, Nat.pow_succ']
        exact Nat.mod_eq_zero_of_dvd ⟨n * 2 ^ o, by ring⟩
      omega
  have hbyte : i / 2 ^ (o + 1) / 8 < paged c := by
    rw [Nat.div_right_comm, Nat.div_lt_iff_lt_mul hpos]
    exact hlt
  rw [Nat.shiftRight_eq_div_pow]
  rw [hn, pgSize] at hbyte ⊢
  omega

section

variable {k k' : Kernel} {maxMemAddr : Nat}

theorem allocs_size {s : BootAlloc.State} {ns : List Nat} {j : Nat} {a : BootAlloc.Alloc}
    (h : (allocs s ns)[j]? = some a) : ns[j]? = some a.size := by
  induction ns generalizing s j with
  | nil => exact absurd h (by simp [BootAlloc.allocs])
  | cons n ns ih =>
      cases j with
      | zero =>
          rw [BootAlloc.allocs, List.getElem?_cons_zero, Option.some.injEq] at h
          rw [List.getElem?_cons_zero, ← h]
      | succ j =>
          rw [BootAlloc.allocs, List.getElem?_cons_succ] at h
          rw [List.getElem?_cons_succ]
          exact ih h

/-- The zone stays a run of pages with a 64-bit end. -/
theorem final_zone (startKva size : Nat) (ns : List Nat) :
    pgSize ∣ (final (bootAllocInit .boot startKva size) ns).beginKva ∧
      (final (bootAllocInit .boot startKva size) ns).endKva < 2 ^ 64 := by
  have hkeep : ∀ s : BootAlloc.State, pgSize ∣ s.beginKva → s.endKva < 2 ^ 64 →
      pgSize ∣ (final s ns).beginKva ∧ (final s ns).endKva < 2 ^ 64 := by
    induction ns with
    | nil => exact fun s h h' => ⟨h, h'⟩
    | cons n ns ih =>
        intro s h h'
        have hend : (bootAlloc s n).2.endKva = s.endKva := by
          rw [BootAlloc.bootAlloc]
          split
          · rfl
          · rfl
        exact ih _ (BootAlloc.bootAlloc_dvd h n) (hend ▸ h')
  exact hkeep _ (BootAlloc.dvd_roundUpPwr2 startKva) (Nat.mod_lt _ (Nat.two_pow_pos 64))

/-- The word of a page lies in the region of its order. -/
theorem Ready.word (h : Ready k maxMemAddr k') (hroom : Room k maxMemAddr) {o i : Nat}
    {a : BootAlloc.Alloc} (ho : o ≤ maxOrder) (ha : (bitmapAllocs k maxMemAddr)[o]? = some a)
    (hi : (i + 1) * pgSize ≤ k'.maxAddr) :
    a.result ≠ 0 ∧ a.result ≤ wordAddr k' o i ∧ wordAddr k' o i + 4 ≤ a.result + paged a.size := by
  obtain ⟨b, hb, hne, hbitmap⟩ := h.bitmap o ho
  rw [ha, Option.some.injEq] at hb
  subst hb
  obtain ⟨startKva, size, ns, hzone⟩ := hroom.zone
  obtain ⟨hdvd, hend⟩ := final_zone startKva size ns
  rw [← hzone] at hdvd hend
  obtain ⟨_, hsound, _⟩ := BootAlloc.allocs_sound _ hdvd hroom.straight
  have hbelow := ((hsound a (List.mem_of_getElem? ha)).below hne).1
  have hsize := allocs_size ha
  rw [bitmapSizes_getElem? _ _ _ (by omega), Option.some.injEq] at hsize
  have hpages : i < pgRoundUp maxMemAddr / pgSize := by
    rw [← h.maxAddr]
    exact (Nat.le_div_iff_mul_le (by decide)).mpr hi
  have hword := word_le_paged (o := o) hpages hroom.covered
  rw [bitmapBytes] at hsize
  rw [hsize] at hword
  rw [wordAddr, hbitmap, Nat.mod_eq_of_lt (by omega)]
  exact ⟨hne, by omega, by omega⟩

theorem Ready.separate (h : Ready k maxMemAddr k') (hroom : Room k maxMemAddr) : Separate k' := by
  intro o o' hlt ho' i i' hi hi'
  obtain ⟨a, ha, _⟩ := h.bitmap o (by omega)
  obtain ⟨b, hb, _⟩ := h.bitmap o' ho'
  obtain ⟨hane, _, hlast⟩ := h.word hroom (by omega) ha hi
  obtain ⟨hbne, hfirst, _⟩ := h.word hroom ho' hb hi'
  obtain ⟨startKva, size, ns, hzone⟩ := hroom.zone
  obtain ⟨hdvd, _⟩ := final_zone startKva size ns
  rw [← hzone] at hdvd
  obtain ⟨_, _, hpair⟩ := BootAlloc.allocs_sound _ hdvd hroom.straight
  obtain ⟨hoa, hget⟩ := List.getElem?_eq_some_iff.mp ha
  obtain ⟨hob, hget'⟩ := List.getElem?_eq_some_iff.mp hb
  have hregions := List.pairwise_iff_getElem.mp hpair o o' hoa hob hlt
  have hgeta : (allocs k.zone (bitmapSizes (bitmapBytes maxMemAddr) (maxOrder + 1)))[o] = a := hget
  have hgetb : (allocs k.zone (bitmapSizes (bitmapBytes maxMemAddr) (maxOrder + 1)))[o'] = b := hget'
  rw [hgeta, hgetb] at hregions
  exact hlast.trans ((hregions hane hbne).trans hfirst)

end

/-- The allocators as `kmain` finds them, over a memory. -/
def kmainKernel (mem : Bytes) : Kernel where
  maxAddr := 0
  pgallocBins := fun _ => ⟨⟨0, 0⟩, 0⟩
  zone := final (bootAllocInit .boot 0xFFFF800000200000 (64 * 1024 * 1024)) [4096, 4096]
  mem := mem

theorem kmainKernel_room (mem : Bytes) : Room (kmainKernel mem) (4 * 1024 * 1024 * 1024) where
  zone := ⟨_, _, _, rfl⟩
  straight := by
    show ∀ a ∈ bitmapAllocs (kmainKernel fun _ => 0) _, _
    decide +kernel
  covered := by decide +kernel

theorem exists_kmainKernel_init (mem : Bytes) :
    ∃ k', pgallocInit (kmainKernel mem) (4 * 1024 * 1024 * 1024) = .ok k' := by
  refine pgallocInit_ok rfl ?_
  show ∀ a ∈ bitmapAllocs (kmainKernel fun _ => 0) (4 * 1024 * 1024 * 1024), a.result ≠ 0
  decide +kernel

end PageAlloc
end GuideOS
