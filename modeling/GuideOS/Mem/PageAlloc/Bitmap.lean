import GuideOS.Mem.PageAlloc.Init

/-!
# The room for the bitmaps

The size of the first bitmap is the number of pages divided by eight and rounded down,
and each following size is half of the one before, rounded up.  `boot_alloc` rounds a
size up to whole pages and hands out the regions one behind the other.  The bits of the
last pages are lost in the first division, and then only the rounding to whole pages
makes up for them.

Addresses wrap, so a region is a run of addresses modulo `2 ^ 64`.
-/

namespace GuideOS
namespace PageAlloc

open Lib BootAlloc

/-! ## Regions one behind the other -/

/-- Where the region of request `j` begins, from the front of the zone. -/
def offset (ns : List Nat) (j : Nat) : Nat := ((ns.take j).map paged).sum

section

variable {ns : List Nat} {n j : Nat}

theorem offset_succ (h : ns[j]? = some n) : offset ns (j + 1) = offset ns j + paged n := by
  rw [offset, offset, List.take_add_one, h, List.map_append, List.sum_append]
  simp

theorem offset_le_succ : offset ns j ≤ offset ns (j + 1) := by
  rw [offset, offset, List.take_add_one, List.map_append, List.sum_append]
  exact Nat.le_add_right _ _

theorem offset_mono {i : Nat} (h : i ≤ j) : offset ns i ≤ offset ns j :=
  monotone_nat_of_le_succ (f := offset ns) (fun _ => offset_le_succ) h

theorem offset_le {c : Nat} (h : ∀ n ∈ ns, paged n ≤ c) : offset ns j ≤ j * c := by
  induction j with
  | zero => exact Nat.zero_le _
  | succ j ih =>
      rw [Nat.succ_mul]
      cases hj : ns[j]? with
      | none =>
          rw [offset, List.take_of_length_le (by rw [List.getElem?_eq_none_iff] at hj; omega)]
          rw [offset, List.take_of_length_le (List.getElem?_eq_none_iff.mp hj)] at ih
          omega
      | some n =>
          rw [offset_succ hj]
          exact Nat.add_le_add ih (h n (List.mem_of_getElem? hj))

/-- A request that is granted moves the front of the zone behind its region. -/
theorem bootAlloc_front {s : BootAlloc.State} (hn : paged n < 2 ^ 64) (h : (bootAlloc s n).1 ≠ 0) :
    (bootAlloc s n).1 = s.beginKva ∧
      (bootAlloc s n).2.beginKva = (s.beginKva + paged n) % 2 ^ 64 := by
  rw [bootAlloc] at h ⊢
  split at h
  · rename_i hfits
    rw [if_pos hfits, roundUpPwr2_eq_paged hn]
    exact ⟨rfl, rfl⟩
  · exact absurd rfl h

/-- Requests that are all granted get regions one behind the other. -/
theorem allocs_result {s : BootAlloc.State} {a : Alloc} (hns : ∀ n ∈ ns, paged n < 2 ^ 64)
    (hok : ∀ b ∈ allocs s ns, b.result ≠ 0) (ha : (allocs s ns)[j]? = some a) :
    a.result % 2 ^ 64 = (s.beginKva + offset ns j) % 2 ^ 64 := by
  induction ns generalizing s j with
  | nil => exact absurd ha (by simp [BootAlloc.allocs])
  | cons n ns ih =>
      obtain ⟨hn, hrest⟩ := List.forall_mem_cons.mp hns
      rw [BootAlloc.allocs] at ha hok
      obtain ⟨hgranted, hlater⟩ := List.forall_mem_cons.mp hok
      obtain ⟨hfirst, hfront⟩ := bootAlloc_front hn hgranted
      cases j with
      | zero =>
          rw [List.getElem?_cons_zero, Option.some.injEq] at ha
          rw [← ha]
          show (bootAlloc s n).1 % 2 ^ 64 = _
          rw [hfirst]
          rfl
      | succ j =>
          rw [List.getElem?_cons_succ] at ha
          rw [ih hrest hlater ha, hfront, Nat.mod_add_mod, offset, offset, List.take_succ_cons, List.map_cons,
            List.sum_cons, Nat.add_assoc]

end

/-! ## The sizes of the bitmaps -/

theorem bitmapSizes_le (b n : Nat) : ∀ m ∈ bitmapSizes b n, m ≤ b + 1 := by
  induction n generalizing b with
  | zero => exact fun m hm => absurd hm List.not_mem_nil
  | succ n ih =>
      rw [bitmapSizes]
      refine List.forall_mem_cons.mpr ⟨by omega, fun m hm => ?_⟩
      have := ih _ m hm
      omega

theorem length_bitmapSizes (b n : Nat) : (bitmapSizes b n).length = n := by
  induction n generalizing b with
  | zero => rfl
  | succ n ih => rw [bitmapSizes, List.length_cons, ih]

theorem bitmapBytes_lt (maxMemAddr : Nat) : bitmapBytes maxMemAddr < 2 ^ 49 := by
  have hlt : pgRoundUp maxMemAddr < 2 ^ 64 :=
    Nat.lt_of_le_of_lt Nat.and_le_left (Nat.mod_lt _ (Nat.two_pow_pos 64))
  rw [bitmapBytes, pgSize]
  omega

theorem bitmapSizes_paged {maxMemAddr m : Nat}
    (hm : m ∈ bitmapSizes (bitmapBytes maxMemAddr) (maxOrder + 1)) : paged m ≤ 2 ^ 50 := by
  have hle := bitmapSizes_le _ _ m hm
  have hlt := bitmapBytes_lt maxMemAddr
  have hpaged := paged_lt m
  rw [pgSize] at hpaged
  omega

/-! ## The words and their regions -/

/-- The addresses that `boot_alloc` returned for the bitmap of an order, in whole
pages. -/
def bitmapRegion (k : Kernel) (maxMemAddr o : Nat) : Set Nat :=
  {x | ∃ a, (bitmapAllocs k maxMemAddr)[o]? = some a ∧ ∃ b < paged a.size, x = (a.result + b) % 2 ^ 64}

/-- The words that the allocator accesses lie in the region of their order, and the
regions do not overlap. -/
structure BitmapsFit (k : Kernel) (maxMemAddr : Nat) (k' : Kernel) : Prop where
  inside : ∀ o ≤ maxOrder, ∀ i < k'.maxAddr / pgSize, 2 ^ o ∣ i → ∀ j < 4,
    (wordAddr k' o i + j) % 2 ^ 64 ∈ bitmapRegion k maxMemAddr o
  disjoint : ∀ o ≤ maxOrder, ∀ o' ≤ maxOrder, o ≠ o' →
    Disjoint (bitmapRegion k maxMemAddr o) (bitmapRegion k maxMemAddr o')

section

variable {k k' : Kernel} {maxMemAddr o : Nat}

/-- The request for the bitmap of an order. -/
theorem Ready.request (h : Ready k maxMemAddr k') (ho : o ≤ maxOrder) :
    ∃ a, (bitmapAllocs k maxMemAddr)[o]? = some a ∧ (k'.pgallocBins o).bitmap = a.result ∧
      a.size = (bitmapBytes maxMemAddr + (2 ^ (o + 1) - 1)) / 2 ^ (o + 1) := by
  obtain ⟨a, ha, _, hbitmap⟩ := h.bitmap o ho
  have hsize := allocs_size ha
  rw [bitmapSizes_getElem? _ _ _ (by omega), Option.some.injEq] at hsize
  exact ⟨a, ha, hbitmap, hsize.symm⟩

/-- Every request was granted. -/
theorem Ready.granted (h : Ready k maxMemAddr k') : ∀ a ∈ bitmapAllocs k maxMemAddr, a.result ≠ 0 := by
  intro a ha
  obtain ⟨j, hj⟩ := List.mem_iff_getElem?.mp ha
  obtain ⟨hlt, _⟩ := List.getElem?_eq_some_iff.mp (allocs_size hj)
  rw [length_bitmapSizes] at hlt
  obtain ⟨b, hb, hne, _⟩ := h.bitmap j (Nat.le_of_lt_succ hlt)
  rw [hj, Option.some.injEq] at hb
  exact hb ▸ hne

/-- An address of a region, from the front of the zone. -/
theorem Ready.mem_region (h : Ready k maxMemAddr k') {x : Nat}
    (hx : x ∈ bitmapRegion k maxMemAddr o) :
    ∃ b, offset (bitmapSizes (bitmapBytes maxMemAddr) (maxOrder + 1)) o ≤ b ∧
      b < offset (bitmapSizes (bitmapBytes maxMemAddr) (maxOrder + 1)) (o + 1) ∧
      x = (k.zone.beginKva + b) % 2 ^ 64 := by
  obtain ⟨a, ha, b, hb, rfl⟩ := hx
  have hresult := allocs_result
    (fun n hn => Nat.lt_of_le_of_lt (bitmapSizes_paged hn) (by decide)) h.granted ha
  refine ⟨offset _ o + b, Nat.le_add_right _ _, ?_, ?_⟩
  · rw [offset_succ (allocs_size ha)]
    omega
  · rw [← Nat.mod_add_mod, hresult, Nat.mod_add_mod, Nat.add_assoc]

theorem Ready.regions_lt (h : Ready k maxMemAddr k') {o' : Nat} (hlt : o < o') (ho' : o' ≤ maxOrder) :
    Disjoint (bitmapRegion k maxMemAddr o) (bitmapRegion k maxMemAddr o') := by
  refine Set.disjoint_left.mpr fun x hx hx' => ?_
  obtain ⟨b, _, hb, rfl⟩ := h.mem_region hx
  obtain ⟨b', hb', hend, heq⟩ := h.mem_region hx'
  -- All regions together are shorter than the address space.
  have htotal : offset (bitmapSizes (bitmapBytes maxMemAddr) (maxOrder + 1)) (o' + 1) ≤
      (o' + 1) * 2 ^ 50 := offset_le fun n hn => bitmapSizes_paged hn
  have hmono : offset (bitmapSizes (bitmapBytes maxMemAddr) (maxOrder + 1)) (o + 1) ≤
      offset (bitmapSizes (bitmapBytes maxMemAddr) (maxOrder + 1)) o' := offset_mono hlt
  have hbound : (o' + 1) * 2 ^ 50 ≤ 11 * 2 ^ 50 := Nat.mul_le_mul_right _ (by rw [maxOrder] at ho'; omega)
  omega

/-- A word lies in its region exactly if the region is long enough. -/
theorem Ready.word_mem_iff (h : Ready k maxMemAddr k') (ho : o ≤ maxOrder) {i : Nat}
    (hi : i < pgRoundUp maxMemAddr / pgSize) :
    (∀ j < 4, (wordAddr k' o i + j) % 2 ^ 64 ∈ bitmapRegion k maxMemAddr o) ↔
      4 * ((i >>> (o + 1)) / 32) + 4 ≤
        paged ((bitmapBytes maxMemAddr + (2 ^ (o + 1) - 1)) / 2 ^ (o + 1)) := by
  obtain ⟨a, ha, hbitmap, hsize⟩ := h.request ho
  have hword : ∀ j, (wordAddr k' o i + j) % 2 ^ 64 =
      (a.result + (4 * ((i >>> (o + 1)) / 32) + j)) % 2 ^ 64 := fun j => by
    rw [wordAddr, hbitmap, Nat.mod_add_mod, Nat.add_assoc]
  rw [← hsize]
  constructor
  · intro hin
    obtain ⟨a', ha', b, hb, heq⟩ := hin 3 (by decide)
    rw [ha, Option.some.injEq] at ha'
    subst ha'
    have hpaged := bitmapSizes_paged (List.mem_of_getElem? (allocs_size ha))
    have hpages : i < 2 ^ 52 := by
      have hlt : pgRoundUp maxMemAddr < 2 ^ 64 :=
        Nat.lt_of_le_of_lt Nat.and_le_left (Nat.mod_lt _ (Nat.two_pow_pos 64))
      rw [pgSize] at hi
      omega
    have hshift : i >>> (o + 1) ≤ i := by
      rw [Nat.shiftRight_eq_div_pow]
      exact Nat.div_le_self _ _
    rw [hword] at heq
    omega
  · intro hle j hj
    exact ⟨a, ha, 4 * ((i >>> (o + 1)) / 32) + j, by omega, hword j⟩

theorem Ready.bitmapsFit (h : Ready k maxMemAddr k')
    (hcovered : pgRoundUp maxMemAddr / pgSize % 8 = 0 ∨ pgRoundUp maxMemAddr / pgSize / 8 % (2 * pgSize) ≠ 0) :
    BitmapsFit k maxMemAddr k' where
  inside o ho i hi _ := by
    rw [h.maxAddr] at hi
    exact (h.word_mem_iff ho hi).mpr (word_le_paged hi hcovered)
  disjoint o ho o' ho' hne := by
    rcases Nat.lt_or_gt_of_ne hne with hlt | hgt
    · exact h.regions_lt hlt ho'
    · exact (h.regions_lt hgt ho).symm

end

/-- `pgalloc_init` gets enough room for its bitmaps exactly if the number of pages is a
multiple of eight, or an eighth of it is not a multiple of two pages. -/
theorem pgallocInit_bitmaps_iff {k k' : Kernel} {maxMemAddr : Nat}
    (h : pgallocInit k maxMemAddr = .ok k') :
    BitmapsFit k maxMemAddr k' ↔
      pgRoundUp maxMemAddr / pgSize % 8 = 0 ∨
        pgRoundUp maxMemAddr / pgSize / 8 % (2 * pgSize) ≠ 0 := by
  have hready := pgallocInit_ready h
  constructor
  · intro hfit
    by_contra hno
    obtain ⟨hpart, hwhole⟩ := not_or.mp hno
    rw [not_not] at hwhole
    -- The first page whose bits were lost.
    have hi : 8 * (pgRoundUp maxMemAddr / pgSize / 8) < pgRoundUp maxMemAddr / pgSize := by omega
    have hin := hfit.inside 0 (Nat.zero_le _) _ (by rw [hready.maxAddr]; exact hi) (one_dvd _)
    rw [hready.word_mem_iff (Nat.zero_le _) hi] at hin
    rw [bitmapBytes, Nat.shiftRight_eq_div_pow, paged] at hin
    simp only [pgSize, Nat.zero_add, Nat.pow_one] at hin hwhole
    omega
  · exact hready.bitmapsFit

theorem pgallocInit_bitmaps_kmain : ∃ k',
    pgallocInit (kmainKernel fun _ => 0) (4 * 1024 * 1024 * 1024) = .ok k' ∧
      BitmapsFit (kmainKernel fun _ => 0) (4 * 1024 * 1024 * 1024) k' := by
  obtain ⟨k', hinit⟩ := exists_kmainKernel_init fun _ => 0
  exact ⟨k', hinit, (pgallocInit_bitmaps_iff hinit).mpr (Or.inl (by decide +kernel))⟩

/-- With 256 MiB and one page, the bit of the last page is in the bitmap of the next
order. -/
theorem not_bitmapsFit_lastPage : ∃ k',
    pgallocInit (kmainKernel fun _ => 0) (65537 * 4096) = .ok k' ∧
      65536 < k'.maxAddr / pgSize ∧
      wordAddr k' 0 65536 ∉ bitmapRegion (kmainKernel fun _ => 0) (65537 * 4096) 0 ∧
      wordAddr k' 0 65536 ∈ bitmapRegion (kmainKernel fun _ => 0) (65537 * 4096) 1 ∧
      ¬ BitmapsFit (kmainKernel fun _ => 0) (65537 * 4096) k' := by
  obtain ⟨k', hinit⟩ : ∃ k', pgallocInit (kmainKernel fun _ => 0) (65537 * 4096) = .ok k' :=
    pgallocInit_ok rfl (by decide +kernel)
  have hready := pgallocInit_ready hinit
  have hpages : 65536 < k'.maxAddr / pgSize := by
    rw [hready.maxAddr]
    decide +kernel
  have hfirst : (bitmapAllocs (kmainKernel fun _ => 0) (65537 * 4096))[0]?.map
      (fun a => (a.result, paged a.size)) = some (0xFFFF800000202000, 4096) := by decide +kernel
  have hsecond : (bitmapAllocs (kmainKernel fun _ => 0) (65537 * 4096))[1]?.map
      (fun a => (a.result, paged a.size)) = some (0xFFFF800000203000, 4096) := by decide +kernel
  have hword : wordAddr k' 0 65536 = 0xFFFF800000203000 := by
    obtain ⟨a, ha, _, hbitmap⟩ := hready.bitmap 0 (by decide)
    rw [ha, Option.map_some, Option.some.injEq, Prod.mk.injEq] at hfirst
    rw [wordAddr, hbitmap, hfirst.1]
    decide +kernel
  have hnot : wordAddr k' 0 65536 ∉ bitmapRegion (kmainKernel fun _ => 0) (65537 * 4096) 0 := by
    rintro ⟨a, ha, b, hb, heq⟩
    rw [ha, Option.map_some, Option.some.injEq, Prod.mk.injEq] at hfirst
    rw [hfirst.2] at hb
    rw [hword, hfirst.1] at heq
    omega
  refine ⟨k', hinit, hpages, hnot, ?_, fun hfit => ?_⟩
  · obtain ⟨a, ha, hvals⟩ := Option.map_eq_some_iff.mp hsecond
    rw [Prod.mk.injEq] at hvals
    refine ⟨a, ha, 0, by rw [hvals.2]; decide, ?_⟩
    rw [hword, hvals.1]
    decide
  · have hin := hfit.inside 0 (Nat.zero_le _) 65536 hpages (one_dvd _) 0 (by decide)
    rw [Nat.add_zero, hword] at hin
    rw [hword] at hnot
    exact hnot hin

end PageAlloc
end GuideOS
