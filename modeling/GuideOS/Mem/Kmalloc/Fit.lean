import GuideOS.Mem.Kmalloc.Run

/-!
# Which block serves a request

`find_fit_block` takes the first block that fits, and the list is sorted by size, so
it takes a block of the requested size if there is one and else a smallest block
that can be split.  When none fits, the page that is taken makes a block of 4080
bytes.  That serves a request of 4080 bytes, or of at most 4056; between the two the
page helps only when it is joined to a free neighbour.
-/

namespace GuideOS
namespace Kmalloc

open Lib Blk

attribute [local irreducible] load64 store64

/-! ## The search -/

section

variable {n lo hi : Nat} {l : List Blk} {m b : Blk}

theorem takeFit_eq_none_iff : takeFit n l = none ↔ ∀ b ∈ l, ¬ Fits n b := by
  induction l with
  | nil => simp [takeFit]
  | cons c cs ih =>
      rw [takeFit, List.forall_mem_cons]
      by_cases hc : Fits n c
      · simp [hc]
      · rw [if_neg hc, Option.map_eq_none_iff, ih]
        exact ⟨fun h => ⟨hc, h⟩, And.right⟩

theorem allocBlk_eq_none_iff : allocBlk l n = none ↔ ∀ b ∈ l, ¬ Fits n b := by
  rw [allocBlk, Option.map_eq_none_iff, takeFit_eq_none_iff]

theorem exists_fits_of_allocBlk {r : Blk × List Blk} (h : allocBlk l n = some r) :
    ∃ b ∈ l, Fits n b := by
  by_contra hno
  have hnone := allocBlk_eq_none_iff.mpr fun b hb hfit => hno ⟨b, hb, hfit⟩
  rw [h] at hnone
  cases hnone

/-- Nothing is joined to a block that touches no block of the list. -/
theorem mergeBlk_of_no_touch (h : ∀ c ∈ l, c.stop ≠ lo ∧ hi ≠ c.addr) :
    mergeBlk lo hi l m = (l, m) := by
  induction l with
  | nil => rfl
  | cons c cs ih =>
      obtain ⟨hc, hcs⟩ := List.forall_mem_cons.mp h
      rw [mergeBlk, if_neg hc.1, if_neg hc.2, ih hcs]

theorem le_mergeBlk_size (lo hi : Nat) (l : List Blk) (m : Blk) :
    m.size ≤ (mergeBlk lo hi l m).2.size := by
  induction l generalizing m with
  | nil => exact Nat.le_refl _
  | cons c cs ih =>
      rw [mergeBlk]
      split
      · refine Nat.le_trans ?_ (ih _)
        show m.size ≤ c.size + (m.size + totalMetadataSize)
        omega
      · split
        · refine Nat.le_trans ?_ (ih _)
          show m.size ≤ m.size + (c.size + totalMetadataSize)
          omega
        · exact ih m

/-- A block that is joined brings its header along. -/
theorem mergeBlk_size_of_touch (hmin : ∀ c ∈ l, 8 ≤ c.size) (hb : b ∈ l)
    (htouch : b.stop = lo ∨ hi = b.addr) :
    m.size + minBlockSize ≤ (mergeBlk lo hi l m).2.size := by
  induction l generalizing m with
  | nil => exact absurd hb List.not_mem_nil
  | cons c cs ih =>
      obtain ⟨hc, hcs⟩ := List.forall_mem_cons.mp hmin
      rw [mergeBlk]
      split
      · refine Nat.le_trans ?_ (le_mergeBlk_size lo hi cs _)
        show m.size + minBlockSize ≤ c.size + (m.size + totalMetadataSize)
        simp only [minBlockSize, totalMetadataSize]
        omega
      · rename_i hlo
        split
        · refine Nat.le_trans ?_ (le_mergeBlk_size lo hi cs _)
          show m.size + minBlockSize ≤ m.size + (c.size + totalMetadataSize)
          simp only [minBlockSize, totalMetadataSize]
          omega
        · rename_i hhi
          have hbc : b ≠ c := by
            rintro rfl
            exact htouch.elim hlo hhi
          exact ih hcs ((List.mem_cons.mp hb).resolve_left hbc)

end

/-! ## The page -/

/-- A free block that ends where the page begins or begins where it ends. -/
def Touches (p : Nat) (b : Blk) : Prop := b.stop = p ∨ p + pgSize = b.addr

theorem pageBlk_stop (p : Nat) : (pageBlk p).stop = p + pgSize := by
  simp only [Blk.stop, pageBlk, pgSize, totalMetadataSize]

/-- When no block fits before, one fits with the page if the page alone makes a
fitting block, or is joined to a neighbour. -/
theorem exists_fits_page_iff {n p : Nat} {l : List Blk} (hn : n ≤ pgSize - totalMetadataSize)
    (hmin : ∀ c ∈ l, 8 ≤ c.size) (hnone : ∀ b ∈ l, ¬ Fits n b) :
    (∃ b ∈ addBlk l (pageBlk p), Fits n b) ↔
      Fits n (pageBlk p) ∨ ∃ b ∈ l, Touches p b := by
  have hmem : ∀ b, b ∈ addBlk l (pageBlk p) ↔ b = (mergeBlk p (p + pgSize) l (pageBlk p)).2 ∨
      b ∈ (mergeBlk p (p + pgSize) l (pageBlk p)).1 := fun b => by
    rw [(addBlk_perm l (pageBlk p)).mem_iff, List.mem_cons, pageBlk_stop]
    rfl
  have hold : ∀ b ∈ (mergeBlk p (p + pgSize) l (pageBlk p)).1, ¬ Fits n b := fun b hb => by
    rw [mergeBlk_fst] at hb
    exact hnone b (List.mem_of_mem_filter hb)
  have hmerged : (∃ b ∈ addBlk l (pageBlk p), Fits n b) ↔
      Fits n (mergeBlk p (p + pgSize) l (pageBlk p)).2 := by
    constructor
    · rintro ⟨b, hb, hfit⟩
      rcases (hmem b).mp hb with rfl | hb
      · exact hfit
      · exact absurd hfit (hold b hb)
    · exact fun hfit => ⟨_, (hmem _).mpr (Or.inl rfl), hfit⟩
  rw [hmerged]
  by_cases htouch : ∃ b ∈ l, Touches p b
  · obtain ⟨b, hb, ht⟩ := htouch
    have hsize := mergeBlk_size_of_touch (m := pageBlk p) hmin hb ht
    refine iff_of_true (Or.inr (Nat.le_trans (Nat.add_le_add_right hn _) hsize)) ?_
    exact Or.inr ⟨b, hb, ht⟩
  · have hno : ∀ c ∈ l, c.stop ≠ p ∧ p + pgSize ≠ c.addr := fun c hc =>
      ⟨fun e => htouch ⟨c, hc, Or.inl e⟩, fun e => htouch ⟨c, hc, Or.inr e⟩⟩
    rw [mergeBlk_of_no_touch hno]
    exact ⟨Or.inl, fun h => h.elim id fun h => absurd h htouch⟩

/-! ## Requests that are served -/

/-- `kmalloc` returns a pointer to a live block of the requested size. -/
def Serves (w : World) (size newRam : Nat) : Prop :=
  ∃ r w', kmalloc w.heap size newRam = .ok r ∧ r.ptr ≠ 0 ∧
    exec w (.kmalloc size newRam) = .ok w' ∧ w'.heap = r.heap ∧
    ∃ b ∈ w'.live, b.ptr = r.ptr ∧ b.size = size ∧ Exclusive w' b

/-- The size is accepted, and a free block or the page can serve it. -/
def Granted (w : World) (size newRam : Nat) : Prop :=
  (0 < size ∧ size ≤ pgSize - totalMetadataSize) ∧
    ((∃ b ∈ freeList w.heap, Fits size b) ∨
      newRam ≠ 0 ∧ (Fits size (pageBlk newRam) ∨ ∃ b ∈ freeList w.heap, Touches newRam b))

section

variable {w : World} {l : List Blk} {size newRam : Nat}

/-- A pointer other than null comes back exactly if the request is granted. -/
theorem Inv.ptr_iff_granted (h : Inv w l) (hc : Legal w (.kmalloc size newRam)) :
    (∃ r, kmalloc w.heap size newRam = .ok r ∧ r.ptr ≠ 0) ↔ Granted w size newRam := by
  have hcases := kmalloc_cases h hc
  rw [Granted, h.freeList_eq]
  generalize kmalloc w.heap size newRam = res at hcases
  cases hcases with
  | refused hsize =>
      refine iff_of_false ?_ (by omega)
      rintro ⟨r, hr, hne⟩
      rw [Except.ok.injEq] at hr
      exact hne (by rw [← hr])
  | @fit r h' hpos hle halloc _ _ =>
      exact iff_of_true ⟨_, rfl, r.1.ptr_ne_zero⟩
        ⟨⟨hpos, hle⟩, Or.inl (exists_fits_of_allocBlk halloc)⟩
  | oom hpos hle hnone hram =>
      refine iff_of_false (by rintro ⟨r, hr, _⟩; cases hr) ?_
      rintro ⟨_, ⟨b, hb, hfit⟩ | ⟨hne, _⟩⟩
      · exact allocBlk_eq_none_iff.mp hnone b hb hfit
      · exact hne hram
  | @grown r h' hpos hle hnone hp halloc _ _ =>
      have hold := allocBlk_eq_none_iff.mp hnone
      have hpage := (exists_fits_page_iff hle h.free.minSize hold).mp (exists_fits_of_allocBlk halloc)
      exact iff_of_true ⟨_, rfl, r.1.ptr_ne_zero⟩ ⟨⟨hpos, hle⟩, Or.inr ⟨hp.ne_zero, hpage⟩⟩
  | @wasted h' hpos hle hnone hp hagain _ =>
      have hold := allocBlk_eq_none_iff.mp hnone
      refine iff_of_false ?_ ?_
      · rintro ⟨r, hr, hne⟩
        rw [Except.ok.injEq] at hr
        exact hne (by rw [← hr])
      · rintro ⟨_, ⟨b, hb, hfit⟩ | ⟨_, hpage⟩⟩
        · exact hold b hb hfit
        · obtain ⟨b, hb, hfit⟩ := (exists_fits_page_iff hle h.free.minSize hold).mpr hpage
          exact allocBlk_eq_none_iff.mp hagain b hb hfit

theorem Inv.serves_iff (h : Inv w l) (hc : Legal w (.kmalloc size newRam)) :
    Serves w size newRam ↔ Granted w size newRam := by
  rw [← h.ptr_iff_granted hc]
  constructor
  · rintro ⟨r, _, hrun, hne, _⟩
    exact ⟨r, hrun, hne⟩
  · rintro ⟨r, hrun, hne⟩
    obtain ⟨w', hexec, hheap, b, hb, hptr, hsize⟩ := h.live_kmalloc hc hrun hne
    rcases kmalloc_ok h hc with ⟨_, herr⟩ | ⟨w'', l', hok, hmoved⟩
    · rw [hexec] at herr
      cases herr
    · rw [hexec, Except.ok.injEq] at hok
      subst hok
      exact ⟨r, w', hrun, hne, hexec, hheap, b, hb, hptr, hsize, hmoved.inv.exclusive hb⟩

end

/-- A request of an accepted size is served, given a page, exactly if a free block
fits, or the page alone makes a block that does, or the page touches a free block. -/
theorem run_serves_iff {h : History} {w : World} (hrun : Run h w) {size newRam : Nat}
    (hpos : 1 ≤ size) (hle : size ≤ pgSize - totalMetadataSize) (hp : FreshPage w.pages newRam) :
    Serves w size newRam ↔
      (∃ b ∈ freeList w.heap, Fits size b) ∨ Fits size (pageBlk newRam) ∨
        ∃ b ∈ freeList w.heap, Touches newRam b := by
  obtain ⟨l, hinv⟩ := hrun.inv
  rw [hinv.serves_iff (Or.inr hp), Granted]
  constructor
  · rintro ⟨_, hfit | ⟨_, hpage⟩⟩
    · exact Or.inl hfit
    · exact Or.inr hpage
  · rintro (hfit | hpage)
    · exact ⟨⟨hpos, hle⟩, Or.inl hfit⟩
    · exact ⟨⟨hpos, hle⟩, Or.inr ⟨hp.ne_zero, hpage⟩⟩

theorem run_serves_page : FreshPage zeroed.pages 4096 ∧ Serves zeroed 4056 4096 :=
  ⟨freshPage_zeroed,
    (run_serves_iff (Run.start _) (by decide) (by decide) freshPage_zeroed).mpr
      (Or.inr (Or.inl (by decide)))⟩

/-- A request of 4072 bytes takes a page and returns null. -/
theorem not_serves_gap : Run [] zeroed ∧ FreshPage zeroed.pages 4096 ∧
    1 ≤ 4072 ∧ 4072 ≤ pgSize - totalMetadataSize ∧ ¬ Serves zeroed 4072 4096 := by
  refine ⟨Run.start _, freshPage_zeroed, by decide, by decide, ?_⟩
  rintro ⟨r, _, hrun, hne, _⟩
  have hnull : (kmalloc zeroed.heap 4072 4096).toOption.map (·.ptr) = some 0 := by decide +kernel
  rw [hrun] at hnull
  exact hne (Option.some.inj hnull)

/-! ## The best block -/

/-- The call goes to `pgalloc_allocate`. -/
def AsksPage (res : Except Panic Result) : Prop :=
  res = .error .oom ∨ ∃ r, res = .ok r ∧ r.grew = true

/-- What `kmalloc` does with the free blocks `l`, and what it leaves of them. -/
structure BestFit (l : List Blk) (size : Nat) (res : Except Panic Result) : Prop where
  asks : AsksPage res ↔ ∀ b ∈ l, b.size ≠ size ∧ ¬ size + minBlockSize ≤ b.size
  exact : (∃ b ∈ l, b.size = size) → ∃ b ∈ l, ∃ r, b.size = size ∧ res = .ok r ∧ r.ptr = b.ptr ∧
    ∀ c, c ∈ freeList r.heap ↔ c ∈ l ∧ c ≠ b
  split : (∀ b ∈ l, b.size ≠ size) → (∃ b ∈ l, size + minBlockSize ≤ b.size) →
    ∃ b ∈ l, ∃ r, size + minBlockSize ≤ b.size ∧
      (∀ c ∈ l, size + minBlockSize ≤ c.size → b.size ≤ c.size) ∧
      res = .ok r ∧ r.ptr = b.stop - size ∧
      ∀ c, c ∈ freeList r.heap ↔
        (c ∈ l ∧ c ≠ b) ∨ c = ⟨b.addr, b.size - (size + totalMetadataSize)⟩

section

variable {n : Nat} {l r u v : List Blk} {b : Blk}

theorem FreeListInv.nodup (h : FreeListInv l) : l.Nodup :=
  h.apart.imp fun hap e => by
    subst e
    have := hap.headers
    omega

theorem FreeListInv.mem_rest_iff (h : FreeListInv (u ++ b :: v)) (c : Blk) :
    c ∈ u ++ v ↔ c ∈ u ++ b :: v ∧ c ≠ b := by
  have hnot : b ∉ u ++ v := (List.nodup_cons.mp (List.nodup_middle.mp h.nodup)).1
  rw [List.perm_middle.mem_iff, List.mem_cons]
  constructor
  · exact fun hc => ⟨Or.inr hc, fun e => hnot (e ▸ hc)⟩
  · rintro ⟨rfl | hc, hne⟩
    · exact absurd rfl hne
    · exact hc

/-- The first block that fits is a smallest one. -/
theorem FreeListInv.first_fit (h : FreeListInv (u ++ b :: v)) (hu : ∀ c ∈ u, ¬ Fits n c) {c : Blk}
    (hc : c ∈ u ++ b :: v) (hfit : Fits n c) : b.size ≤ c.size := by
  rcases List.mem_append.mp hc with hc | hc
  · exact absurd hfit (hu c hc)
  · have hle := (List.pairwise_append.mp h.sorted).2.1
    rcases List.mem_cons.mp hc with rfl | hc
    · exact Nat.le_refl _
    · exact (List.pairwise_cons.mp hle).1 c hc

/-- What is left of a block that is split stays apart from the other free blocks: it
is inserted without being joined to any. -/
theorem FreeListInv.mem_carve_iff (h : FreeListInv (u ++ b :: v)) (hn : n + minBlockSize ≤ b.size)
    (c : Blk) :
    c ∈ (carve n b (u ++ v)).2 ↔
      (c ∈ u ++ b :: v ∧ c ≠ b) ∨ c = ⟨b.addr, b.size - (n + totalMetadataSize)⟩ := by
  have hne : b.size ≠ n := by
    simp only [minBlockSize] at hn
    omega
  have hap := (pairwise_apart_perm List.perm_middle).mp h.apart
  have hj := joins_split hn
  have htouch : ∀ d ∈ u ++ v, d.stop ≠ b.addr ∧
      Blk.stop ⟨b.addr, b.size - (n + totalMetadataSize)⟩ ≠ d.addr := by
    intro d hd
    have hmem := ((h.mem_rest_iff d).mp hd).1
    refine ⟨h.notAdjacent d hmem b (by simp), fun e => ?_⟩
    -- The rest of the block ends inside the block, where no other block begins.
    refine ((List.pairwise_cons.mp hap).1 d hd).not_has ?_ d.has_addr
    rw [← e, hj.has]
    exact Or.inr ⟨Nat.le_of_eq hj.touch.symm, by rw [hj.touch, Blk.stop, totalMetadataSize]; omega⟩
  rw [carve, if_neg hne]
  dsimp only
  rw [Kmalloc.addBlk, mergeBlk_of_no_touch htouch, (List.perm_orderedInsert Le _ _).mem_iff, List.mem_cons,
    h.mem_rest_iff, or_comm]

end

section

variable {w : World} {l : List Blk} {size newRam : Nat}

theorem Inv.bestFit (h : Inv w l) (hc : Legal w (.kmalloc size newRam)) (hpos : 1 ≤ size)
    (hle : size ≤ pgSize - totalMetadataSize) :
    BestFit l size (kmalloc w.heap size newRam) := by
  have hcases := kmalloc_cases h hc
  generalize kmalloc w.heap size newRam = res at hcases
  have hasks : AsksPage res → allocBlk l size = none → BestFit l size res := by
    intro hask hnone
    have hno : ∀ b ∈ l, b.size ≠ size ∧ ¬ size + minBlockSize ≤ b.size := fun b hb =>
      not_or.mp (allocBlk_eq_none_iff.mp hnone b hb)
    refine ⟨iff_of_true hask hno, ?_, ?_⟩
    · rintro ⟨b, hb, e⟩
      exact absurd e (hno b hb).1
    · rintro _ ⟨b, hb, hge⟩
      exact absurd hge (hno b hb).2
  cases hcases with
  | refused hsize => omega
  | oom _ _ hnone _ => exact hasks (Or.inl rfl) hnone
  | grown _ _ hnone _ _ _ _ => exact hasks (Or.inr ⟨_, rfl, rfl⟩) hnone
  | wasted _ _ hnone _ _ _ => exact hasks (Or.inr ⟨_, rfl, rfl⟩) hnone
  | @fit r h' _ _ halloc _ hmoved =>
      have hfree : freeList h' = r.2 := hmoved.inv.freeList_eq
      obtain ⟨⟨b, rest⟩, htake, rfl⟩ := Option.map_eq_some_iff.mp halloc
      obtain ⟨hfit, u, v, rfl, rfl, hu⟩ := takeFit_some htake
      have hb : b ∈ u ++ b :: v := by simp
      refine ⟨iff_of_false ?_ fun hno => hfit.elim (hno b hb).1 (hno b hb).2, ?_, ?_⟩
      · rintro (herr | ⟨r, hr, hgrew⟩)
        · cases herr
        · rw [Except.ok.injEq] at hr
          rw [← hr] at hgrew
          cases hgrew
      · rintro ⟨c, hcl, hcsize⟩
        have hexact : b.size = size := by
          have := h.free.first_fit hu hcl (Or.inl hcsize)
          refine hfit.resolve_right fun hge => ?_
          simp only [minBlockSize] at hge
          omega
        refine ⟨b, hb, _, hexact, rfl, ?_, fun c => ?_⟩
        · rw [carve, if_pos hexact]
        · rw [hfree, carve, if_pos hexact]
          exact h.free.mem_rest_iff c
      · rintro hno _
        have hge : size + minBlockSize ≤ b.size := hfit.resolve_left (hno b hb)
        refine ⟨b, hb, _, hge, fun c hcl hcge => h.free.first_fit hu hcl (Or.inr hcge), rfl, ?_,
          fun c => ?_⟩
        · rw [carve, if_neg (hno b hb)]
          simp only [Blk.ptr, Blk.stop, minBlockSize, totalMetadataSize] at hge ⊢
          omega
        · rw [hfree]
          exact h.free.mem_carve_iff hge c

end

/-- `kmalloc` takes a best fitting free block, and asks for a page exactly if none
fits. -/
theorem run_bestFit {h : History} {w : World} (hrun : Run h w) {size newRam : Nat} (hpos : 1 ≤ size)
    (hle : size ≤ pgSize - totalMetadataSize) (hc : newRam = 0 ∨ FreshPage w.pages newRam) :
    BestFit (freeList w.heap) size (kmalloc w.heap size newRam) := by
  obtain ⟨l, hinv⟩ := hrun.inv
  rw [hinv.freeList_eq]
  exact hinv.bestFit hc hpos hle

theorem run_bestFit_page :
    BestFit (freeList (after zeroed (.kmalloc 100 4096)).heap) 200
        (kmalloc (after zeroed (.kmalloc 100 4096)).heap 200 0) ∧
      freeList (after zeroed (.kmalloc 100 4096)).heap = [⟨4096, 3964⟩] :=
  ⟨run_bestFit (run_zeroed (by decide +kernel)) (by decide) (by decide) (Or.inl rfl),
    by decide +kernel⟩

end Kmalloc
end GuideOS
