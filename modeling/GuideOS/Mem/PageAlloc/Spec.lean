import GuideOS.Mem.PageAlloc.Inv

/-!
# What the allocator's functions do

One specification for each function of `page_alloc.c`, over the invariant and
the set of covered pages.  Every one of them says that the call returns: no
panic and no endless loop is reachable from a state that satisfies the
invariant.
-/

namespace GuideOS
namespace PageAlloc

open Lib

variable {s : State} {l : Nat → List Nat} {o i : Nat}

/-! ## Unlinking the buddy -/

/-- The walk stops at the link that holds the cell looked for. -/
theorem findLink_eq {a fuel : Nat} {u v : List Nat} {pc : Option Nat}
    (h : Chain 0 s.next (s.link o pc) (u ++ a :: v)) (ha : a ∉ u) (hfuel : u.length < fuel) :
    ∃ pc', findLink s o a fuel pc = some pc' ∧ s.link o pc' = a ∧
      ((u = [] ∧ pc' = pc) ∨ ∃ u' b, u = u' ++ [b] ∧ pc' = some b) := by
  induction u generalizing pc fuel with
  | nil =>
      cases fuel with
      | zero => exact absurd hfuel (Nat.not_lt_zero _)
      | succ fuel =>
          have hlink : s.link o pc = a := h.1
          refine ⟨pc, ?_, hlink, Or.inl ⟨rfl, rfl⟩⟩
          rw [findLink, if_neg fun hc => hc.2 hlink]
  | cons x u ih =>
      cases fuel with
      | zero => exact absurd hfuel (Nat.not_lt_zero _)
      | succ fuel =>
          obtain ⟨hx, hx0, hrest⟩ := h
          rw [List.mem_cons, not_or] at ha
          have hstep : findLink s o a (fuel + 1) pc = findLink s o a fuel (some x) := by
            rw [findLink, hx, if_pos ⟨hx0, fun e => ha.1 e.symm⟩]
          have hlen : u.length < fuel := by
            rw [List.length_cons] at hfuel
            omega
          have hnext : Chain 0 s.next (s.link o (some x)) (u ++ a :: v) := hrest
          obtain ⟨pc', hfind, hlink, hpos⟩ := ih hnext ha.2 hlen
          refine ⟨pc', hstep.trans hfind, hlink, Or.inr ?_⟩
          rcases hpos with ⟨rfl, rfl⟩ | ⟨u', b, rfl, rfl⟩
          · exact ⟨[], x, rfl, rfl⟩
          · exact ⟨x :: u', b, rfl, rfl⟩

namespace Inv

/-- A list holds fewer blocks than a walk has steps. -/
theorem length_lt_walkFuel (h : Inv s l) (ho : o ≤ maxOrder) : (l o).length < walkFuel := by
  have hsub : (l o).toFinset ⊆ Finset.range (2 ^ 52) := by
    intro i hi
    have hbelow := h.onList_below ho (List.mem_toFinset.mp hi)
    have hfit := h.fit
    rw [Finset.mem_range]
    unfold pgSize at hbelow
    omega
  have hcard := Finset.card_le_card hsub
  rw [List.toFinset_card_of_nodup (h.nodup ho), Finset.card_range] at hcard
  unfold walkFuel
  omega

/-- A bin's list, cut at one of its blocks. -/
theorem chain_split (h : Inv s l) (ho : o ≤ maxOrder) {j : Nat} {u v : List Nat}
    (huv : l o = u ++ j :: v) :
    Chain 0 s.next (s.bin o).list.head (u.map pageVa ++ pageVa j :: v.map pageVa) ∧
      (l o).erase j = u ++ v := by
  have hchain := h.chain o ho
  have hnd := h.nodup ho
  rw [huv] at hchain hnd
  have hju : j ∉ u := fun hmem =>
    List.disjoint_of_nodup_append hnd hmem List.mem_cons_self
  refine ⟨by simpa using hchain, ?_⟩
  rw [huv, List.erase_append_right _ hju, List.erase_cons_head]

/-- Toggling the bit of a pair and unlinking a member of it from its list. -/
theorem unlinkBuddy_ok (h : Inv s l) (ho : o ≤ maxOrder) (hi : 2 ^ o ∣ i)
    (hb : buddy i o ∈ l o) :
    ∃ s', unlinkBuddy (s.toggle o (i / 2 ^ (o + 1))) i o = .ok s' ∧ s'.maxAddr = s.maxAddr ∧
      Inv s' (Function.update l o ((l o).erase (buddy i o))) := by
  obtain ⟨u, v, huv⟩ := List.append_of_mem hb
  obtain ⟨hchain, herase⟩ := h.chain_split ho huv
  let t := s.toggle o (i / 2 ^ (o + 1))
  have htl : (t.bin o).list = (s.bin o).list := State.list_toggle s o _
  have hva : pageVa (buddy i o) ∉ u.map pageVa := fun hmem =>
    List.disjoint_of_nodup_append hchain.nodup hmem List.mem_cons_self
  have hlen : (u.map pageVa).length < walkFuel := by
    have hlt := h.length_lt_walkFuel ho
    rw [huv, List.length_append] at hlt
    rw [List.length_map]
    omega
  have hwalk : Chain 0 t.next (t.link o none) (u.map pageVa ++ pageVa (buddy i o) :: v.map pageVa) := by
    rw [State.link, htl]
    exact hchain
  obtain ⟨pc, hfind, hlink, hpos⟩ := findLink_eq hwalk hva hlen
  have hxor : i ^^^ 1 <<< o = buddy i o := by rw [Nat.one_shiftLeft, buddy]
  let t' := t.setLink o pc (t.next (pageVa (buddy i o)))
  have hrun : unlinkBuddy t i o =
      .ok (t'.setList o (t'.bin o).list.head ((t'.bin o).list.size - 1)) := by
    simp only [unlinkBuddy, hxor, hfind, hlink, if_true, t']
  refine ⟨_, hrun, by cases pc <;> rfl, ?_⟩
  rcases hpos with ⟨hu, rfl⟩ | ⟨u', b, hu, rfl⟩
  · -- The buddy is the head of the list.
    have hu' : u = [] := List.map_eq_nil_iff.mp hu
    subst hu'
    refine h.remove ho hb rfl ?_ (fun _ _ => rfl) ?_ ?_ ?_
    · intro o' ho'
      simp only [t', t, State.setLink, State.bin_setList_of_ne _ _ _ ho',
        State.bin_toggle_of_ne _ _ ho']
    · rw [herase]
      have htail := (chain_cons.mp hchain).2.2
      simpa [t', t, State.setLink] using htail
    · simp [t', t, State.setLink]
    · simp [t', t, State.setLink, buddy_div hi]
  · -- The buddy follows the page at `b`.
    refine h.remove ho hb rfl ?_ ?_ ?_ ?_ ?_
    · intro o' ho'
      simp only [t', t, State.setLink, State.bin_setList_of_ne _ _ _ ho', State.bin_store,
        State.bin_toggle_of_ne _ _ ho']
    · intro va hnot
      have hne : va ≠ b := by
        rintro rfl
        apply hnot
        rw [huv, List.map_append, hu]
        simp
      simp [t', t, State.setLink, hne]
    · rw [hu, List.append_assoc] at hchain
      have := hchain.unlink_update
      rw [herase, List.map_append, hu, List.append_assoc]
      simpa [t', t, State.setLink] using this
    · simp [t', t, State.setLink]
    · simp [t', t, State.setLink, buddy_div hi]

end Inv

/-! ## Freeing a block -/

theorem shift_eq_div (i o : Nat) : i >>> o = i / 2 ^ o := Nat.shiftRight_eq_div_pow i o

theorem mask_eq_zero_iff (i o : Nat) : i &&& ((1 <<< o) - 1) = 0 ↔ 2 ^ o ∣ i := by
  rw [Nat.one_shiftLeft, Nat.and_two_pow_sub_one_eq_mod, Nat.dvd_iff_mod_eq_zero]

/-- `pgidx & ~((1UL << (order+1))-1)` -/
theorem mask_parent {i o : Nat} (hi : i < 2 ^ 64) (ho : o < 64) :
    i &&& not64 ((1 <<< (o + 1)) - 1) = parent i o := by
  rw [Nat.one_shiftLeft, and_not64 hi (o + 1) ho, parent]

namespace Inv

/-- A set bit below the top order means that the buddy is on the list. -/
theorem buddy_mem (h : Inv s l) (ho : o < maxOrder) (hi : 2 ^ o ∣ i)
    (hfree : ∀ p ∈ block i o, p ∉ cover (OnList l))
    (hbit : bitmapTest (s.bin o).bitmap (i / 2 ^ (o + 1)) = true) : buddy i o ∈ l o := by
  have hodd : pairCount (l o) o (i / 2 ^ (o + 1)) % 2 = 1 := by
    rw [h.parity o (by omega)] at hbit
    exact of_decide_eq_true hbit
  obtain ⟨j, hj, hpair⟩ := exists_of_pairCount_pos (l := l o) (o := o) (k := i / 2 ^ (o + 1))
    (by omega)
  rcases eq_or_eq_buddy hi (h.aligned o (by omega) j hj) hpair with rfl | rfl
  · exact absurd ⟨o, j, ⟨by omega, hj⟩, self_mem_block j o⟩ (hfree j (self_mem_block j o))
  · exact hj

/-- A clear bit below the top order means that no member of the pair is on the
list. -/
theorem pairCount_eq_zero (h : Inv s l) (ho : o < maxOrder) {k : Nat}
    (hbit : bitmapTest (s.bin o).bitmap k = false) : pairCount (l o) o k = 0 := by
  rw [h.parity o (by omega)] at hbit
  have heven := of_decide_eq_false hbit
  have hone := h.single o ho k
  omega

/-- Taking a block off the lists uncovers exactly its pages. -/
theorem mem_cover_erase (h : Inv s l) (ho : o ≤ maxOrder) {j p : Nat} (hj : j ∈ l o) :
    p ∈ cover (OnList (Function.update l o ((l o).erase j))) ↔
      p ∈ cover (OnList l) ∧ p ∉ block j o := by
  simp only [mem_cover, h.onList_erase ho]
  constructor
  · rintro ⟨o', i', ⟨hon, hne⟩, hp⟩
    exact ⟨⟨o', i', hon, hp⟩, fun hpj => hne (h.disjoint hon ⟨ho, hj⟩ hp hpj)⟩
  · rintro ⟨⟨o', i', hon, hp⟩, hpj⟩
    refine ⟨o', i', ⟨hon, ?_⟩, hp⟩
    rintro ⟨rfl, rfl⟩
    exact hpj hp

end Inv

theorem mem_cover_cons {p : Nat} (ho : o ≤ maxOrder) :
    p ∈ cover (OnList (Function.update l o (i :: l o))) ↔ p ∈ cover (OnList l) ∨ p ∈ block i o := by
  simp only [mem_cover, Inv.onList_cons ho]
  constructor
  · rintro ⟨o', i', ⟨rfl, rfl⟩ | hon, hp⟩
    · exact Or.inr hp
    · exact Or.inl ⟨o', i', hon, hp⟩
  · rintro (⟨o', i', hon, hp⟩ | hp)
    · exact ⟨o', i', Or.inr hon, hp⟩
    · exact ⟨o, i, Or.inl ⟨rfl, rfl⟩, hp⟩

/-- The parent ends where the later of its two halves ends. -/
theorem parent_below {limit : Nat} (hi : 2 ^ o ∣ i) (h : (i + 2 ^ o) * pgSize ≤ limit)
    (hb : (buddy i o + 2 ^ o) * pgSize ≤ limit) :
    (parent i o + 2 ^ (o + 1)) * pgSize ≤ limit := by
  have hpos := Nat.two_pow_pos (o + 1)
  have hlast : parent i o + 2 ^ (o + 1) - 1 ∈ block (parent i o) (o + 1) := by
    rw [mem_block]
    omega
  rcases (mem_block_parent hi).mp hlast with hp | hp
  · rw [mem_block] at hp
    exact Nat.le_trans (Nat.mul_le_mul_right pgSize (by omega)) h
  · rw [mem_block] at hp
    exact Nat.le_trans (Nat.mul_le_mul_right pgSize (by omega)) hb

/-- `s_free_block` on an aligned block below the limit that shares no page with
a free block returns, keeps the invariant and adds exactly the block's pages.
The induction is on the orders left above `o`: after unlinking the buddy the
invariant holds again, and the parent is again disjoint from the free blocks. -/
theorem sFreeBlock_ok (h : Inv s l) (ho : o ≤ maxOrder) (hi : 2 ^ o ∣ i)
    (hbelow : (i + 2 ^ o) * pgSize ≤ s.maxAddr) (hfree : ∀ p ∈ block i o, p ∉ cover (OnList l)) :
    ∃ s' l', sFreeBlock s i o = .ok s' ∧ s'.maxAddr = s.maxAddr ∧ Inv s' l' ∧
      ∀ p, p ∈ cover (OnList l') ↔ p ∈ cover (OnList l) ∨ p ∈ block i o := by
  induction hn : maxOrder - o generalizing s l o i with
  | zero =>
      have htop : o = maxOrder := by omega
      have hbit : ¬ hasBuddy s i o = true := by simp [hasBuddy, htop]
      have halign : ¬ i &&& ((1 <<< o) - 1) ≠ 0 := not_not.mpr ((mask_eq_zero_iff i o).mpr hi)
      rw [sFreeBlock, dif_neg (by omega), if_neg halign, dif_neg hbit, shift_eq_div]
      exact ⟨_, _, rfl, rfl, h.push ho hi hbelow hfree (fun hlt => by omega),
        fun p => mem_cover_cons ho⟩
  | succ n ih =>
      have hlt : o < maxOrder := by omega
      have halign : ¬ i &&& ((1 <<< o) - 1) ≠ 0 := not_not.mpr ((mask_eq_zero_iff i o).mpr hi)
      have hbuddy : hasBuddy s i o = bitmapTest (s.bin o).bitmap (i / 2 ^ (o + 1)) := by
        rw [hasBuddy, if_neg (by omega), shift_eq_div]
      rw [sFreeBlock, dif_neg (by omega), if_neg halign, shift_eq_div]
      by_cases hbit : hasBuddy s i o = true
      · rw [dif_pos hbit]
        rw [hbuddy] at hbit
        have hmem := h.buddy_mem hlt hi hfree hbit
        obtain ⟨s₁, hrun, hmax, h₁⟩ := h.unlinkBuddy_ok ho hi hmem
        have hcover : ∀ p, p ∈ cover (OnList l) ↔
            p ∈ cover (OnList (Function.update l o ((l o).erase (buddy i o)))) ∨
              p ∈ block (buddy i o) o := by
          intro p
          rw [h.mem_cover_erase ho hmem]
          constructor
          · intro hp
            by_cases hpb : p ∈ block (buddy i o) o
            · exact Or.inr hpb
            · exact Or.inl ⟨hp, hpb⟩
          · rintro (hp | hp)
            · exact hp.1
            · exact ⟨o, buddy i o, ⟨ho, hmem⟩, hp⟩
        have hlt64 : i < 2 ^ 64 := by
          have hfit := h.fit
          have hpos := Nat.two_pow_pos o
          unfold pgSize at hbelow
          omega
        have ho64 : o < 64 := by
          unfold maxOrder at hlt
          omega
        obtain ⟨s', l', hrec, hmax', h', hcover'⟩ := ih h₁ (Nat.succ_le_of_lt hlt) (dvd_parent i o)
          (by rw [hmax]; exact parent_below hi hbelow (h.below o ho _ hmem))
          (by
            intro p hp
            rw [h.mem_cover_erase ho hmem]
            rcases (mem_block_parent hi).mp hp with hp | hp
            · exact fun hc => hfree p hp hc.1
            · exact fun hc => hc.2 hp)
          (by omega)
        rw [hrun, mask_parent hlt64 ho64]
        refine ⟨s', l', hrec, hmax'.trans hmax, h', fun p => ?_⟩
        rw [hcover', hcover, mem_block_parent hi, or_assoc, or_comm (a := p ∈ block i o)]
      · rw [dif_neg hbit]
        rw [hbuddy, Bool.not_eq_true] at hbit
        exact ⟨_, _, rfl, rfl, h.push ho hi hbelow hfree fun _ => h.pairCount_eq_zero hlt hbit,
          fun p => mem_cover_cons ho⟩

/-! ## Allocating a block -/

namespace Inv

/-- A bin that is not empty gives up the first block of its list. -/
theorem popBlock_ok (h : Inv s l) (ho : o ≤ maxOrder) {j : Nat} {v : List Nat}
    (hl : l o = j :: v) :
    (popBlock s o).1 = pageVa j ∧ (popBlock s o).2.maxAddr = s.maxAddr ∧
      Inv (popBlock s o).2 (Function.update l o ((l o).erase j)) := by
  obtain ⟨hchain, herase⟩ := h.chain_split ho (u := []) hl
  have hj : j ∈ l o := hl ▸ List.mem_cons_self
  obtain ⟨hhead, _, htail⟩ := chain_cons.mp hchain
  have hidx : pgIndex (kv2p (pageVa j)) = j := pgIndex_kv2p_pageVa h.fit (h.onList_below ho hj)
  refine ⟨hhead, rfl, h.remove ho hj rfl ?_ (fun _ _ => rfl) ?_ ?_ ?_⟩
  · intro o' ho'
    simp only [popBlock, State.bin_toggle_of_ne _ _ ho', State.bin_setList_of_ne _ _ _ ho']
  · rw [herase]
    simpa [popBlock, hhead] using htail
  · simp [popBlock]
  · simp only [popBlock, State.bitmap_toggle, State.bitmap_setList, hhead, hidx, shift_eq_div]

end Inv

/-- The two halves of a block of order `o + 1`, by their first pages. -/
theorem mem_block_succ {p : Nat} : p ∈ block i (o + 1) ↔ p ∈ block i o ∨ p ∈ block (i + 2 ^ o) o := by
  rw [mem_block, mem_block, mem_block, Nat.pow_succ]
  omega

/-- What `s_alloc_block` promises of a block it hands out. -/
structure Allocated (s : State) (l : Nat → List Nat) (o i : Nat) (s' : State)
    (l' : Nat → List Nat) : Prop where
  aligned : 2 ^ o ∣ i
  below : (i + 2 ^ o) * pgSize ≤ s.maxAddr
  maxAddr : s'.maxAddr = s.maxAddr
  inv : Inv s' l'
  free : ∀ p ∈ block i o, p ∈ cover (OnList l)
  cover : ∀ p, p ∈ cover (OnList l') ↔ p ∈ cover (OnList l) ∧ p ∉ block i o

/-- Giving back the upper half of a block leaves its lower half allocated. -/
theorem Allocated.split {s₁ : State} {l₁ : Nat → List Nat} (h : Allocated s l (o + 1) i s₁ l₁)
    (ho : o ≤ maxOrder) :
    ∃ s' l', sFreeBlock s₁ (i + 2 ^ o) o = .ok s' ∧ Allocated s l o i s' l' := by
  have hi : 2 ^ o ∣ i := dvd_of_dvd_succ h.aligned
  have hbelow := h.below
  have htwo : i + 2 ^ o + 2 ^ o = i + 2 ^ (o + 1) := by rw [Nat.pow_succ]; omega
  have hdisj : ∀ p ∈ block (i + 2 ^ o) o, p ∉ block i o := by
    intro p hp hp'
    rw [mem_block] at hp hp'
    omega
  obtain ⟨s', l', hrun, hmax, h', hcover⟩ := sFreeBlock_ok h.inv ho (Nat.dvd_add hi (dvd_refl _))
    (by rw [htwo, h.maxAddr]; exact hbelow)
    (fun p hp hc => ((h.cover p).mp hc).2 (mem_block_succ.mpr (Or.inr hp)))
  refine ⟨s', l', hrun, hi, ?_, hmax.trans h.maxAddr, h', ?_, ?_⟩
  · exact Nat.le_trans (Nat.mul_le_mul_right pgSize (by omega)) hbelow
  · exact fun p hp => h.free p (mem_block_succ.mpr (Or.inl hp))
  · intro p
    rw [hcover, h.cover, mem_block_succ]
    constructor
    · rintro (⟨hp, hnot⟩ | hp)
      · exact ⟨hp, fun hb => hnot (Or.inl hb)⟩
      · exact ⟨h.free p (mem_block_succ.mpr (Or.inr hp)), hdisj p hp⟩
    · rintro ⟨hp, hnot⟩
      by_cases hup : p ∈ block (i + 2 ^ o) o
      · exact Or.inr hup
      · exact Or.inl ⟨hp, fun hb => hb.elim hnot hup⟩

theorem Allocated.ne_zero {s' : State} {l' : Nat → List Nat} (h : Inv s l)
    (ha : Allocated s l o i s' l') : pageVa i ≠ 0 := by
  have hpos := Nat.two_pow_pos o
  exact pageVa_ne_zero h.fit
    (Nat.le_trans (Nat.mul_le_mul_right pgSize (by omega)) ha.below)

/-- The upper half of a block, as `s_alloc_block` computes it. -/
theorem Allocated.upper {s' : State} {l' : Nat → List Nat} (h : Inv s l)
    (ha : Allocated s l (o + 1) i s' l') :
    pgIndex (kv2p ((pageVa i + pgSize <<< o) % 2 ^ 64)) = i + 2 ^ o ∧
      (i + 2 ^ o + 1) * pgSize ≤ s.maxAddr := by
  have hpos := Nat.two_pow_pos o
  have hpow : 2 ^ (o + 1) = 2 ^ o + 2 ^ o := by rw [Nat.pow_succ]; omega
  have hbelow := Nat.le_trans (Nat.mul_le_mul_right pgSize
    (show i + 2 ^ o + 1 ≤ i + 2 ^ (o + 1) by omega)) ha.below
  rw [Nat.shiftLeft_eq]
  exact ⟨pgIndex_kv2p_add h.fit hbelow, hbelow⟩

/-- `s_alloc_block` either finds every bin from its order on empty and changes
nothing, or returns an aligned block of free pages, which it removes. -/
theorem sAllocBlock_ok (h : Inv s l) (ho : o ≤ maxOrder + 1) :
    ((∀ o', o ≤ o' → o' ≤ maxOrder → l o' = []) ∧ sAllocBlock s o = .ok (0, s)) ∨
    ∃ i s' l', sAllocBlock s o = .ok (pageVa i, s') ∧ o ≤ maxOrder ∧ Allocated s l o i s' l' := by
  induction hn : maxOrder + 1 - o generalizing o with
  | zero =>
      refine Or.inl ⟨fun o' h₁ h₂ => by omega, ?_⟩
      rw [sAllocBlock, if_pos (by omega)]
  | succ n ih =>
      have hle : o ≤ maxOrder := by omega
      rw [sAllocBlock, if_neg (by omega)]
      cases hl : l o with
      | cons j v =>
          have hj : j ∈ l o := hl ▸ List.mem_cons_self
          have hsize : (s.bin o).list.size ≠ 0 := by simp [h.size o hle, hl]
          obtain ⟨hpop, hmax, hinv⟩ := h.popBlock_ok hle hl
          rw [if_pos hsize]
          refine Or.inr ⟨j, (popBlock s o).2, _, by rw [← hpop], hle, h.aligned o hle j hj,
            h.below o hle j hj, hmax, hinv, ?_, fun p => h.mem_cover_erase hle hj⟩
          exact fun p hp => ⟨o, j, ⟨hle, hj⟩, hp⟩
      | nil =>
          have hsize : ¬ (s.bin o).list.size ≠ 0 := by simp [h.size o hle, hl]
          rw [if_neg hsize]
          rcases ih (o := o + 1) (by omega) (by omega) with ⟨hempty, hrun⟩ | ⟨i, s₁, l₁, hrun, _, halloc⟩
          · refine Or.inl ⟨fun o' h₁ h₂ => ?_, by rw [hrun]; rfl⟩
            rcases Nat.eq_or_lt_of_le h₁ with rfl | hlt
            · exact hl
            · exact hempty o' hlt h₂
          · obtain ⟨s', l', hfree, halloc'⟩ := halloc.split hle
            refine Or.inr ⟨i, s', l', ?_, hle, halloc'⟩
            simp only [hrun, if_neg (halloc.ne_zero h), (halloc.upper h).1, hfree]

/-! ## Freeing a range -/

theorem orderFits_iff {a b k : Nat} : orderFits a b k = true ↔ 2 ^ k ∣ a ∧ a + 2 ^ k ≤ b := by
  rw [orderFits, Bool.and_eq_true, decide_eq_true_eq, decide_eq_true_eq, mask_eq_zero_iff,
    Nat.one_shiftLeft]

/-- Order `0` fits whenever a page is left, so the inner loop always picks. -/
theorem pickOrder_ok {a b : Nat} (hab : a < b) (k : Nat) :
    ∃ m, pickOrder a b k = some m ∧ m ≤ k ∧ 2 ^ m ∣ a ∧ a + 2 ^ m ≤ b := by
  induction k with
  | zero =>
      have hfits : orderFits a b 0 = true := orderFits_iff.mpr ⟨by simp, hab⟩
      exact ⟨0, by rw [pickOrder, if_pos hfits], Nat.le_refl 0, orderFits_iff.mp hfits⟩
  | succ k ih =>
      by_cases hfits : orderFits a b (k + 1) = true
      · exact ⟨k + 1, by rw [pickOrder, if_pos hfits], Nat.le_refl _, orderFits_iff.mp hfits⟩
      · obtain ⟨m, hpick, hm, hrest⟩ := ih
        exact ⟨m, by rw [pickOrder, if_neg hfits, hpick], by omega, hrest⟩

/-- The loop of `pgalloc_free_range` frees exactly the pages from `a` to `b`. -/
theorem freeRangeLoop_ok {a b : Nat} (h : Inv s l)
    (hrange : ∀ p, a ≤ p → p < b → (p + 1) * pgSize ≤ s.maxAddr ∧ p ∉ cover (OnList l)) :
    ∃ s' l', freeRangeLoop s a b = .ok s' ∧ s'.maxAddr = s.maxAddr ∧ Inv s' l' ∧
      ∀ p, p ∈ cover (OnList l') ↔ p ∈ cover (OnList l) ∨ (a ≤ p ∧ p < b) := by
  induction hn : b - a using Nat.strong_induction_on generalizing s l a with
  | _ n ih =>
      rw [freeRangeLoop]
      by_cases hab : a < b
      · obtain ⟨k, hpick, hk, hdvd, hle⟩ := pickOrder_ok hab maxOrder
        have hpos := Nat.two_pow_pos k
        have hlast := hrange (a + 2 ^ k - 1) (by omega) (by omega)
        rw [show a + 2 ^ k - 1 + 1 = a + 2 ^ k by omega] at hlast
        obtain ⟨s₁, l₁, hrun, hmax, h₁, hcover⟩ := sFreeBlock_ok h hk hdvd hlast.1 fun p hp =>
          (hrange p (mem_block.mp hp).1 (Nat.lt_of_lt_of_le (mem_block.mp hp).2 hle)).2
        obtain ⟨s', l', hloop, hmax', h', hcover'⟩ :=
          ih (b - (a + 2 ^ k)) (by omega) h₁ (a := a + 2 ^ k)
            (by
              intro p hp hpb
              rw [hmax, hcover, mem_block]
              have hp' := hrange p (by omega) hpb
              exact ⟨hp'.1, fun hc => hc.elim hp'.2 (by omega)⟩)
            rfl
        rw [if_pos hab]
        refine ⟨s', l', ?_, hmax'.trans hmax, h', fun p => ?_⟩
        · simp only [hpick, hrun, Nat.one_shiftLeft, hloop]
        · rw [hcover', hcover, mem_block, or_assoc]
          refine or_congr_right ?_
          omega
      · rw [if_neg hab]
        refine ⟨s, l, rfl, rfl, h, fun p => ?_⟩
        exact ⟨Or.inl, fun hp => hp.elim id (by omega)⟩

end PageAlloc
end GuideOS
