import GuideOS.Mem.PageAlloc

/-!
# The buddy invariant

`Inv s l` relates a state to the page indices `l o` on the list of each order.
Between the calls of `s_free_block`, the recursive ones included, it holds as it
stands: `s_free_block` breaks it only between toggling the bit of a pair and
moving the pair's member on or off the list, and those two are one edit here.
`Inv.push` and `Inv.remove` are the two edits.
-/

namespace GuideOS
namespace PageAlloc

open Lib

def OnList (l : Nat → List Nat) (o i : Nat) : Prop := o ≤ maxOrder ∧ i ∈ l o

/-- How many members of pair `k` of order `o` are on a list. -/
def pairCount (l : List Nat) (o k : Nat) : Nat := l.countP fun i => i / 2 ^ (o + 1) = k

structure Inv (s : State) (l : Nat → List Nat) : Prop where
  /-- The physical map does not wrap. -/
  fit : kernBase + s.maxAddr ≤ 2 ^ 64
  chain : ∀ o ≤ maxOrder, Chain 0 s.next (s.bin o).list.head ((l o).map pageVa)
  size : ∀ o ≤ maxOrder, (s.bin o).list.size = (l o).length
  aligned : ∀ o ≤ maxOrder, ∀ i ∈ l o, 2 ^ o ∣ i
  below : ∀ o ≤ maxOrder, ∀ i ∈ l o, (i + 2 ^ o) * pgSize ≤ s.maxAddr
  disjoint : ∀ {o i o' i' p}, OnList l o i → OnList l o' i' → p ∈ block i o → p ∈ block i' o' →
    o = o' ∧ i = i'
  parity : ∀ o ≤ maxOrder, ∀ k,
    bitmapTest (s.bin o).bitmap k = decide (pairCount (l o) o k % 2 = 1)
  single : ∀ o < maxOrder, ∀ k, pairCount (l o) o k ≤ 1

/-! ## Counting the members of a pair -/

theorem pairCount_cons (i : Nat) (l : List Nat) (o k : Nat) :
    pairCount (i :: l) o k = pairCount l o k + if i / 2 ^ (o + 1) = k then 1 else 0 := by
  simp [pairCount, List.countP_cons]

theorem pairCount_erase {i : Nat} {l : List Nat} (hi : i ∈ l) (o k : Nat) :
    pairCount l o k = pairCount (l.erase i) o k + if i / 2 ^ (o + 1) = k then 1 else 0 := by
  rw [← pairCount_cons]
  exact (List.perm_cons_erase hi).countP_eq _

theorem exists_of_pairCount_pos {l : List Nat} {o k : Nat} (h : 0 < pairCount l o k) :
    ∃ i ∈ l, i / 2 ^ (o + 1) = k := by
  obtain ⟨i, hi, hk⟩ := List.countP_pos_iff.mp h
  exact ⟨i, hi, by simpa using hk⟩

theorem two_le_pairCount {l : List Nat} {o i j : Nat} (hnd : l.Nodup) (hi : i ∈ l) (hj : j ∈ l)
    (hij : i ≠ j) (hk : i / 2 ^ (o + 1) = j / 2 ^ (o + 1)) :
    2 ≤ pairCount l o (j / 2 ^ (o + 1)) := by
  have hi' : i ∈ l.erase j := (List.Nodup.mem_erase_iff hnd).mpr ⟨hij, hi⟩
  rw [pairCount_erase hj, pairCount_erase hi', if_pos rfl, if_pos hk]
  omega

theorem toggle_parity {α : Type} [DecidableEq α] {b : Bool} {n : Nat} {k j : α} (h : b = decide (n % 2 = 1)) :
    (b ^^ decide (j = k)) = decide ((n + if k = j then 1 else 0) % 2 = 1) := by
  subst h
  by_cases hjk : j = k
  · subst hjk
    rcases Nat.mod_two_eq_zero_or_one n with hn | hn
    · simp [hn, Nat.add_mod]
    · simp [hn, Nat.add_mod]
  · have hkj : ¬ k = j := fun e => hjk e.symm
    simp [hjk, hkj]

namespace Inv

variable {s s' : State} {l : Nat → List Nat} {o i : Nat}

theorem nodup (h : Inv s l) (ho : o ≤ maxOrder) : (l o).Nodup :=
  List.Nodup.of_map pageVa (h.chain o ho).nodup

theorem onList_below (h : Inv s l) (ho : o ≤ maxOrder) (hi : i ∈ l o) :
    (i + 1) * pgSize ≤ s.maxAddr := by
  have hpos := Nat.two_pow_pos o
  exact Nat.le_trans (Nat.mul_le_mul_right pgSize (by omega)) (h.below o ho i hi)

/-- A page starts blocks of one order only. -/
theorem order_unique (h : Inv s l) {o' : Nat} (ho : o ≤ maxOrder) (ho' : o' ≤ maxOrder)
    (hi : i ∈ l o) (hi' : i ∈ l o') : o = o' :=
  (h.disjoint ⟨ho, hi⟩ ⟨ho', hi'⟩ (self_mem_block i o) (self_mem_block i o')).1

theorem coalesced (h : Inv s l) : Coalesced maxOrder (OnList l) where
  le_top hD := hD.1
  aligned hD := h.aligned _ hD.1 _ hD.2
  disjoint := h.disjoint
  merged := by
    intro o i ho hD hD'
    have hi := h.aligned o hD.1 i hD.2
    have htwo := two_le_pairCount (h.nodup hD.1) hD'.2 hD.2 (buddy_ne hi) (buddy_div hi)
    have hone := h.single o ho (i / 2 ^ (o + 1))
    omega

/-- The lists are determined by the state. -/
theorem freeList_eq (h : Inv s l) (ho : o ≤ maxOrder) : freeList s o = l o := by
  have hlen : ((l o).map pageVa).length ≤ (s.bin o).list.size := by
    rw [List.length_map, h.size o ho]
  have hback : ∀ i ∈ l o, ((fun va => pgIndex (kv2p va)) ∘ pageVa) i = id i := by
    intro i hi
    rw [Function.comp_apply, pgIndex_kv2p_pageVa h.fit (h.onList_below ho hi), id]
  rw [freeList, (h.chain o ho).walk_eq hlen, List.map_map, List.map_congr_left hback, List.map_id]

theorem mem_freePages (h : Inv s l) {p : Nat} : p ∈ freePages s ↔ p ∈ cover (OnList l) := by
  simp only [freePages, Finset.mem_biUnion, Finset.mem_range, List.mem_toFinset, mem_cover, OnList]
  constructor
  · rintro ⟨o, ho, i, hi, hp⟩
    have ho' : o ≤ maxOrder := by omega
    rw [h.freeList_eq ho'] at hi
    exact ⟨o, i, ⟨ho', hi⟩, hp⟩
  · rintro ⟨o, i, ⟨ho, hi⟩, hp⟩
    rw [← h.freeList_eq ho] at hi
    exact ⟨o, by omega, i, hi, hp⟩

/-! ## Edits of one list -/

/-- Change the list of one order.  The other orders keep their bins, and `next`
keeps the pages on their lists. -/
theorem edit (h : Inv s l) {m : List Nat} (ho : o ≤ maxOrder) (hmax : s'.maxAddr = s.maxAddr)
    (hbin : ∀ o', o' ≠ o → s'.bin o' = s.bin o')
    (hnext : ∀ o', o' ≠ o → o' ≤ maxOrder → ∀ i ∈ l o', s'.next (pageVa i) = s.next (pageVa i))
    (hchain : Chain 0 s'.next (s'.bin o).list.head (m.map pageVa))
    (hsize : (s'.bin o).list.size = m.length)
    (haligned : ∀ i ∈ m, 2 ^ o ∣ i) (hbelow : ∀ i ∈ m, (i + 2 ^ o) * pgSize ≤ s.maxAddr)
    (hdisjoint : ∀ {o₁ i₁ o₂ i₂ p}, OnList (Function.update l o m) o₁ i₁ →
      OnList (Function.update l o m) o₂ i₂ → p ∈ block i₁ o₁ → p ∈ block i₂ o₂ →
      o₁ = o₂ ∧ i₁ = i₂)
    (hparity : ∀ k, bitmapTest (s'.bin o).bitmap k = decide (pairCount m o k % 2 = 1))
    (hsingle : o < maxOrder → ∀ k, pairCount m o k ≤ 1) :
    Inv s' (Function.update l o m) where
  fit := by rw [hmax]; exact h.fit
  chain o' ho' := by
    by_cases e : o' = o
    · subst e
      rw [Function.update_self]
      exact hchain
    · rw [Function.update_of_ne e, hbin o' e]
      refine (h.chain o' ho').congr fun va hva => ?_
      obtain ⟨i, hi, rfl⟩ := List.mem_map.mp hva
      exact hnext o' e ho' i hi
  size o' ho' := by
    by_cases e : o' = o
    · subst e
      rw [Function.update_self]
      exact hsize
    · rw [Function.update_of_ne e, hbin o' e]
      exact h.size o' ho'
  aligned o' ho' := by
    by_cases e : o' = o
    · subst e
      rw [Function.update_self]
      exact haligned
    · rw [Function.update_of_ne e]
      exact h.aligned o' ho'
  below o' ho' := by
    rw [hmax]
    by_cases e : o' = o
    · subst e
      rw [Function.update_self]
      exact hbelow
    · rw [Function.update_of_ne e]
      exact h.below o' ho'
  disjoint := hdisjoint
  parity o' ho' := by
    by_cases e : o' = o
    · subst e
      rw [Function.update_self]
      exact hparity
    · rw [Function.update_of_ne e, hbin o' e]
      exact h.parity o' ho'
  single o' ho' := by
    by_cases e : o' = o
    · subst e
      rw [Function.update_self]
      exact hsingle ho'
    · rw [Function.update_of_ne e]
      exact h.single o' ho'

theorem onList_update {m : List Nat} {o' i' : Nat} (ho : o ≤ maxOrder) :
    OnList (Function.update l o m) o' i' ↔ (o' = o ∧ i' ∈ m) ∨ (o' ≠ o ∧ OnList l o' i') := by
  by_cases e : o' = o
  · subst e
    simp [OnList, ho]
  · simp [OnList, e]

theorem onList_cons {o' i' : Nat} (ho : o ≤ maxOrder) :
    OnList (Function.update l o (i :: l o)) o' i' ↔ (o' = o ∧ i' = i) ∨ OnList l o' i' := by
  rw [onList_update ho, List.mem_cons]
  constructor
  · rintro (⟨rfl, rfl | hi⟩ | ⟨_, h⟩)
    · exact Or.inl ⟨rfl, rfl⟩
    · exact Or.inr ⟨ho, hi⟩
    · exact Or.inr h
  · rintro (⟨rfl, rfl⟩ | h)
    · exact Or.inl ⟨rfl, Or.inl rfl⟩
    · by_cases e : o' = o
      · subst e
        exact Or.inl ⟨rfl, Or.inr h.2⟩
      · exact Or.inr ⟨e, h⟩

theorem onList_erase (h : Inv s l) {o' i' : Nat} (ho : o ≤ maxOrder) :
    OnList (Function.update l o ((l o).erase i)) o' i' ↔ OnList l o' i' ∧ ¬ (o' = o ∧ i' = i) := by
  rw [onList_update ho, (h.nodup ho).mem_erase_iff]
  by_cases e : o' = o
  · subst e
    simp [OnList, ho, and_comm]
  · simp [e]

/-- Put a block that shares no page with a free block on the list of its order
and toggle the bit of its pair. -/
theorem push (h : Inv s l) (ho : o ≤ maxOrder) (hi : 2 ^ o ∣ i)
    (hbelow : (i + 2 ^ o) * pgSize ≤ s.maxAddr) (hfree : ∀ p ∈ block i o, p ∉ cover (OnList l))
    (hpair : o < maxOrder → pairCount (l o) o (i / 2 ^ (o + 1)) = 0) :
    Inv (pushBlock (s.toggle o (i / 2 ^ (o + 1))) i o) (Function.update l o (i :: l o)) := by
  have hpos := Nat.two_pow_pos o
  have hi₁ : (i + 1) * pgSize ≤ s.maxAddr :=
    Nat.le_trans (Nat.mul_le_mul_right pgSize (by omega)) hbelow
  have hnot : ∀ o' ≤ maxOrder, ∀ j ∈ l o', j ≠ i := by
    rintro o' ho' j hj rfl
    exact hfree j (self_mem_block j o) ⟨o', j, ⟨ho', hj⟩, self_mem_block j o'⟩
  have hva : ∀ o' ≤ maxOrder, ∀ j ∈ l o', pageVa j ≠ pageVa i := fun o' ho' j hj e =>
    hnot o' ho' j hj (pageVa_inj h.fit (h.onList_below ho' hj) hi₁ e)
  refine h.edit ho rfl ?_ ?_ ?_ ?_ ?_ ?_ ?_ ?_ ?_
  · intro o' ho'
    rw [pushBlock, State.bin_setList_of_ne _ _ _ ho', State.bin_store, State.bin_toggle_of_ne _ _ ho']
  · intro o' _ ho' j hj
    rw [pushBlock, State.next_setList, State.next_store, State.next_toggle,
      Function.update_of_ne (hva o' ho' j hj)]
  · rw [pushBlock, State.list_setList, State.next_setList, State.next_store, State.list_toggle,
      State.next_toggle, List.map_cons]
    refine (h.chain o ho).push (pageVa_ne_zero h.fit hi₁) ?_ ?_ ?_
    · intro hmem
      obtain ⟨j, hj, e⟩ := List.mem_map.mp hmem
      exact hva o ho j hj e
    · rw [Function.update_self]
    · intro va _ hne
      rw [Function.update_of_ne hne]
  · simp [pushBlock, h.size o ho]
  · intro j hj
    rcases List.mem_cons.mp hj with rfl | hj
    · exact hi
    · exact h.aligned o ho j hj
  · intro j hj
    rcases List.mem_cons.mp hj with rfl | hj
    · exact hbelow
    · exact h.below o ho j hj
  · intro o₁ i₁ o₂ i₂ p h₁ h₂ hp₁ hp₂
    rw [onList_cons ho] at h₁ h₂
    rcases h₁ with ⟨rfl, rfl⟩ | h₁ <;> rcases h₂ with ⟨rfl, rfl⟩ | h₂
    · exact ⟨rfl, rfl⟩
    · exact absurd ⟨o₂, i₂, h₂, hp₂⟩ (hfree p hp₁)
    · exact absurd ⟨o₁, i₁, h₁, hp₁⟩ (hfree p hp₂)
    · exact h.disjoint h₁ h₂ hp₁ hp₂
  · intro k
    rw [pairCount_cons, ← toggle_parity (h.parity o ho k), ← bitmapTest_toggle]
    simp [pushBlock]
  · intro hlt k
    rw [pairCount_cons]
    split
    next hk =>
      subst hk
      rw [hpair hlt]
    next => exact h.single o hlt k

/-- Take a block off the list of its order and toggle the bit of its pair.  How
the chain is relinked is left to the caller. -/
theorem remove (h : Inv s l) (ho : o ≤ maxOrder) (hi : i ∈ l o) (hmax : s'.maxAddr = s.maxAddr)
    (hbin : ∀ o', o' ≠ o → s'.bin o' = s.bin o')
    (hnext : ∀ va, va ∉ (l o).map pageVa → s'.next va = s.next va)
    (hchain : Chain 0 s'.next (s'.bin o).list.head (((l o).erase i).map pageVa))
    (hsize : (s'.bin o).list.size = (s.bin o).list.size - 1)
    (hbitmap : (s'.bin o).bitmap = bitmapToggle (s.bin o).bitmap (i / 2 ^ (o + 1))) :
    Inv s' (Function.update l o ((l o).erase i)) := by
  refine h.edit ho hmax hbin ?_ hchain ?_ ?_ ?_ ?_ ?_ ?_
  · intro o' hne ho' j hj
    refine hnext _ fun hmem => ?_
    obtain ⟨j', hj', e⟩ := List.mem_map.mp hmem
    obtain rfl := pageVa_inj h.fit (h.onList_below ho hj') (h.onList_below ho' hj) e
    exact hne (h.order_unique ho' ho hj hj')
  · rw [hsize, h.size o ho, List.length_erase_of_mem hi]
  · exact fun j hj => h.aligned o ho j (List.mem_of_mem_erase hj)
  · exact fun j hj => h.below o ho j (List.mem_of_mem_erase hj)
  · intro o₁ i₁ o₂ i₂ p h₁ h₂
    rw [h.onList_erase ho] at h₁ h₂
    exact h.disjoint h₁.1 h₂.1
  · intro k
    have hcount := pairCount_erase hi o k
    have htoggle := toggle_parity (h.parity o ho k) (k := i / 2 ^ (o + 1)) (j := k)
    rw [hbitmap, bitmapTest_toggle, htoggle, hcount]
    refine decide_eq_decide.mpr ?_
    split <;> omega
  · intro hlt k
    have hcount := pairCount_erase hi o k
    have hone := h.single o hlt k
    omega

end Inv

end PageAlloc
end GuideOS
