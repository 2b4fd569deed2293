import GuideOS.Mem.PageAlloc.Run

/-!
# Page ownership

Every page that was ever fed to the allocator is, at each moment, either free or
part of exactly one live allocation.  The ledger below is read off the history
of a run: `fedPages` are the pages ever freed into the allocator, `livePages`
those handed out and not given back since, and `owners h p` names the
allocations, by their position in the history, that page `p` is part of.
-/

namespace GuideOS
namespace PageAlloc

open Lib

def handedOut : Call × Nat → Finset Nat
  | (.allocate order, r) => if r = 0 then ∅ else block (pgIndex (kv2p r)) order.toNat
  | _ => ∅

def fedPages : History → Finset Nat
  | [] => ∅
  | e :: h => fedPages h ∪ freed e.1

def livePages : History → Finset Nat
  | [] => ∅
  | e :: h => (livePages h \ freed e.1) ∪ handedOut e

def owners : History → Nat → List Nat
  | [], _ => []
  | e :: h, p =>
      if p ∈ handedOut e then h.length :: owners h p
      else if p ∈ freed e.1 then [] else owners h p

/-! ## One call -/

/-- A call moves the pages it frees into the free pages and the pages it hands
out from them, and does one of the two only. -/
structure Moved (s : State) (e : Call × Nat) (s' : State) : Prop where
  pages : freePages s' = (freePages s ∪ freed e.1) \ handedOut e
  handed : handedOut e ⊆ freePages s
  fresh : Disjoint (freed e.1) (freePages s)

theorem moved_of_no_handed {s s' : State} {e : Call × Nat} (h : handedOut e = ∅)
    (hpages : freePages s' = freePages s ∪ freed e.1) (hfresh : Disjoint (freed e.1) (freePages s)) :
    Moved s e s' where
  pages := by rw [h, Finset.sdiff_empty, hpages]
  handed := by rw [h]; exact Finset.empty_subset _
  fresh := hfresh

theorem moved_allocate {s s' : State} {l : Nat → List Nat} (h : Inv s l) {order : Int} {r : Nat}
    (hexec : pgallocAllocate s order = .ok (r, s')) : Moved s (.allocate order, r) s' := by
  have hnull : Moved s (.allocate order, 0) s :=
    moved_of_no_handed (by simp [handedOut]) (by simp [freed]) (by simp [freed])
  rcases lt_or_ge order 0 with hneg | hpos
  · rw [pgallocAllocate_neg s hneg, Except.ok.injEq, Prod.mk.injEq] at hexec
    rw [← hexec.1, ← hexec.2]
    exact hnull
  · obtain ⟨n, rfl⟩ := Int.eq_ofNat_of_zero_le hpos
    rcases pgallocAllocate_ok h n with ⟨hrun, _⟩ | ⟨i, t, hrun, hnz, _, htaken⟩
    · rw [hrun, Except.ok.injEq, Prod.mk.injEq] at hexec
      rw [← hexec.1, ← hexec.2]
      exact hnull
    · rw [hrun, Except.ok.injEq, Prod.mk.injEq] at hexec
      have hpos := Nat.two_pow_pos n
      have hi : (i + 1) * pgSize ≤ s.maxAddr :=
        Nat.le_trans (Nat.mul_le_mul_right pgSize (by omega)) htaken.below
      have hblock : handedOut (.allocate n, r) = block i n := by
        rw [← hexec.1, handedOut, if_neg hnz, pgIndex_kv2p_pageVa h.fit hi, Int.toNat_natCast]
      rw [← hexec.2]
      constructor
      · rw [hblock, freed, Finset.union_empty, htaken.pages]
      · rw [hblock]
        exact htaken.free
      · exact Finset.disjoint_empty_left _

theorem exec_moved {s s' : State} {l : Nat → List Nat} (h : Inv s l) {c : Call} {r : Nat}
    (hc : Legal s c) (hexec : exec s c = .ok (r, s')) : Moved s (c, r) s' := by
  have hfresh : Disjoint (freed c) (freePages s) :=
    Finset.disjoint_left.mpr fun p hp => (hc.2 p hp).2
  cases c with
  | freeRange startVa endVa =>
      obtain ⟨t, hrun, hfreed⟩ := pgallocFreeRange_ok h hc
      rw [exec, hrun, Except.map, Except.ok.injEq, Prod.mk.injEq] at hexec
      rw [← hexec.2]
      exact moved_of_no_handed rfl hfreed.pages hfresh
  | free addr order =>
      obtain ⟨t, hrun, hfreed⟩ := pgallocFree_ok h hc
      rw [exec, hrun, Except.map, Except.ok.injEq, Prod.mk.injEq] at hexec
      rw [← hexec.2]
      exact moved_of_no_handed rfl hfreed.pages hfresh
  | allocate order => exact moved_allocate h hexec
  | clientStore va v =>
      rw [exec, Except.ok.injEq, Prod.mk.injEq] at hexec
      rw [← hexec.2]
      refine moved_of_no_handed rfl ?_ hfresh
      rw [freed, Finset.union_empty]
      ext p
      rw [(h.store hc.1).mem_freePages, h.mem_freePages]

/-! ## The ledger over a run -/

structure Ledger (h : History) (s : State) : Prop where
  total : freePages s ∪ livePages h = fedPages h
  apart : Disjoint (freePages s) (livePages h)
  owned : ∀ p, p ∈ livePages h ↔ owners h p ≠ []
  once : ∀ p, (owners h p).length ≤ 1

theorem ledger_start (maxAddr : Nat) (next : Nat → Nat) : Ledger [] (cleared maxAddr next) := by
  have hempty := freePages_cleared maxAddr next
  constructor
  · rw [hempty, livePages, fedPages, Finset.union_empty]
  · rw [hempty]
    exact Finset.disjoint_empty_left _
  · intro p
    simp [livePages, owners]
  · intro p
    simp [owners]

theorem Ledger.call {h : History} {s s' : State} {e : Call × Nat} (hl : Ledger h s)
    (hm : Moved s e s') : Ledger (e :: h) s' := by
  have happart := Finset.disjoint_left.mp hl.apart
  have hfresh := Finset.disjoint_left.mp hm.fresh
  have htotal : ∀ p, (p ∈ freePages s ∨ p ∈ livePages h) ↔ p ∈ fedPages h := by
    intro p
    rw [← hl.total, Finset.mem_union]
  have hhanded : ∀ {p}, p ∈ handedOut e → p ∈ freePages s ∧ p ∉ livePages h ∧ p ∉ freed e.1 :=
    fun hp => ⟨hm.handed hp, happart (hm.handed hp), fun hf => hfresh hf (hm.handed hp)⟩
  have hnone : ∀ {p}, p ∈ handedOut e → owners h p = [] := fun hp => by
    by_contra hne
    exact (hhanded hp).2.1 ((hl.owned _).mpr hne)
  constructor
  · ext p
    rw [hm.pages, livePages, fedPages]
    simp only [Finset.mem_union, Finset.mem_sdiff, ← htotal p]
    by_cases hp : p ∈ handedOut e
    · simp only [hp, (hhanded hp).1, or_true, true_or]
    · by_cases hf : p ∈ freed e.1
      · simp only [hp, hf, or_true, true_or, not_false_eq_true, and_true]
      · simp only [hp, hf, or_false, not_false_eq_true, and_true]
  · rw [Finset.disjoint_left]
    intro p hp
    rw [hm.pages, Finset.mem_sdiff, Finset.mem_union] at hp
    rw [livePages, Finset.mem_union, Finset.mem_sdiff, not_or]
    refine ⟨fun hlive => ?_, hp.2⟩
    rcases hp.1 with hfree | hfreed
    · exact happart hfree hlive.1
    · exact hlive.2 hfreed
  · intro p
    rw [livePages, owners, Finset.mem_union, Finset.mem_sdiff, hl.owned]
    by_cases hp : p ∈ handedOut e
    · simp [hp]
    · by_cases hf : p ∈ freed e.1 <;> simp [hp, hf]
  · intro p
    rw [owners]
    by_cases hp : p ∈ handedOut e
    · rw [if_pos hp, hnone hp, List.length_singleton]
    · rw [if_neg hp]
      by_cases hf : p ∈ freed e.1
      · rw [if_pos hf]
        exact Nat.zero_le 1
      · rw [if_neg hf]
        exact hl.once p

theorem Run.ledger {h : History} {s : State} (hrun : Run h s) : Ledger h s := by
  induction hrun with
  | start maxAddr next _ => exact ledger_start maxAddr next
  | call hrun hc hexec ih =>
      obtain ⟨l, hinv⟩ := hrun.inv
      exact ih.call (exec_moved hinv hc hexec)

/-- Every call of a run was made in the state its earlier part ends in. -/
theorem Run.at_call {h h₁ h₂ : History} {s : State} {e : Call × Nat} (hrun : Run h s)
    (hh : h = h₂ ++ e :: h₁) : ∃ s₁ s₂, Run h₁ s₁ ∧ Moved s₁ e s₂ := by
  induction hrun generalizing h₂ with
  | start => simp at hh
  | @call h s s' c r hrun hc hexec ih =>
      cases h₂ with
      | nil =>
          rw [List.nil_append, List.cons.injEq] at hh
          obtain ⟨rfl, rfl⟩ := hh
          obtain ⟨l, hinv⟩ := hrun.inv
          exact ⟨s, s', hrun, exec_moved hinv hc hexec⟩
      | cons e' h₂ =>
          rw [List.cons_append, List.cons.injEq] at hh
          exact ih hh.2

/-- Page ownership.  `pgalloc_allocate` takes an aligned block of free pages and
nothing else, `pgalloc_free` gives exactly its block back; hence over a run no
page is in two live allocations, a page handed out was fed in before and was not
live, and the free and the live pages together are the pages ever fed in. -/
theorem run_ownership {h : History} {s : State} (hrun : Run h s) :
    (∀ order ≤ maxOrder, ∃ r s', pgallocAllocate s order = .ok (r, s') ∧
      (r ≠ 0 → ∃ i, r = p2kv (i * pgSize) ∧ 2 ^ order ∣ i ∧ block i order ⊆ freePages s ∧
        freePages s' = freePages s \ block i order)) ∧
    (∀ addr order, Legal s (.free addr order) → ∃ s', pgallocFree s addr order = .ok s' ∧
      freePages s' = freePages s ∪ block (pgIndex (kv2p addr)) order) ∧
    (∀ p, (owners h p).length ≤ 1) ∧
    (∀ h₂ h₁ e, h = h₂ ++ e :: h₁ →
      handedOut e ⊆ fedPages h₁ ∧ Disjoint (handedOut e) (livePages h₁)) ∧
    freePages s ∪ livePages h = fedPages h ∧ Disjoint (freePages s) (livePages h) ∧
    (freePages s).card + (livePages h).card = (fedPages h).card := by
  obtain ⟨l, hinv⟩ := hrun.inv
  have hledger := hrun.ledger
  refine ⟨fun order ho => ?_, fun addr order hc => ?_, hledger.once, fun h₂ h₁ e hh => ?_,
    hledger.total, hledger.apart, ?_⟩
  · rcases pgallocAllocate_ok hinv order with ⟨hok, _⟩ | ⟨i, s', hok, _, _, htaken⟩
    · exact ⟨0, s, hok, fun hne => absurd rfl hne⟩
    · exact ⟨_, s', hok, fun _ => ⟨i, rfl, htaken.aligned, htaken.free, htaken.pages⟩⟩
  · obtain ⟨s', hok, hfreed⟩ := pgallocFree_ok hinv hc
    exact ⟨s', hok, hfreed.pages⟩
  · obtain ⟨s₁, s₂, hrun₁, hmoved⟩ := hrun.at_call hh
    have hledger₁ := hrun₁.ledger
    constructor
    · rw [← hledger₁.total]
      exact hmoved.handed.trans Finset.subset_union_left
    · exact hledger₁.apart.mono_left hmoved.handed
  · rw [← hledger.total, Finset.card_union_of_disjoint hledger.apart]

/-- 1024 pages are fed and a block of eight is taken; then one more page is taken, from
those that are left. -/
theorem run_ownership_feed :
    ∃ r s, Run [(.allocate 3, r), (.freeRange kernBase (kernBase + 2 ^ 22), 0)] s ∧ r ≠ 0 ∧
      (freePages s).card + (livePages [(.allocate 3, r), (.freeRange kernBase (kernBase + 2 ^ 22), 0)]).card =
        (fedPages [(.allocate 3, r), (.freeRange kernBase (kernBase + 2 ^ 22), 0)]).card ∧
      ∃ i s', pgallocAllocate s (0 : Nat) = .ok (p2kv (i * pgSize), s') ∧ p2kv (i * pgSize) ≠ 0 ∧
        block i 0 ⊆ freePages s ∧ freePages s' = freePages s \ block i 0 := by
  obtain ⟨s, i, t, _, hpages, hnz, htaken, hrun⟩ := exists_run_taken
  obtain ⟨l, hinv⟩ := hrun.inv
  have hleft : (freePages t).Nonempty := by
    rw [htaken.pages, hpages]
    refine Finset.card_pos.mp ?_
    have hcard := Finset.le_card_sdiff (block i 3) (Finset.range 1024)
    rw [card_block, Finset.card_range] at hcard
    omega
  obtain ⟨p, hp⟩ := hleft
  have hpage : block p 0 ⊆ freePages t := fun q hq => by
    have hq' := mem_block.mp hq
    rwa [show q = p by omega]
  obtain ⟨j, _, hok, hnz', _⟩ := hinv.allocate_taken (show 0 ≤ maxOrder by decide) (Nat.one_dvd p) hpage
  have h := run_ownership hrun
  obtain ⟨r, s', hok', htook⟩ := h.1 0 (by decide)
  have hr : r ≠ 0 := by
    rw [hok, Except.ok.injEq, Prod.mk.injEq] at hok'
    rwa [← hok'.1]
  obtain ⟨k, hk, _, hfree, hrest⟩ := htook hr
  rw [hk] at hok' hr
  exact ⟨_, t, hrun, hnz, h.2.2.2.2.2.2, k, s', hok', hr, hfree, hrest⟩

end PageAlloc
end GuideOS
