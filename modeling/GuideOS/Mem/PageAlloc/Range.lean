import GuideOS.Mem.PageAlloc.Run

/-!
# What a range feeds

`pgalloc_free_range` cuts a range of pages into blocks, each of the largest order that
is aligned and fits, and passes them to `s_free_block` one by one.  The blocks depend
on the endpoints alone, not on what the calls do.
-/

namespace GuideOS
namespace PageAlloc

open Lib

/-! ## The calls of the loop -/

/-- The arguments that the loop passes to `s_free_block`. -/
def freeRangeCalls (startPgidx endPgidx : Nat) : List (Nat × Nat) :=
  if startPgidx < endPgidx then
    match pickOrder startPgidx endPgidx maxOrder with
    | none => []
    | some pgOrder =>
        (startPgidx, pgOrder) :: freeRangeCalls (startPgidx + (1 <<< pgOrder)) endPgidx
  else
    []
termination_by endPgidx - startPgidx
decreasing_by
  rw [Nat.one_shiftLeft]
  have := Nat.two_pow_pos pgOrder
  omega

/-- Blocks that are aligned, share no page, and make up the pages from `a` to `b`. -/
structure Tiles (a b : Nat) (cs : List (Nat × Nat)) : Prop where
  aligned : ∀ c ∈ cs, c.2 ≤ maxOrder ∧ 2 ^ c.2 ∣ c.1
  disjoint : cs.Pairwise fun c d => Disjoint (block c.1 c.2) (block d.1 d.2)
  covers : ∀ p, (∃ c ∈ cs, p ∈ block c.1 c.2) ↔ a ≤ p ∧ p < b

theorem tiles_nil {a b : Nat} (h : b ≤ a) : Tiles a b [] where
  aligned c hc := absurd hc List.not_mem_nil
  disjoint := List.Pairwise.nil
  covers p := by
    refine iff_of_false ?_ (by omega)
    rintro ⟨c, hc, _⟩
    exact absurd hc List.not_mem_nil

theorem Tiles.cons {a b o : Nat} {cs : List (Nat × Nat)} (h : Tiles (a + 2 ^ o) b cs)
    (ho : o ≤ maxOrder) (ha : 2 ^ o ∣ a) (hle : a + 2 ^ o ≤ b) : Tiles a b ((a, o) :: cs) where
  aligned := List.forall_mem_cons.mpr ⟨⟨ho, ha⟩, h.aligned⟩
  disjoint := by
    refine List.pairwise_cons.mpr ⟨fun c hc => Finset.disjoint_left.mpr fun p hp hpc => ?_, h.disjoint⟩
    have hge := ((h.covers p).mp ⟨c, hc, hpc⟩).1
    have hlt : p < a + 2 ^ o := (mem_block.mp hp).2
    omega
  covers p := by
    rw [List.exists_mem_cons_iff, h.covers, mem_block]
    dsimp only
    omega

section

variable {a b : Nat}

theorem freeRangeCalls_nil (h : b ≤ a) : freeRangeCalls a b = [] := by
  rw [freeRangeCalls, if_neg (by omega)]

theorem freeRangeCalls_tiles : Tiles a b (freeRangeCalls a b) := by
  induction hn : b - a using Nat.strong_induction_on generalizing a with
  | _ n ih =>
      by_cases hab : a < b
      · obtain ⟨o, hpick, ho, hdvd, hle⟩ := pickOrder_ok hab maxOrder
        have hpos := Nat.two_pow_pos o
        have hrest := ih (b - (a + 2 ^ o)) (by omega) (a := a + 2 ^ o) rfl
        rw [freeRangeCalls, if_pos hab, hpick]
        simp only [Nat.one_shiftLeft]
        exact hrest.cons ho hdvd hle
      · rw [freeRangeCalls_nil (by omega)]
        exact tiles_nil (by omega)

/-- The loop makes these calls, in this order, and does nothing else. -/
theorem freeRangeLoop_eq_calls (s : State) :
    freeRangeLoop s a b = (freeRangeCalls a b).foldlM (fun s c => sFreeBlock s c.1 c.2) s := by
  induction hn : b - a using Nat.strong_induction_on generalizing a s with
  | _ n ih =>
      by_cases hab : a < b
      · obtain ⟨o, hpick, _, _, hle⟩ := pickOrder_ok hab maxOrder
        have hpos := Nat.two_pow_pos o
        rw [freeRangeLoop, freeRangeCalls, if_pos hab, if_pos hab, hpick]
        simp only [Nat.one_shiftLeft, List.foldlM_cons]
        cases sFreeBlock s a o with
        | error e => rfl
        | ok s' => exact ih (b - (a + 2 ^ o)) (by omega) s' rfl
      · rw [freeRangeLoop, freeRangeCalls, if_neg hab, if_neg hab]
        rfl

end

/-! ## The pages of a range -/

/-- The physical pages that lie wholly in a range of kernel virtual addresses. -/
def wholePages (startVa endVa : Nat) : Set Nat :=
  {p | startVa ≤ kernBase + p * pgSize ∧ kernBase + (p + 1) * pgSize ≤ endVa}

theorem kv2p_eq {va : Nat} (hbase : kernBase ≤ va) (hlt : va < 2 ^ 64) : kv2p va = va - kernBase := by
  have hk := kernBase_lt
  rw [kv2p, show va + (2 ^ 64 - kernBase) = va - kernBase + 2 ^ 64 by omega, Nat.add_mod_right,
    Nat.mod_eq_of_lt (by omega)]

section

variable {startVa endVa : Nat} (hstart : kernBase ≤ startVa ∧ startVa < 2 ^ 64)
  (hend : kernBase ≤ endVa ∧ endVa < 2 ^ 64)

include hstart hend

/-- The start is rounded up and the end down. -/
theorem mem_wholePages_iff {p : Nat} :
    p ∈ wholePages startVa endVa ↔ rangeStart startVa ≤ p ∧ p < rangeEnd endVa := by
  have hs : rangeStart startVa = (startVa - kernBase + 4095) / 4096 := by
    have hk : kernBase = 0xFFFF800000000000 := rfl
    rw [rangeStart, kv2p_eq hstart.1 hstart.2, pgRoundUp_eq, Nat.mul_div_cancel _ (by decide), pgSize,
      Nat.mod_eq_of_lt (by omega), Nat.add_sub_assoc (by decide)]
  have he : rangeEnd endVa = (endVa - kernBase) / 4096 := by
    rw [rangeEnd, kv2p_eq hend.1 hend.2, pgRoundDown_eq (by omega), Nat.mul_div_cancel _ (by decide),
      pgSize]
  rw [hs, he]
  show startVa ≤ kernBase + p * 4096 ∧ kernBase + (p + 1) * 4096 ≤ endVa ↔ _
  omega

end

/-- The range is fed in aligned blocks that share no page and make up the pages that
lie wholly in it, and afterwards exactly these pages are free besides those that were. -/
theorem run_freeRange_exact {h : History} {s : State} (hrun : Run h s) {startVa endVa : Nat}
    (hstart : kernBase ≤ startVa ∧ startVa < 2 ^ 64) (hend : kernBase ≤ endVa ∧ endVa < 2 ^ 64)
    (hpages : ∀ p ∈ wholePages startVa endVa, (p + 1) * pgSize ≤ s.maxAddr ∧ p ∉ freePages s) :
    ∃ s' calls, pgallocFreeRange s startVa endVa = .ok s' ∧
      calls.foldlM (fun s c => sFreeBlock s c.1 c.2) s = pgallocFreeRange s startVa endVa ∧
      calls = freeRangeCalls (rangeStart startVa) (rangeEnd endVa) ∧
      (∀ c ∈ calls, c.2 ≤ maxOrder ∧ 2 ^ c.2 ∣ c.1) ∧
      (calls.Pairwise fun c d => Disjoint (block c.1 c.2) (block d.1 d.2)) ∧
      (∀ p, (∃ c ∈ calls, p ∈ block c.1 c.2) ↔ p ∈ wholePages startVa endVa) ∧
      (endVa ≤ startVa → calls = []) ∧
      ∀ p, p ∈ freePages s' ↔ p ∈ freePages s ∨ p ∈ wholePages startVa endVa := by
  obtain ⟨l, hinv⟩ := hrun.inv
  have hmem := fun p => mem_wholePages_iff hstart hend (p := p)
  have htiles := freeRangeCalls_tiles (a := rangeStart startVa) (b := rangeEnd endVa)
  have hlegal : Legal s (.freeRange startVa endVa) :=
    ⟨trivial, fun p hp => hpages p ((hmem p).mpr (Finset.mem_Ico.mp hp))⟩
  obtain ⟨s', hok, hfreed⟩ := pgallocFreeRange_ok hinv hlegal
  refine ⟨s', _, hok, (freeRangeLoop_eq_calls s).symm, rfl, htiles.aligned, htiles.disjoint, ?_, ?_, ?_⟩
  · intro p
    rw [htiles.covers, hmem]
  · intro hle
    refine freeRangeCalls_nil (Nat.le_of_not_lt fun hlt => ?_)
    -- A page of the range would start before it ends.
    obtain ⟨hlo, hhi⟩ := (hmem (rangeStart startVa)).mpr ⟨Nat.le_refl _, hlt⟩
    rw [Nat.succ_mul] at hhi
    have hpos : 0 < pgSize := by decide
    omega
  · intro p
    rw [hfreed.pages, Finset.mem_union, Finset.mem_Ico, hmem]

/-- A range with both ends inside a page. -/
theorem run_freeRange_exact_unaligned :
    ∃ s s', Run [] s ∧ pgallocFreeRange s (kernBase + 1) (kernBase + 5 * 4096 + 7) = .ok s' ∧
      ∀ p, p ∈ freePages s' ↔ p ∈ wholePages (kernBase + 1) (kernBase + 5 * 4096 + 7) := by
  have hrun : Run [] (cleared (2 ^ 32) fun _ => 0) := Run.start _ _ (by decide)
  have hempty := freePages_cleared (2 ^ 32) fun _ => 0
  have hbelow : ∀ p ∈ wholePages (kernBase + 1) (kernBase + 5 * 4096 + 7),
      (p + 1) * pgSize ≤ 2 ^ 32 := by
    rintro p ⟨_, hp⟩
    omega
  have hstart : kernBase ≤ kernBase + 1 ∧ kernBase + 1 < 2 ^ 64 := by decide
  have hend : kernBase ≤ kernBase + 5 * 4096 + 7 ∧ kernBase + 5 * 4096 + 7 < 2 ^ 64 := by decide
  obtain ⟨s', _, hok, _, _, _, _, _, _, hfree⟩ := run_freeRange_exact hrun hstart hend
    fun p hp => ⟨hbelow p hp, by rw [hempty]; exact Finset.notMem_empty p⟩
  refine ⟨_, s', hrun, hok, fun p => ?_⟩
  rw [hfree, hempty]
  exact ⟨fun h => h.resolve_left (Finset.notMem_empty p), Or.inr⟩

end PageAlloc
end GuideOS
