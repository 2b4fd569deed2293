import GuideOS.Mem.Layout
import Mathlib.Order.CompletePartialOrder
import Mathlib.Order.Interval.Set.Disjoint

/-!
# The boot allocator

`mem/boot_alloc.c`: a zone of memory whose front is handed out in whole pages,
until `boot_alloc_disable` gives the rest away.

`boot_alloc` rounds the size up and adds it to the front of the zone before it
compares with the end, and both steps can wrap.  `Astray` says when a request
passes the test that way; the regions are sound exactly when no request does.
-/

namespace GuideOS
namespace BootAlloc

open Lib

/-- `default_zone` and `boot_alloc_initialized` -/
structure State where
  beginKva : Nat
  endKva : Nat
  initialized : Bool
deriving DecidableEq

/-- The static initial values. -/
def State.boot : State := ⟨0, 0, false⟩

/-- `ROUNDUP_PWR2(x, sz)` -/
def roundUpPwr2 (x sz : Nat) : Nat := (x + (sz - 1)) % 2 ^ 64 &&& not64 (sz - 1)

def bootAllocInit (s : State) (startKva size : Nat) : State :=
  if s.initialized then s
  else
    { beginKva := roundUpPwr2 startKva pgSize
      endKva := (startKva + size) % 2 ^ 64
      initialized := true }

/-- The test of `boot_alloc`. -/
def fits (s : State) (size : Nat) : Bool :=
  (s.beginKva + roundUpPwr2 size pgSize) % 2 ^ 64 < s.endKva

/-- The result `0` is the null pointer. -/
def bootAlloc (s : State) (size : Nat) : Nat × State :=
  if fits s size then
    (s.beginKva, { s with beginKva := (s.beginKva + roundUpPwr2 size pgSize) % 2 ^ 64 })
  else (0, s)

def bootAllocDisable (s : State) : Nat × State :=
  (s.beginKva, { s with beginKva := 0, endKva := 0 })

/-! ## Sequences of requests -/

/-- A call of `boot_alloc`, with the state on both sides. -/
structure Alloc where
  size : Nat
  result : Nat
  before : State
  after : State

def allocs : State → List Nat → List Alloc
  | _, [] => []
  | s, n :: ns => ⟨n, (bootAlloc s n).1, s, (bootAlloc s n).2⟩ :: allocs (bootAlloc s n).2 ns

def final (s : State) (ns : List Nat) : State := ns.foldl (fun s n => (bootAlloc s n).2) s

/-- The bytes of a request. -/
def Alloc.region (a : Alloc) : Set Nat := Set.Ico a.result (a.result + a.size)

/-- The requests `ns` of a zone, up to `boot_alloc_disable`. -/
structure Regions (startKva size : Nat) (ns : List Nat) : Prop where
  aligned : ∀ a ∈ allocs (bootAllocInit .boot startKva size) ns, a.result ≠ 0 → pgSize ∣ a.result
  disjoint : (allocs (bootAllocInit .boot startKva size) ns).Pairwise fun a b =>
    a.result ≠ 0 → b.result ≠ 0 → Disjoint a.region b.region
  inside : ∀ a ∈ allocs (bootAllocInit .boot startKva size) ns, a.result ≠ 0 → ∀ x ∈ a.region,
    startKva ≤ x ∧ x < startKva + size ∧
      x < (bootAllocDisable (final (bootAllocInit .boot startKva size) ns)).1
  refused : ∀ a ∈ allocs (bootAllocInit .boot startKva size) ns, a.result = 0 → a.after = a.before
  early : ∀ ns', ∀ a ∈ allocs .boot ns', a.result = 0
  late : ∀ ns', ∀ a ∈ allocs (bootAllocDisable (final (bootAllocInit .boot startKva size) ns)).2 ns',
    a.result = 0

/-- The size in whole pages, without a wrap. -/
def paged (size : Nat) : Nat := (size + (pgSize - 1)) / pgSize * pgSize

/-- A request passes the test although the front of the zone and the rounded size do
not fit 64 bits, or moves a zone whose front is the null pointer. -/
def Astray (s : State) (size : Nat) : Prop :=
  fits s size = true ∧
    (s.beginKva ≠ 0 ∧ 2 ^ 64 ≤ s.beginKva + paged size ∨
      s.beginKva = 0 ∧ roundUpPwr2 size pgSize ≠ 0)

instance (s : State) (size : Nat) : Decidable (Astray s size) := inferInstanceAs (Decidable (_ ∧ _))

/-! ## One request -/

section

variable {s : State} {n : Nat}

theorem roundUpPwr2_pgSize (x : Nat) :
    roundUpPwr2 x pgSize = (x + (pgSize - 1)) % 2 ^ 64 / pgSize * pgSize :=
  and_not64 (Nat.mod_lt _ (Nat.two_pow_pos 64)) 12 (by omega)

theorem dvd_roundUpPwr2 (x : Nat) : pgSize ∣ roundUpPwr2 x pgSize := by
  rw [roundUpPwr2_pgSize]
  exact Nat.dvd_mul_left ..

theorem le_paged (n : Nat) : n ≤ paged n := by
  have := Nat.div_add_mod (n + (pgSize - 1)) pgSize
  have := Nat.mod_lt (n + (pgSize - 1)) (show 0 < pgSize by decide)
  rw [paged, Nat.mul_comm]
  simp only [pgSize] at *
  omega

theorem paged_lt (n : Nat) : paged n < n + pgSize := by
  have := Nat.div_add_mod (n + (pgSize - 1)) pgSize
  rw [paged, Nat.mul_comm]
  simp only [pgSize] at *
  omega

/-- Rounding is exact unless it wraps. -/
theorem roundUpPwr2_eq_paged (h : paged n < 2 ^ 64) : roundUpPwr2 n pgSize = paged n := by
  have hsmall : n + (pgSize - 1) < 2 ^ 64 := by
    rw [paged] at h
    simp only [pgSize] at *
    omega
  rw [roundUpPwr2_pgSize, Nat.mod_eq_of_lt hsmall, paged]

theorem dvd_begin_of_mod {a b : Nat} (ha : pgSize ∣ a) (hb : pgSize ∣ b) :
    pgSize ∣ (a + b) % 2 ^ 64 :=
  (Nat.dvd_mod_iff (show pgSize ∣ 2 ^ 64 by decide)).mpr (Nat.dvd_add ha hb)

/-- The front of the zone is a page. -/
theorem bootAlloc_dvd (h : pgSize ∣ s.beginKva) (n : Nat) : pgSize ∣ (bootAlloc s n).2.beginKva := by
  rw [bootAlloc]
  split
  · exact dvd_begin_of_mod h (dvd_roundUpPwr2 n)
  · exact h

/-- What a request does that does not go astray. -/
theorem bootAlloc_cases (h : ¬Astray s n) :
    bootAlloc s n = (0, s) ∨
      s.beginKva ≠ 0 ∧ s.beginKva + paged n < s.endKva ∧
        bootAlloc s n = (s.beginKva, { s with beginKva := s.beginKva + paged n }) := by
  rw [bootAlloc]
  by_cases hf : fits s n = true
  · rw [if_pos hf]
    by_cases h0 : s.beginKva = 0
    · left
      have hround : roundUpPwr2 n pgSize = 0 := by
        by_contra hne
        exact h ⟨hf, Or.inr ⟨h0, hne⟩⟩
      have hzero : (s.beginKva + roundUpPwr2 n pgSize) % 2 ^ 64 = s.beginKva := by
        rw [hround, h0]
        rfl
      rw [hzero, h0, ← h0]
    · right
      have hsmall : s.beginKva + paged n < 2 ^ 64 := by
        by_contra hle
        exact h ⟨hf, Or.inl ⟨h0, by omega⟩⟩
      have hround := roundUpPwr2_eq_paged (n := n) (by omega)
      rw [fits, decide_eq_true_eq, hround, Nat.mod_eq_of_lt hsmall] at hf
      exact ⟨h0, hf, by rw [hround, Nat.mod_eq_of_lt hsmall]⟩
  · rw [if_neg hf]
    exact Or.inl rfl

/-! ## Runs without a stray request -/

/-- What holds of a request in a run from `s` that ends with the front at `p`. -/
structure Sound (s : State) (p : Nat) (a : Alloc) : Prop where
  refused : a.result = 0 → a.after = a.before
  aligned : a.result ≠ 0 → pgSize ∣ a.result
  above : a.result ≠ 0 → s.beginKva ≠ 0 ∧ s.beginKva ≤ a.result
  below : a.result ≠ 0 → a.result + paged a.size < s.endKva ∧ a.result + paged a.size ≤ p

theorem final_cons (s : State) (n : Nat) (ns : List Nat) :
    final s (n :: ns) = final (bootAlloc s n).2 ns := rfl

theorem allocs_sound (ns : List Nat) (hdvd : pgSize ∣ s.beginKva)
    (h : ∀ a ∈ allocs s ns, ¬Astray a.before a.size) :
    s.beginKva ≤ (final s ns).beginKva ∧ (∀ a ∈ allocs s ns, Sound s (final s ns).beginKva a) ∧
      (allocs s ns).Pairwise fun a b =>
        a.result ≠ 0 → b.result ≠ 0 → a.result + paged a.size ≤ b.result := by
  induction ns generalizing s with
  | nil => exact ⟨Nat.le_refl _, fun a ha => absurd ha List.not_mem_nil, .nil⟩
  | cons n ns ih =>
      have hhead := h _ List.mem_cons_self
      obtain ⟨hle, htail, hpair⟩ := ih (bootAlloc_dvd hdvd n) fun a ha => h a (List.mem_cons_of_mem _ ha)
      rw [final_cons, allocs]
      rcases bootAlloc_cases hhead with hnull | ⟨hne, hend, hok⟩
      · rw [hnull] at hle htail hpair ⊢
        refine ⟨hle, fun a ha => ?_, .cons (fun b _ h0 => absurd rfl h0) hpair⟩
        rcases List.mem_cons.mp ha with rfl | ha
        · exact ⟨fun _ => rfl, fun h0 => absurd rfl h0, fun h0 => absurd rfl h0, fun h0 => absurd rfl h0⟩
        · exact htail a ha
      · rw [hok] at hle htail hpair ⊢
        refine ⟨Nat.le_trans (Nat.le_add_right ..) hle, fun a ha => ?_, .cons (fun b hb _ h0 => ?_) hpair⟩
        · rcases List.mem_cons.mp ha with rfl | ha
          · exact ⟨fun h0 => absurd h0 hne, fun _ => hdvd, fun _ => ⟨hne, Nat.le_refl _⟩,
              fun _ => ⟨hend, hle⟩⟩
          · obtain ⟨hrefused, haligned, habove, hbelow⟩ := htail a ha
            refine ⟨hrefused, haligned, fun h0 => ⟨hne, ?_⟩, hbelow⟩
            exact Nat.le_trans (Nat.le_add_right ..) (habove h0).2
        · exact ((htail b hb).above h0).2

/-! ## Runs with one -/

theorem roundUpPwr2_lt (x : Nat) : roundUpPwr2 x pgSize < 2 ^ 64 :=
  Nat.lt_of_le_of_lt Nat.and_le_left (Nat.mod_lt _ (Nat.two_pow_pos 64))

/-- The front of the zone is the address of a page in every state of a run. -/
theorem allocs_before (ns : List Nat) (hdvd : pgSize ∣ s.beginKva) (hlt : s.beginKva < 2 ^ 64) :
    ∀ a ∈ allocs s ns, pgSize ∣ a.before.beginKva ∧ a.before.beginKva < 2 ^ 64 := by
  induction ns generalizing s with
  | nil => exact fun a ha => absurd ha List.not_mem_nil
  | cons n ns ih =>
      intro a ha
      have hlt' : (bootAlloc s n).2.beginKva < 2 ^ 64 := by
        rw [bootAlloc]
        split
        · exact Nat.mod_lt _ (Nat.two_pow_pos 64)
        · exact hlt
      rcases List.mem_cons.mp ha with rfl | ha
      · exact ⟨hdvd, hlt⟩
      · exact ih (bootAlloc_dvd hdvd n) hlt' a ha

/-- From a front at the null pointer every request returns null, so a run that keeps
the zone then stays there. -/
theorem final_eq_zero (ns : List Nat) (h0 : s.beginKva = 0)
    (h : ∀ a ∈ allocs s ns, a.result = 0 → a.after = a.before) : (final s ns).beginKva = 0 := by
  induction ns generalizing s with
  | nil => exact h0
  | cons n ns ih =>
      have hnull : (bootAlloc s n).1 = 0 := by
        rw [bootAlloc]
        split
        · exact h0
        · rfl
      have hsame : (bootAlloc s n).2 = s := h _ List.mem_cons_self hnull
      rw [final_cons]
      refine ih (by rw [hsame, h0]) fun a ha => h a (List.mem_cons_of_mem _ ha)

/-- Each request is followed by the rest of the run. -/
theorem exists_rest_of_mem (ns : List Nat) {a : Alloc} (ha : a ∈ allocs s ns) :
    a.result = (bootAlloc a.before a.size).1 ∧ a.after = (bootAlloc a.before a.size).2 ∧
      ∃ ns', final s ns = final a.after ns' ∧ ∀ b ∈ allocs a.after ns', b ∈ allocs s ns := by
  induction ns generalizing s with
  | nil => exact absurd ha List.not_mem_nil
  | cons n ns ih =>
      rcases List.mem_cons.mp ha with rfl | ha
      · exact ⟨rfl, rfl, ns, rfl, fun b hb => List.mem_cons_of_mem _ hb⟩
      · obtain ⟨hresult, hafter, ns', hfinal, hrest⟩ := ih ha
        exact ⟨hresult, hafter, ns', hfinal, fun b hb => List.mem_cons_of_mem _ (hrest b hb)⟩

/-! ## The zone -/

variable {startKva size : Nat}

theorem init_endKva (hfit : startKva + size < 2 ^ 64) :
    (bootAllocInit .boot startKva size).endKva = startKva + size := Nat.mod_eq_of_lt hfit

theorem le_roundUpPwr2 {x : Nat} (hx : x < 2 ^ 64) (h : roundUpPwr2 x pgSize ≠ 0) :
    x ≤ roundUpPwr2 x pgSize := by
  rcases Nat.lt_or_ge (paged x) (2 ^ 64) with hlt | hge
  · rw [roundUpPwr2_eq_paged hlt]
    exact le_paged x
  · refine absurd ?_ h
    rw [paged] at hge
    rw [roundUpPwr2_pgSize]
    simp only [pgSize] at *
    omega

/-- An empty zone refuses every request. -/
theorem allocs_of_empty (h : s.endKva = 0) (ns : List Nat) : ∀ a ∈ allocs s ns, a.result = 0 := by
  induction ns with
  | nil => exact fun a ha => absurd ha List.not_mem_nil
  | cons n ns ih =>
      have hnull : bootAlloc s n = (0, s) := by
        rw [bootAlloc, fits, h]
        rfl
      rw [allocs, hnull]
      intro a ha
      rcases List.mem_cons.mp ha with rfl | ha
      · rfl
      · exact ih a ha

/-- No sound region comes from a stray request. -/
theorem Regions.not_astray (hfit : startKva + size < 2 ^ 64) {ns : List Nat}
    (h : Regions startKva size ns) {a : Alloc} (ha : a ∈ allocs (bootAllocInit .boot startKva size) ns) :
    ¬Astray a.before a.size := by
  rintro ⟨hf, hcase⟩
  obtain ⟨hdvd, hlt⟩ := allocs_before ns (dvd_roundUpPwr2 startKva) (roundUpPwr2_lt startKva) a ha
  obtain ⟨hresult, hafter, ns', hfinal, hrest⟩ := exists_rest_of_mem ns ha
  rw [bootAlloc, if_pos hf] at hresult hafter
  rcases hcase with ⟨hne, hwrap⟩ | ⟨h0, hround⟩
  · have hinside := h.inside a ha (by rw [hresult]; exact hne)
    simp only [Alloc.region, hresult, Set.mem_Ico] at hinside
    have hsize : 0 < a.size := by
      rcases Nat.eq_zero_or_pos a.size with h0 | hpos
      · rw [h0] at hwrap
        exact absurd hwrap (by simp [paged, pgSize]; omega)
      · exact hpos
    -- The last byte is in the zone, so the front has come round to the null pointer.
    have hlast := (hinside (a.before.beginKva + a.size - 1) (by omega)).2.1
    have hexact : a.before.beginKva + paged a.size = 2 ^ 64 := by
      have hpaged : pgSize ∣ paged a.size := Nat.dvd_mul_left ..
      have hclose := paged_lt a.size
      obtain ⟨u, hu⟩ := hdvd
      obtain ⟨v, hv⟩ := hpaged
      simp only [pgSize] at *
      omega
    have hfront : a.after.beginKva = 0 := by
      rw [hafter, roundUpPwr2_eq_paged (by omega)]
      show (a.before.beginKva + paged a.size) % 2 ^ 64 = 0
      rw [hexact]
      exact Nat.mod_self _
    have hzero := final_eq_zero ns' hfront fun b hb => h.refused b (hrest b hb)
    have hfirst := (hinside a.before.beginKva (by omega)).2.2
    rw [bootAllocDisable, hfinal, hzero] at hfirst
    exact Nat.not_lt_zero _ hfirst
  · have hsame := h.refused a ha (by rw [hresult, h0])
    rw [hafter] at hsame
    have hbegin := congrArg State.beginKva hsame
    dsimp only at hbegin
    rw [h0, Nat.zero_add, Nat.mod_eq_of_lt (roundUpPwr2_lt _)] at hbegin
    exact hround hbegin

/-- The regions of `boot_alloc` are sound exactly when no request goes astray. -/
theorem regions_iff (hfit : startKva + size < 2 ^ 64) (ns : List Nat) :
    Regions startKva size ns ↔
      ∀ a ∈ allocs (bootAllocInit .boot startKva size) ns, ¬Astray a.before a.size := by
  refine ⟨fun h a ha => h.not_astray hfit ha, fun h => ?_⟩
  obtain ⟨_, hsound, hpair⟩ := allocs_sound ns (dvd_roundUpPwr2 startKva) h
  refine ⟨fun a ha => (hsound a ha).aligned, ?_, ?_, fun a ha => (hsound a ha).refused,
    fun ns' => allocs_of_empty rfl ns', fun ns' => allocs_of_empty rfl ns'⟩
  · refine hpair.imp fun hab ha hb => ?_
    have hend := (Nat.add_le_add_left (le_paged _) _).trans (hab ha hb)
    exact Set.disjoint_left.mpr fun x hx hx' => Nat.not_lt.mpr (hend.trans hx'.1) hx.2
  · intro a ha hne x hx
    obtain ⟨hbegin, habove⟩ := (hsound a ha).above hne
    obtain ⟨hend, hbelow⟩ := (hsound a ha).below hne
    have hstart : startKva ≤ roundUpPwr2 startKva pgSize := le_roundUpPwr2 (by omega) hbegin
    have hlast : x < a.result + paged a.size := hx.2.trans_le (Nat.add_le_add_left (le_paged _) _)
    rw [init_endKva hfit] at hend
    exact ⟨hstart.trans (habove.trans hx.1), hlast.trans hend, hlast.trans_le hbelow⟩

end

/-- The zone of `kmain` with a kernel of 2 MiB: two page tables and a bitmap. -/
theorem regions_iff_kmain : Regions 0xFFFF800000200000 (64 * 1024 * 1024) [4096, 4096, 65536] :=
  (regions_iff (by decide) _).mpr (by decide +kernel)

/-- A size whose rounding wraps is granted, and the front of the zone stays. -/
theorem not_regions_wrap : 0xFFFF800000200000 + 64 * 1024 * 1024 < 2 ^ 64 ∧
    (bootAlloc (bootAllocInit .boot 0xFFFF800000200000 (64 * 1024 * 1024)) (2 ^ 64 - 1)).1 =
      0xFFFF800000200000 ∧
    ¬Regions 0xFFFF800000200000 (64 * 1024 * 1024) [2 ^ 64 - 1] := by
  have hresult : (bootAlloc (bootAllocInit .boot 0xFFFF800000200000 (64 * 1024 * 1024))
      (2 ^ 64 - 1)).1 = 0xFFFF800000200000 := by decide +kernel
  refine ⟨by decide, hresult, fun h => ?_⟩
  have hinside := h.inside _ List.mem_cons_self (by rw [hresult]; decide)
  rw [Alloc.region, hresult] at hinside
  have hfar := (hinside (2 ^ 64) ⟨by decide, by decide⟩).2.1
  exact absurd hfar (by decide)

end BootAlloc
end GuideOS
