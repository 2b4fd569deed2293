import GuideOS.Lib.CStr
import GuideOS.Lib.FirstDiff

/-!
# Comparing strings

`memcmp`, `strncmp` and `strcmp` of `util/string.c`.  The three turn the first bytes that
differ into an `int` in different ways: `memcmp` and `strcmp` subtract unsigned bytes, and
`strncmp` casts a `char` to `size_t`.  A `char` is signed, so the cast extends the sign, and
the order is another one for bytes from 128 on.
-/

namespace GuideOS
namespace Str

open Lib

/-- `(u8)*p - (u8)*q` -/
def byteDiff (c d : BitVec 8) : Int := c.toNat - d.toNat

def memcmp (m : Bytes) (s1 s2 : Nat) : Nat → Int
  | 0 => 0
  | n + 1 =>
      if m s1 ≠ m s2 then byteDiff (m s1) (m s2)
      else memcmp m ((s1 + 1) % 2 ^ 64) ((s2 + 1) % 2 ^ 64) n

/-- `(int)((size_t)*p - (size_t)*q)` -/
def charDiff (c d : BitVec 8) : Int := ((c.signExtend 64 - d.signExtend 64).setWidth 32).toInt

def strncmp (m : Bytes) (p q : Nat) : Nat → Int
  | 0 => 0
  | n + 1 =>
      if m p ≠ 0 ∧ m p = m q then strncmp m ((p + 1) % 2 ^ 64) ((q + 1) % 2 ^ 64) n
      else charDiff (m p) (m q)

def strcmpLoop (m : Bytes) (p q : Nat) : Nat → Option Int
  | 0 => none
  | fuel + 1 =>
      if m p ≠ 0 ∧ m p = m q then strcmpLoop m ((p + 1) % 2 ^ 64) ((q + 1) % 2 ^ 64) fuel
      else some (byteDiff (m p) (m q))

/-- A comparison that does not end within `2 ^ 64` steps never ends. -/
def strcmp (m : Bytes) (p q : Nat) : Option Int := strcmpLoop m p q (2 ^ 64)

/-! ## Agreement -/

/-- A pointer to a string. -/
structure StrPtr (m : Bytes) where
  addr : Nat
  chars : List (BitVec 8)
  lt : addr < 2 ^ 64
  cstr : CStr m addr chars

/-- The sign of a result. -/
def sign (r : Int) : Ordering := compare r 0

/-- `strcmp(p, q) <= 0` -/
def StrLe (m : Bytes) (p q : Nat) : Prop := ∃ r, strcmp m p q = some r ∧ r ≤ 0

/-- `strcmp` is a total order on the strings of the memory. -/
structure StrcmpOrder (m : Bytes) : Prop where
  zero_iff : ∀ p q : StrPtr m, strcmp m p.addr q.addr = some 0 ↔ p.chars = q.chars
  refl : ∀ p : StrPtr m, StrLe m p.addr p.addr
  antisymm : ∀ p q : StrPtr m, StrLe m p.addr q.addr → StrLe m q.addr p.addr → p.chars = q.chars
  trans : ∀ p q r : StrPtr m, StrLe m p.addr q.addr → StrLe m q.addr r.addr → StrLe m p.addr r.addr
  total : ∀ p q : StrPtr m, StrLe m p.addr q.addr ∨ StrLe m q.addr p.addr

/-- `strncmp` compares the first `n` unsigned bytes, and all three functions agree when
`n` is greater than both lengths. -/
structure Agrees {m : Bytes} (p q : StrPtr m) (n : Nat) : Prop where
  cut : sign (strncmp m p.addr q.addr n) = compare (p.chars.take n) (q.chars.take n)
  strcmp_sign : p.chars.length < n → q.chars.length < n →
    ∃ r, strcmp m p.addr q.addr = some r ∧ sign r = sign (strncmp m p.addr q.addr n)
  memcmp_sign : p.chars.length < n → q.chars.length < n →
    sign (memcmp m p.addr q.addr (min p.chars.length q.chars.length + 1)) = sign (strncmp m p.addr q.addr n)
  order : StrcmpOrder m

/-- The first characters in which the strings differ are both below 128 or both not. -/
def SameHalf (cs ds : List (BitVec 8)) : Prop :=
  ∀ c d, firstDiff 0 cs ds = some (c, d) → (c.toNat < 128 ↔ d.toNat < 128)

/-! ## One pair of characters -/

section

variable {c d : BitVec 8}

theorem sign_sub (x y : Int) : sign (x - y) = compare x y := by
  have hlt : x - y < 0 ↔ x < y := by omega
  simp only [sign, compare, compareOfLessAndEq, hlt, Int.sub_eq_zero]

theorem compare_toNat (c d : BitVec 8) : compare (c.toNat : Int) d.toNat = compare c d := by
  simp only [compare, compareOfLessAndEq, Int.ofNat_lt, BitVec.lt_def, Int.ofNat_inj, BitVec.toNat_inj]

theorem sign_byteDiff (c d : BitVec 8) : sign (byteDiff c d) = compare c d := by
  rw [byteDiff, sign_sub, compare_toNat]

theorem charDiff_eq (c d : BitVec 8) : charDiff c d = c.toInt - d.toInt := by
  have hc := c.toInt_lt
  have hc' := c.le_toInt
  have hd := d.toInt_lt
  have hd' := d.le_toInt
  rw [charDiff, BitVec.toInt_setWidth, ← Int.bmod_bmod_of_dvd (show 2 ^ 32 ∣ 2 ^ 64 by decide),
    ← BitVec.toInt_eq_toNat_bmod, BitVec.toInt_sub, Int.bmod_bmod_of_dvd (by decide),
    BitVec.toInt_signExtend_of_le (by decide), BitVec.toInt_signExtend_of_le (by decide)]
  exact Int.bmod_eq_of_le (by omega) (by omega)

theorem sign_charDiff_iff (h : c ≠ d) :
    sign (charDiff c d) = compare c d ↔ (c.toNat < 128 ↔ d.toNat < 128) := by
  have hc := c.isLt
  have hd := d.isLt
  have hne : c.toNat ≠ d.toNat := fun e => h (BitVec.eq_of_toNat_eq e)
  rw [charDiff_eq, sign_sub, ← compare_toNat, BitVec.toInt_eq_toNat_cond, BitVec.toInt_eq_toNat_cond]
  rcases Nat.lt_or_gt_of_ne hne with hlt | hgt
  · rw [show compare (c.toNat : Int) d.toNat = .lt from Int.compare_eq_lt.mpr (by omega), Int.compare_eq_lt]
    split <;> split <;> omega
  · rw [show compare (c.toNat : Int) d.toNat = .gt from Int.compare_eq_gt.mpr (by omega), Int.compare_eq_gt]
    split <;> split <;> omega

theorem compare_zero_left (h : c ≠ 0) : compare 0 c = .lt := by
  have hpos : c.toNat ≠ 0 := fun e => h (BitVec.eq_of_toNat_eq e)
  rw [← compare_toNat, Int.compare_eq_lt]
  exact Int.ofNat_lt.mpr (Nat.pos_of_ne_zero hpos)

theorem compare_zero_right (h : c ≠ 0) : compare c 0 = .gt :=
  Std.OrientedCmp.gt_of_lt (compare_zero_left h)

end

/-! ## The loops -/

section

variable {m : Bytes} {p q n fuel : Nat} {cs ds : List (BitVec 8)}

/-- Two strings are empty, differ in their first characters, or begin with the same. -/
inductive Heads (m : Bytes) (p q : Nat) : List (BitVec 8) → List (BitVec 8) → Prop
  | ends (hp : m p = 0) (hq : m q = 0) : Heads m p q [] []
  | differ {cs ds : List (BitVec 8)} (hne : m p ≠ m q) (hdiff : firstDiff 0 cs ds = some (m p, m q))
      (hcut : ∀ n, firstDiff 0 (cs.take (n + 1)) (ds.take (n + 1)) = some (m p, m q)) : Heads m p q cs ds
  | same {c : BitVec 8} {cs ds : List (BitVec 8)} (hc : c ≠ 0) (hp : m p = c) (hq : m q = c)
      (hcs : CStr m ((p + 1) % 2 ^ 64) cs) (hds : CStr m ((q + 1) % 2 ^ 64) ds) :
      Heads m p q (c :: cs) (c :: ds)

theorem heads (hp : CStr m p cs) (hq : CStr m q ds) : Heads m p q cs ds := by
  cases cs with
  | nil =>
      have hnul : m p = 0 := hp
      cases ds with
      | nil => exact .ends hnul hq
      | cons d ds =>
          obtain ⟨hd, hne, -⟩ := hq
          exact .differ (by rw [hnul, hd]; exact hne.symm) (by rw [hnul, hd]; rfl) fun n => by rw [hnul, hd]; rfl
  | cons c cs =>
      obtain ⟨hc, hne, hcs⟩ := hp
      cases ds with
      | nil =>
          have hnul : m q = 0 := hq
          exact .differ (by rw [hnul, hc]; exact hne) (by rw [hnul, hc]; rfl) fun n => by rw [hnul, hc]; rfl
      | cons d ds =>
          obtain ⟨hd, -, hds⟩ := hq
          by_cases hcd : c = d
          · subst hcd
            exact .same hne hc hd hcs hds
          · rw [← hc, ← hd] at hcd ⊢
            exact .differ hcd (firstDiff_cons_of_ne hcd) fun n => firstDiff_cons_of_ne hcd

theorem memcmp_eq (hp : CStr m p cs) (hq : CStr m q ds) (hn : n = min cs.length ds.length + 1) :
    memcmp m p q n = (firstDiff 0 cs ds).elim 0 fun r => byteDiff r.1 r.2 := by
  induction n generalizing p q cs ds with
  | zero => exact absurd hn (Nat.succ_ne_zero _).symm
  | succ n ih =>
      rw [memcmp]
      cases heads hp hq with
      | ends hp0 hq0 =>
          rw [Nat.succ.inj hn, hp0, hq0, if_neg (not_not.mpr rfl)]
          rfl
      | differ hne hdiff _ =>
          rw [if_pos hne, hdiff]
          rfl
      | same _ hpc hqc hcs hds =>
          rw [List.length_cons, List.length_cons, Nat.add_min_add_right] at hn
          rw [hpc, hqc, if_neg (not_not.mpr rfl), firstDiff_cons_self]
          exact ih hcs hds (Nat.succ.inj hn)

theorem strncmp_eq (hp : CStr m p cs) (hq : CStr m q ds) :
    strncmp m p q n = (firstDiff 0 (cs.take n) (ds.take n)).elim 0 fun r => charDiff r.1 r.2 := by
  induction n generalizing p q cs ds with
  | zero => rfl
  | succ n ih =>
      rw [strncmp]
      cases heads hp hq with
      | ends hp0 hq0 =>
          rw [hp0, hq0, if_neg fun h => h.1 rfl]
          rfl
      | differ hne _ hcut =>
          rw [if_neg fun h => hne h.2, hcut]
          rfl
      | same hc hpc hqc hcs hds =>
          rw [hpc, hqc, if_pos ⟨hc, rfl⟩, List.take_succ_cons, List.take_succ_cons, firstDiff_cons_self]
          exact ih hcs hds

theorem strcmpLoop_eq (hp : CStr m p cs) (hq : CStr m q ds) (hfuel : cs.length < fuel) :
    strcmpLoop m p q fuel = some ((firstDiff 0 cs ds).elim 0 fun r => byteDiff r.1 r.2) := by
  induction fuel generalizing p q cs ds with
  | zero => exact absurd hfuel (Nat.not_lt_zero _)
  | succ fuel ih =>
      rw [strcmpLoop]
      cases heads hp hq with
      | ends hp0 hq0 =>
          rw [hp0, hq0, if_neg fun h => h.1 rfl]
          rfl
      | differ hne hdiff _ =>
          rw [if_neg fun h => hne h.2, hdiff]
          rfl
      | same hc hpc hqc hcs hds =>
          rw [hpc, hqc, if_pos ⟨hc, rfl⟩, firstDiff_cons_self]
          exact ih hcs hds (Nat.lt_of_succ_lt_succ hfuel)

end

/-! ## The order -/

section

variable {m : Bytes} {cs ds : List (BitVec 8)}

theorem compare_eq_firstDiff (hcs : ∀ c ∈ cs, c ≠ 0) (hds : ∀ c ∈ ds, c ≠ 0) :
    compare cs ds = (firstDiff 0 cs ds).elim .eq fun r => compare r.1 r.2 :=
  compare_firstDiff (fun _ => compare_zero_left) (fun _ => compare_zero_right) hcs hds

/-- Unsigned bytes give the order of the strings. -/
theorem sign_byteDiff_elim (hcs : ∀ c ∈ cs, c ≠ 0) (hds : ∀ c ∈ ds, c ≠ 0) :
    sign ((firstDiff 0 cs ds).elim 0 fun r => byteDiff r.1 r.2) = compare cs ds := by
  rw [compare_eq_firstDiff hcs hds]
  cases firstDiff 0 cs ds with
  | none => rfl
  | some r => exact sign_byteDiff r.1 r.2

theorem sign_charDiff_elim_iff (hcs : ∀ c ∈ cs, c ≠ 0) (hds : ∀ c ∈ ds, c ≠ 0) :
    sign ((firstDiff 0 cs ds).elim 0 fun r => charDiff r.1 r.2) = compare cs ds ↔ SameHalf cs ds := by
  rw [compare_eq_firstDiff hcs hds, SameHalf]
  cases hdiff : firstDiff 0 cs ds with
  | none => exact iff_of_true rfl fun c d h => by cases h
  | some r =>
      have hne : r.1 ≠ r.2 := ne_of_firstDiff hcs hds hdiff
      refine (sign_charDiff_iff hne).trans ⟨fun h c d hcd => ?_, fun h => h _ _ rfl⟩
      cases hcd
      exact h

theorem StrPtr.sign_strcmp (p q : StrPtr m) :
    ∃ r, strcmp m p.addr q.addr = some r ∧ sign r = compare p.chars q.chars :=
  ⟨_, strcmpLoop_eq p.cstr q.cstr (p.cstr.length_lt p.lt),
    sign_byteDiff_elim p.cstr.char_ne_zero q.cstr.char_ne_zero⟩

theorem StrPtr.sign_memcmp (p q : StrPtr m) :
    sign (memcmp m p.addr q.addr (min p.chars.length q.chars.length + 1)) = compare p.chars q.chars := by
  rw [memcmp_eq p.cstr q.cstr rfl]
  exact sign_byteDiff_elim p.cstr.char_ne_zero q.cstr.char_ne_zero

theorem StrPtr.sign_strncmp_iff (p q : StrPtr m) (n : Nat) :
    sign (strncmp m p.addr q.addr n) = compare (p.chars.take n) (q.chars.take n) ↔
      SameHalf (p.chars.take n) (q.chars.take n) := by
  rw [strncmp_eq p.cstr q.cstr]
  exact sign_charDiff_elim_iff (fun c hc => p.cstr.char_ne_zero c (List.mem_of_mem_take hc))
    fun c hc => q.cstr.char_ne_zero c (List.mem_of_mem_take hc)

theorem StrPtr.strLe_iff (p q : StrPtr m) : StrLe m p.addr q.addr ↔ (compare p.chars q.chars).isLE := by
  obtain ⟨r, hrun, hsign⟩ := p.sign_strcmp q
  rw [← hsign, sign, Int.isLE_compare]
  constructor
  · rintro ⟨r', hrun', hle⟩
    rw [hrun] at hrun'
    cases hrun'
    exact hle
  · exact fun hle => ⟨r, hrun, hle⟩

theorem strcmpOrder (m : Bytes) : StrcmpOrder m where
  zero_iff p q := by
    obtain ⟨r, hrun, hsign⟩ := p.sign_strcmp q
    have heq : p.chars = q.chars ↔ compare p.chars q.chars = .eq := Std.LawfulEqCmp.compare_eq_iff_eq.symm
    rw [hrun, Option.some.injEq, heq, ← hsign, sign, Int.compare_eq_eq]
  refl p := (p.strLe_iff p).mpr (Std.ReflCmp.isLE_rfl)
  antisymm p q hpq hqp := by
    rw [StrPtr.strLe_iff] at hpq hqp
    exact Std.LawfulEqCmp.eq_of_compare (Std.OrientedCmp.isLE_antisymm hpq hqp)
  trans p q r hpq hqr := by
    rw [StrPtr.strLe_iff] at hpq hqr ⊢
    exact Std.TransCmp.isLE_trans hpq hqr
  total p q := by
    rw [StrPtr.strLe_iff, StrPtr.strLe_iff]
    by_cases hle : (compare p.chars q.chars).isLE
    · exact Or.inl hle
    · exact Or.inr (Ordering.isLE_of_eq_lt (Std.OrientedCmp.lt_of_not_isLE hle))

end

/-- The comparisons agree on the first `n` bytes of two strings if and only if the first
bytes that differ are both below 128 or both not. -/
theorem strncmp_agrees_iff {m : Bytes} (p q : StrPtr m) (n : Nat) :
    Agrees p q n ↔ SameHalf (p.chars.take n) (q.chars.take n) := by
  rw [← p.sign_strncmp_iff q n]
  refine ⟨Agrees.cut, fun hcut => ?_⟩
  have hwhole : p.chars.length < n → q.chars.length < n →
      sign (strncmp m p.addr q.addr n) = compare p.chars q.chars := fun hp hq => by
    rw [hcut, List.take_of_length_le hp.le, List.take_of_length_le hq.le]
  refine ⟨hcut, fun hp hq => ?_, fun hp hq => ?_, strcmpOrder m⟩
  · rw [hwhole hp hq]
    exact p.sign_strcmp q
  · rw [hwhole hp hq]
    exact p.sign_memcmp q

/-- The byte 128 at address 256, and the letter `a` at 512. -/
def highAndLetter : Bytes := fun x => if x = 256 then 0x80 else if x = 512 then 0x61 else 0

def high : StrPtr highAndLetter := ⟨256, [0x80], by decide, by decide⟩

def letter : StrPtr highAndLetter := ⟨512, [0x61], by decide, by decide⟩

/-- `strncmp` puts the byte 128 before the letter, and `strcmp` behind it. -/
theorem not_agrees_high : strncmp highAndLetter 256 512 2 = -225 ∧ strcmp highAndLetter 256 512 = some 31 ∧
    compare high.chars letter.chars = .gt ∧ ¬ Agrees high letter 2 := by
  refine ⟨by decide, by decide, by decide, fun h => ?_⟩
  exact absurd h.cut (by decide)

end Str
end GuideOS
