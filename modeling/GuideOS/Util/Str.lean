import GuideOS.Lib.CStr
import Mathlib.Data.Set.Insert
import Mathlib.Logic.Function.Basic

/-!
# Copying and filling memory

`memmove`, `memcpy`, `memset`, `strncpy` and `safestrcpy` of `util/string.c`, with the
string instructions of `arch/x86/instructions.h` they use.  Pointers are 64-bit addresses and
wrap; the counts of `stosb` and `stosl` are passed as an `int`.
-/

namespace GuideOS
namespace Str

open Lib

/-! ## Copying -/

/-- `while(n-- > 0) *d++ = *s++` -/
def copyForward (m : Bytes) (d s : Nat) : Nat → Bytes
  | 0 => m
  | n + 1 => copyForward (Function.update m d (m s)) ((d + 1) % 2 ^ 64) ((s + 1) % 2 ^ 64) n

/-- `while(n-- > 0) *--d = *--s` -/
def copyBackward (m : Bytes) (d s : Nat) : Nat → Bytes
  | 0 => m
  | n + 1 =>
      let d := (d + (2 ^ 64 - 1)) % 2 ^ 64
      let s := (s + (2 ^ 64 - 1)) % 2 ^ 64
      copyBackward (Function.update m d (m s)) d s n

def memmove (m : Bytes) (dst src n : Nat) : Bytes :=
  if src < dst ∧ (src + n) % 2 ^ 64 > dst then
    copyBackward m ((dst + n) % 2 ^ 64) ((src + n) % 2 ^ 64) n
  else copyForward m dst src n

def memcpy (m : Bytes) (dst src n : Nat) : Bytes := memmove m dst src n

section

variable {m : Bytes} {d s n b : Nat}

/-- The end of a range may be the end of the address space, where the pointers wrap
after the last access. -/
theorem copyForward_mod (hd : d + n ≤ 2 ^ 64) (hs : s + n ≤ 2 ^ 64) :
    copyForward m (d % 2 ^ 64) (s % 2 ^ 64) n = copyForward m d s n := by
  cases n with
  | zero => rfl
  | succ n => rw [Nat.mod_eq_of_lt (by omega), Nat.mod_eq_of_lt (by omega)]

theorem copyForward_apply (hd : d + n ≤ 2 ^ 64) (hs : s + n ≤ 2 ^ 64) (h : d ≤ s ∨ s + n ≤ d) :
    copyForward m d s n b = if d ≤ b ∧ b < d + n then m (s + (b - d)) else m b := by
  induction n generalizing m d s with
  | zero => rw [copyForward, if_neg (by omega)]
  | succ n ih =>
      rw [copyForward, copyForward_mod (by omega) (by omega), ih (by omega) (by omega) (by omega)]
      by_cases hb : b = d
      · subst hb
        rw [if_neg (by omega), if_pos (by omega), Function.update_self, Nat.sub_self, Nat.add_zero]
      · by_cases hin : d + 1 ≤ b ∧ b < d + 1 + n
        · rw [if_pos hin, if_pos (by omega), Function.update_of_ne (by omega),
            show s + 1 + (b - (d + 1)) = s + (b - d) by omega]
        · rw [if_neg hin, if_neg (by omega), Function.update_of_ne hb]

theorem copyBackward_apply (hd : d + n ≤ 2 ^ 64) (hs : s + n ≤ 2 ^ 64) (h : s ≤ d ∨ d + n ≤ s) :
    copyBackward m ((d + n) % 2 ^ 64) ((s + n) % 2 ^ 64) n b =
      if d ≤ b ∧ b < d + n then m (s + (b - d)) else m b := by
  induction n generalizing m with
  | zero => rw [copyBackward, if_neg (by omega)]
  | succ n ih =>
      have hlast : ∀ {a}, a + (n + 1) ≤ 2 ^ 64 →
          ((a + (n + 1)) % 2 ^ 64 + (2 ^ 64 - 1)) % 2 ^ 64 = (a + n) % 2 ^ 64 := by
        intro a ha
        omega
      rw [copyBackward, hlast hd, hlast hs]
      rw [ih (by omega) (by omega) (by omega), Nat.mod_eq_of_lt (show d + n < 2 ^ 64 by omega),
        Nat.mod_eq_of_lt (show s + n < 2 ^ 64 by omega)]
      by_cases hb : b = d + n
      · subst hb
        rw [if_neg (by omega), if_pos (by omega), Function.update_self, Nat.add_sub_cancel_left]
      · by_cases hin : d ≤ b ∧ b < d + n
        · rw [if_pos hin, if_pos (by omega), Function.update_of_ne (by omega)]
        · rw [if_neg hin, if_neg (by omega), Function.update_of_ne hb]

theorem memmove_apply (hd : d + n ≤ 2 ^ 64) (hs : s + n ≤ 2 ^ 64) :
    memmove m d s n b = if d ≤ b ∧ b < d + n then m (s + (b - d)) else m b := by
  rw [memmove]
  split
  · rename_i hback
    exact copyBackward_apply hd hs (Or.inl hback.1.le)
  · rename_i hback
    refine copyForward_apply hd hs ?_
    by_cases hlt : s < d
    · -- The ranges are apart: the source ends before the destination, so it does not wrap.
      have hend : ¬ (s + n) % 2 ^ 64 > d := fun h => hback ⟨hlt, h⟩
      omega
    · omega

end

/-- The bytes from `dst` on are those that were at `src` before, and no other changed. -/
structure Copied (m : Bytes) (dst src n : Nat) (m' : Bytes) : Prop where
  copied : ∀ i < n, m' (dst + i) = m (src + i)
  kept : ∀ b, b < dst ∨ dst + n ≤ b → m' b = m b

/-- `memmove` and `memcpy` copy whatever the overlap of the two ranges. -/
theorem memmove_copied {dst src n : Nat} (hsrc : src + n ≤ 2 ^ 64) (hdst : dst + n ≤ 2 ^ 64) (m : Bytes) :
    Copied m dst src n (memmove m dst src n) ∧ Copied m dst src n (memcpy m dst src n) := by
  have h : Copied m dst src n (memmove m dst src n) := by
    refine ⟨fun i hi => ?_, fun b hb => ?_⟩
    · rw [memmove_apply hdst hsrc, if_pos (by omega), Nat.add_sub_cancel_left]
    · rw [memmove_apply hdst hsrc, if_neg (by omega)]
  exact ⟨h, h⟩

/-- Each byte holds the low byte of its address. -/
def counting : Bytes := fun a => BitVec.ofNat 8 a

/-- Two ranges that overlap, copied forward and backward. -/
theorem memmove_copied_overlap :
    Copied counting 4096 4098 5 (memmove counting 4096 4098 5) ∧ memmove counting 4096 4098 5 4100 = 6 ∧
      Copied counting 4098 4096 5 (memcpy counting 4098 4096 5) ∧ memcpy counting 4098 4096 5 4102 = 4 :=
  ⟨(memmove_copied (by decide) (by decide) counting).1, by decide,
    (memmove_copied (by decide) (by decide) counting).2, by decide⟩

/-! ## Filling -/

/-- `rep stosb` -/
def stosb (m : Bytes) (addr : Nat) (data : BitVec 8) : Nat → Bytes
  | 0 => m
  | cnt + 1 => stosb (Function.update m addr data) ((addr + 1) % 2 ^ 64) data cnt

/-- `rep stosl` -/
def stosl (m : Bytes) (addr : Nat) (data : BitVec 32) : Nat → Bytes
  | 0 => m
  | cnt + 1 => stosl (storeLE m addr 4 data.toNat) ((addr + 4) % 2 ^ 64) data cnt

def memset (m : Bytes) (dst : Nat) (c : BitVec 32) (n : Nat) : Bytes :=
  if dst % 4 = 0 ∧ n % 4 = 0 then
    let c := c &&& 0xFF
    stosl m dst (c <<< 24 ||| c <<< 16 ||| c <<< 8 ||| c) (n / 4 % 2 ^ 32)
  else stosb m dst (c.setWidth 8) (n % 2 ^ 32)

/-- The `n` bytes from `s` on. -/
def span (s n : Nat) : Set Nat := {x | ∃ i < n, x = (s + i) % 2 ^ 64}

section

variable {s n x : Nat}

theorem span_zero (s : Nat) : span s 0 = ∅ := by
  ext x
  simp [span]

theorem mem_span_succ (hs : s < 2 ^ 64) :
    x ∈ span s (n + 1) ↔ x = s ∨ x ∈ span ((s + 1) % 2 ^ 64) n := by
  constructor
  · rintro ⟨i, hi, rfl⟩
    cases i with
    | zero => exact Or.inl (Nat.mod_eq_of_lt hs)
    | succ i => exact Or.inr ⟨i, by omega, by omega⟩
  · rintro (rfl | ⟨i, hi, rfl⟩)
    · exact ⟨0, by omega, (Nat.mod_eq_of_lt hs).symm⟩
    · exact ⟨i + 1, by omega, by omega⟩

theorem span_succ (hs : s < 2 ^ 64) :
    span s (n + 1) = insert s (span ((s + 1) % 2 ^ 64) n) := by
  ext x
  exact mem_span_succ hs

theorem span_mono {k : Nat} (h : k ≤ n) : span s k ⊆ span s n := by
  rintro x ⟨i, hi, rfl⟩
  exact ⟨i, by omega, rfl⟩

/-- A range that does not wrap. -/
theorem mem_span_iff (h : s + n ≤ 2 ^ 64) : x ∈ span s n ↔ s ≤ x ∧ x < s + n := by
  constructor
  · rintro ⟨i, hi, rfl⟩
    rw [Nat.mod_eq_of_lt (by omega)]
    omega
  · rintro ⟨hle, hlt⟩
    exact ⟨x - s, by omega, by rw [Nat.mod_eq_of_lt (by omega)]; omega⟩

theorem span_add (s k n : Nat) : span s (k + n) = span s k ∪ span ((s + k) % 2 ^ 64) n := by
  ext x
  constructor
  · rintro ⟨i, hi, rfl⟩
    by_cases hk : i < k
    · exact Or.inl ⟨i, hk, rfl⟩
    · exact Or.inr ⟨i - k, by omega, by omega⟩
  · rintro (⟨i, hi, rfl⟩ | ⟨i, hi, rfl⟩)
    · exact ⟨i, by omega, rfl⟩
    · exact ⟨k + i, by omega, by omega⟩

end

section

variable {m : Bytes} {a n b : Nat}

/-- The memory `m'` is `m` with `n` bytes `x` from `a` on. -/
structure Filled (m : Bytes) (a n : Nat) (x : BitVec 8) (m' : Bytes) : Prop where
  inside : ∀ b ∈ span a n, m' b = x
  outside : ∀ b ∉ span a n, m' b = m b

theorem filled_zero (m : Bytes) (a : Nat) (x : BitVec 8) : Filled m a 0 x m where
  inside b hb := by
    rw [span_zero] at hb
    exact absurd hb (Set.notMem_empty b)
  outside _ _ := rfl

theorem filled_one (m : Bytes) {a : Nat} (ha : a < 2 ^ 64) (x : BitVec 8) :
    Filled m a 1 x (Function.update m a x) where
  inside b hb := by
    rw [mem_span_iff ha] at hb
    obtain rfl : b = a := by omega
    exact Function.update_self ..
  outside b hb := by
    rw [mem_span_iff ha] at hb
    exact Function.update_of_ne (by omega) ..

theorem Filled.append {m' m'' : Bytes} {x : BitVec 8} {k : Nat} (h : Filled m a k x m')
    (h' : Filled m' ((a + k) % 2 ^ 64) n x m'') : Filled m a (k + n) x m'' where
  inside b hb := by
    rw [span_add] at hb
    by_cases hrest : b ∈ span ((a + k) % 2 ^ 64) n
    · exact h'.inside b hrest
    · rw [h'.outside b hrest]
      exact h.inside b (hb.resolve_right hrest)
  outside b hb := by
    rw [span_add, Set.mem_union, not_or] at hb
    rw [h'.outside b hb.2, h.outside b hb.1]

/-- A range is filled in one way. -/
theorem Filled.unique {m' m'' : Bytes} {x : BitVec 8} (h : Filled m a n x m') (h' : Filled m a n x m'') :
    m' = m'' := by
  funext b
  by_cases hb : b ∈ span a n
  · rw [h.inside b hb, h'.inside b hb]
  · rw [h.outside b hb, h'.outside b hb]

theorem stosb_filled {x : BitVec 8} (ha : a < 2 ^ 64) : Filled m a n x (stosb m a x n) := by
  induction n generalizing m a with
  | zero => exact filled_zero m a x
  | succ n ih =>
      rw [stosb, Nat.add_comm n 1]
      exact (filled_one m ha x).append (ih (Nat.mod_lt _ (Nat.two_pow_pos 64)))

/-- Four equal bytes are stored. -/
theorem storeLE_filled {x : BitVec 32} {y : BitVec 8} (ha : a + 4 ≤ 2 ^ 64)
    (hx : ∀ i < 4, BitVec.ofNat 8 (x.toNat / 256 ^ i) = y) : Filled m a 4 y (storeLE m a 4 x.toNat) where
  inside b hb := by
    rw [mem_span_iff ha] at hb
    rw [storeLE, if_pos hb, hx _ (by omega)]
  outside b hb := by
    rw [mem_span_iff ha] at hb
    exact storeLE_outside (by omega)

theorem stosl_filled {x : BitVec 32} {y : BitVec 8} (ha : a < 2 ^ 64) (hword : a % 4 = 0)
    (hx : ∀ i < 4, BitVec.ofNat 8 (x.toNat / 256 ^ i) = y) : Filled m a (4 * n) y (stosl m a x n) := by
  induction n generalizing m a with
  | zero => exact filled_zero m a y
  | succ n ih =>
      rw [stosl, Nat.mul_succ, Nat.add_comm (4 * n) 4]
      exact (storeLE_filled (by omega) hx).append (ih (Nat.mod_lt _ (Nat.two_pow_pos 64)) (by omega))

theorem lowByte_getLsbD (c : BitVec 32) (p : Nat) :
    (c &&& 0xFF).getLsbD p = (decide (p < 8) && c.getLsbD p) := by
  have hmask : (0xFF : BitVec 32).getLsbD p = decide (p < 8) := by
    rw [show (0xFF : BitVec 32) = BitVec.ofNat 32 (2 ^ 8 - 1) from rfl, BitVec.getLsbD_ofNat,
      Nat.testBit_two_pow_sub_one]
    by_cases hp : p < 8
    · simp [hp, show p < 32 by omega]
    · simp [hp]
  rw [BitVec.getLsbD_and, hmask, Bool.and_comm]

/-- The word that `memset` makes of a byte. -/
theorem splat_byte (c : BitVec 32) {i : Nat} (hi : i < 4) :
    BitVec.ofNat 8 (((c &&& 0xFF) <<< 24 ||| (c &&& 0xFF) <<< 16 ||| (c &&& 0xFF) <<< 8 |||
      (c &&& 0xFF)).toNat / 256 ^ i) = c.setWidth 8 := by
  have hpow : 256 ^ i = 2 ^ (8 * i) := by rw [Nat.pow_mul]
  refine BitVec.eq_of_getLsbD_eq fun j hj => ?_
  rw [BitVec.getLsbD_ofNat, hpow, Nat.testBit_div_two_pow, BitVec.testBit_toNat]
  simp only [BitVec.getLsbD_or, BitVec.getLsbD_shiftLeft, lowByte_getLsbD, BitVec.getLsbD_setWidth,
    hj, decide_true, Bool.true_and]
  have hcases : i = 0 ∨ i = 1 ∨ i = 2 ∨ i = 3 := by omega
  rcases hcases with rfl | rfl | rfl | rfl
  · simp [hj, show j < 16 by omega, show j < 24 by omega]
  · simp [hj, show j + 8 < 24 by omega, show j + 8 < 16 by omega, show j + 8 < 32 by omega]
  · simp [hj, show j + 16 < 24 by omega, show j + 16 < 32 by omega,
      show j + 16 - 8 = j + 8 by omega]
  · simp [hj, show j + 24 < 32 by omega, show j + 24 - 16 = j + 8 by omega,
      show ¬ j + 24 < 8 by omega]

theorem memset_filled {c : BitVec 32} (ha : a < 2 ^ 64) (hn : n < 2 ^ 31) :
    Filled m a n (c.setWidth 8) (memset m a c n) := by
  rw [memset]
  split
  · rename_i hword
    have hfill := stosl_filled (m := m) (n := n / 4) ha hword.1 fun i hi => splat_byte c hi
    rw [show 4 * (n / 4) = n by omega] at hfill
    rwa [Nat.mod_eq_of_lt (by omega)]
  · rw [Nat.mod_eq_of_lt (by omega)]
    exact stosb_filled ha

theorem memset_apply {c : BitVec 32} (ha : a + n ≤ 2 ^ 64) (hn : n < 2 ^ 31) :
    memset m a c n b = if a ≤ b ∧ b < a + n then c.setWidth 8 else m b := by
  rcases Nat.lt_or_ge a (2 ^ 64) with hlt | hge
  · have hfill := memset_filled (m := m) (c := c) hlt hn
    split
    · rename_i hin
      exact hfill.inside b ((mem_span_iff ha).mpr hin)
    · rename_i hout
      exact hfill.outside b (mt (mem_span_iff ha).mp hout)
  · obtain rfl : n = 0 := by omega
    rw [if_neg (by omega), memset]
    split <;> rfl

end

/-- The words of `stosl` fill as the bytes of `stosb` do. -/
theorem memset_fills {dst n : Nat} (hdst : dst < 2 ^ 64) (hn : n < 2 ^ 31) (m : Bytes) (c : BitVec 32) :
    (∀ b ∈ span dst n, ((memset m dst c n b).toNat : Int) = c.toInt % 256) ∧
      (∀ b ∉ span dst n, memset m dst c n b = m b) ∧ memset m dst c n = stosb m dst (c.setWidth 8) n := by
  have hfill := memset_filled (m := m) (c := c) hdst hn
  refine ⟨fun b hb => ?_, hfill.outside, hfill.unique (stosb_filled hdst)⟩
  have hc := c.isLt
  rw [hfill.inside b hb, BitVec.toNat_setWidth, BitVec.toInt_eq_toNat_cond]
  split <;> omega

/-- Eight bytes are filled with the low byte of `-2`, by words. -/
theorem memset_fills_word :
    memset counting 4096 (BitVec.ofInt 32 (-2)) 8 = stosb counting 4096 254 8 ∧
      memset counting 4096 (BitVec.ofInt 32 (-2)) 8 4103 = 254 :=
  ⟨(memset_fills (by decide) (by decide) counting (BitVec.ofInt 32 (-2))).2.2, by decide⟩

/-! ## Copying a string

The two loops of `strncpy` count down in the same variable, which the test of the
first loop has decremented once more when it fails. -/

/-- Memory, and the addresses written so far. -/
structure Log where
  mem : Bytes
  written : Set Nat

def Log.store (l : Log) (a : Nat) (v : BitVec 8) : Log :=
  ⟨Function.update l.mem a v, insert a l.written⟩

/-- `while(n-- > 0 && (*s++ = *t++) != 0)`, with the values of `s` and `n` after it -/
def strncpyCopy (l : Log) (s t : Nat) : Nat → Log × Nat × Nat
  | 0 => (l, s, 2 ^ 64 - 1)
  | n + 1 =>
      let c := l.mem t
      let l := l.store s c
      if c ≠ 0 then strncpyCopy l ((s + 1) % 2 ^ 64) ((t + 1) % 2 ^ 64) n
      else (l, (s + 1) % 2 ^ 64, n)

/-- `while(n-- > 0) *s++ = 0` -/
def strncpyFill (l : Log) (s : Nat) : Nat → Log
  | 0 => l
  | n + 1 => strncpyFill (l.store s 0) ((s + 1) % 2 ^ 64) n

def strncpy (m : Bytes) (s t n : Nat) : Log :=
  let r := strncpyCopy ⟨m, ∅⟩ s t n
  strncpyFill r.1 r.2.1 r.2.2

/-- A string of `len` characters begins at `t`. -/
structure CString (m : Bytes) (t len : Nat) : Prop where
  char : ∀ i < len, m ((t + i) % 2 ^ 64) ≠ 0
  nul : m ((t + len) % 2 ^ 64) = 0

/-- The bytes from `s` to `s + n` were written, with the string at `t` and zeroes behind
it, and no other. -/
structure ExactCopy (m : Bytes) (s t len n : Nat) (l : Log) : Prop where
  written : l.written = span s n
  copied : ∀ i < min n len, l.mem ((s + i) % 2 ^ 64) = m ((t + i) % 2 ^ 64)
  padded : ∀ i, len ≤ i → i < n → l.mem ((s + i) % 2 ^ 64) = 0
  kept : ∀ x ∉ span s n, l.mem x = m x

section

variable {l : Log} {m : Bytes} {s t len n x : Nat}

@[simp] theorem Log.mem_store_self (l : Log) (a : Nat) (v : BitVec 8) : (l.store a v).mem a = v :=
  Function.update_self ..

theorem Log.mem_store_of_ne (l : Log) {a : Nat} (v : BitVec 8) (h : x ≠ a) :
    (l.store a v).mem x = l.mem x := Function.update_of_ne h ..

theorem strncpyFill_written (hs : s < 2 ^ 64) :
    (strncpyFill l s n).written = l.written ∪ span s n := by
  induction n generalizing l s with
  | zero => rw [strncpyFill, span_zero, Set.union_empty]
  | succ n ih =>
      rw [strncpyFill, ih (Nat.mod_lt _ (Nat.two_pow_pos 64)), span_succ hs, Log.store,
        Set.insert_union, Set.union_insert]

theorem strncpyFill_kept (hs : s < 2 ^ 64) (hx : x ∉ span s n) :
    (strncpyFill l s n).mem x = l.mem x := by
  induction n generalizing l s with
  | zero => rfl
  | succ n ih =>
      rw [mem_span_succ hs, not_or] at hx
      rw [strncpyFill, ih (Nat.mod_lt _ (Nat.two_pow_pos 64)) hx.2, l.mem_store_of_ne 0 hx.1]

theorem strncpyFill_zero (hs : s < 2 ^ 64) (hx : x ∈ span s n) : (strncpyFill l s n).mem x = 0 := by
  induction n generalizing l s with
  | zero =>
      rw [span_zero] at hx
      exact absurd hx (Set.notMem_empty x)
  | succ n ih =>
      have hs' : (s + 1) % 2 ^ 64 < 2 ^ 64 := Nat.mod_lt _ (Nat.two_pow_pos 64)
      rw [strncpyFill]
      by_cases hrest : x ∈ span ((s + 1) % 2 ^ 64) n
      · exact ih hs' hrest
      · have hfirst : x = s := ((mem_span_succ hs).mp hx).resolve_right hrest
        rw [strncpyFill_kept hs' hrest, hfirst, Log.mem_store_self]

theorem CString.tail (h : CString m t (len + 1)) : CString m ((t + 1) % 2 ^ 64) len where
  char i hi := by
    have hnext := h.char (i + 1) (by omega)
    rwa [show ((t + 1) % 2 ^ 64 + i) % 2 ^ 64 = (t + (i + 1)) % 2 ^ 64 by omega]
  nul := by
    have hend := h.nul
    rwa [show ((t + 1) % 2 ^ 64 + len) % 2 ^ 64 = (t + (len + 1)) % 2 ^ 64 by omega]

theorem CString.congr {m' : Bytes} (h : CString m t len)
    (hm : ∀ x ∈ span t (len + 1), m' x = m x) : CString m' t len where
  char i hi := by
    rw [hm _ ⟨i, by omega, rfl⟩]
    exact h.char i hi
  nul := by
    rw [hm _ ⟨len, by omega, rfl⟩]
    exact h.nul

theorem CString.first (h : CString m t (len + 1)) (ht : t < 2 ^ 64) : m t ≠ 0 := by
  have hchar := h.char 0 (Nat.succ_pos len)
  rwa [Nat.add_zero, Nat.mod_eq_of_lt ht] at hchar

/-- Storing the first byte of the copy leaves the rest of the string alone. -/
theorem store_tail {v : BitVec 8} {k : Nat} (hs : s < 2 ^ 64) (ht : t < 2 ^ 64)
    (hdisj : ∀ x ∈ span t (k + 1), x ∉ span s (n + 1)) :
    ∀ x ∈ span ((t + 1) % 2 ^ 64) k, (l.store s v).mem x = l.mem x := by
  intro x hx
  refine l.mem_store_of_ne _ fun hxs => ?_
  exact hdisj x ((mem_span_succ ht).mpr (Or.inr hx)) ((mem_span_succ hs).mpr (Or.inl hxs))

theorem disjoint_tail {k : Nat} (hs : s < 2 ^ 64) (ht : t < 2 ^ 64)
    (hdisj : ∀ x ∈ span t (k + 1), x ∉ span s (n + 1)) :
    ∀ x ∈ span ((t + 1) % 2 ^ 64) k, x ∉ span ((s + 1) % 2 ^ 64) n := fun x hx hx' =>
  hdisj x ((mem_span_succ ht).mpr (Or.inr hx)) ((mem_span_succ hs).mpr (Or.inr hx'))

/-- The string ends before the count: it is copied with its terminator. -/
theorem strncpyCopy_short (hs : s < 2 ^ 64) (ht : t < 2 ^ 64) (hn : n ≤ 2 ^ 64) (hlen : len < n)
    (hstr : CString l.mem t len) (hdisj : ∀ x ∈ span t (len + 1), x ∉ span s (len + 1)) :
    ∃ l', strncpyCopy l s t n = (l', (s + (len + 1)) % 2 ^ 64, n - (len + 1)) ∧
      l'.written = l.written ∪ span s (len + 1) ∧
      (∀ i ≤ len, l'.mem ((s + i) % 2 ^ 64) = l.mem ((t + i) % 2 ^ 64)) ∧
      ∀ x ∉ span s (len + 1), l'.mem x = l.mem x := by
  obtain ⟨n, rfl⟩ := Nat.exists_eq_succ_of_ne_zero (Nat.ne_of_gt (Nat.zero_lt_of_lt hlen))
  induction len generalizing l s t n with
  | zero =>
      have hnul := hstr.nul
      rw [Nat.add_zero, Nat.mod_eq_of_lt ht] at hnul
      refine ⟨l.store s (l.mem t), ?_, ?_, fun i hi => ?_, fun x hx => ?_⟩
      · rw [strncpyCopy, if_neg (not_not.mpr hnul)]
        rfl
      · rw [span_succ hs, span_zero, Set.union_insert, Set.union_empty]
        rfl
      · rw [Nat.le_zero.mp hi, Nat.add_zero, Nat.add_zero, Nat.mod_eq_of_lt hs, Nat.mod_eq_of_lt ht]
        exact l.mem_store_self s _
      · rw [mem_span_succ hs, not_or] at hx
        exact l.mem_store_of_ne _ hx.1
  | succ len ih =>
      obtain ⟨n, rfl⟩ := Nat.exists_eq_succ_of_ne_zero (show n ≠ 0 by omega)
      have hs' : (s + 1) % 2 ^ 64 < 2 ^ 64 := Nat.mod_lt _ (Nat.two_pow_pos 64)
      have ht' : (t + 1) % 2 ^ 64 < 2 ^ 64 := Nat.mod_lt _ (Nat.two_pow_pos 64)
      have hsame := store_tail (l := l) (v := l.mem t) hs ht hdisj
      obtain ⟨l', hrun, hwritten, hcopied, hkept⟩ := ih (l := l.store s (l.mem t)) hs' ht'
        (hstr.tail.congr hsame) (disjoint_tail hs ht hdisj) n (by omega) (by omega)
      refine ⟨l', ?_, ?_, fun i hi => ?_, fun x hx => ?_⟩
      · rw [strncpyCopy, if_pos (hstr.first ht), hrun, Prod.mk.injEq, Prod.mk.injEq]
        exact ⟨rfl, by omega, by omega⟩
      · rw [hwritten, span_succ hs, Log.store, Set.insert_union, Set.union_insert]
      · cases i with
        | zero =>
            -- The first byte is not written again: the string is shorter than memory.
            have hout : s ∉ span ((s + 1) % 2 ^ 64) (len + 1) := by
              rintro ⟨j, hj, heq⟩
              omega
            rw [Nat.add_zero, Nat.add_zero, Nat.mod_eq_of_lt hs, Nat.mod_eq_of_lt ht, hkept s hout]
            exact l.mem_store_self s _
        | succ i =>
            have hnext := hcopied i (by omega)
            rw [hsame _ ⟨i, by omega, rfl⟩] at hnext
            rwa [show (s + (i + 1)) % 2 ^ 64 = ((s + 1) % 2 ^ 64 + i) % 2 ^ 64 by omega,
              show (t + (i + 1)) % 2 ^ 64 = ((t + 1) % 2 ^ 64 + i) % 2 ^ 64 by omega]
      · rw [mem_span_succ hs, not_or] at hx
        rw [hkept x hx.2, l.mem_store_of_ne _ hx.1]

/-- The count ends before the string: the test has wrapped the counter. -/
theorem strncpyCopy_long (hs : s < 2 ^ 64) (ht : t < 2 ^ 64) (hlen : n ≤ len)
    (hstr : CString l.mem t len) (hdisj : ∀ x ∈ span t (len + 1), x ∉ span s n) :
    ∃ l', strncpyCopy l s t n = (l', (s + n) % 2 ^ 64, 2 ^ 64 - 1) := by
  induction n generalizing l s t len with
  | zero => exact ⟨l, by rw [strncpyCopy, Nat.add_zero, Nat.mod_eq_of_lt hs]⟩
  | succ n ih =>
      obtain ⟨len, rfl⟩ := Nat.exists_eq_succ_of_ne_zero (show len ≠ 0 by omega)
      have hsame := store_tail (l := l) (v := l.mem t) hs ht hdisj
      obtain ⟨l', hrun⟩ := ih (l := l.store s (l.mem t)) (Nat.mod_lt (s + 1) (Nat.two_pow_pos 64))
        (Nat.mod_lt (t + 1) (Nat.two_pow_pos 64)) (Nat.le_of_succ_le_succ hlen) (hstr.tail.congr hsame)
        (disjoint_tail hs ht hdisj)
      refine ⟨l', ?_⟩
      rw [strncpyCopy, if_pos (hstr.first ht), hrun, Prod.mk.injEq, Prod.mk.injEq]
      exact ⟨rfl, by omega, rfl⟩

/-- The bytes of a copy do not come round. -/
theorem end_notMem_span (hn : n < 2 ^ 64) : (s + n) % 2 ^ 64 ∉ span s n := by
  rintro ⟨i, hi, heq⟩
  omega

end

/-- `strncpy` writes exactly its `n` bytes if and only if the string is shorter. -/
theorem strncpy_exactCopy_iff {m : Bytes} {s t len n : Nat} (hs : s < 2 ^ 64) (ht : t < 2 ^ 64)
    (hn : n < 2 ^ 64) (hstr : CString m t len) (hdisj : ∀ x ∈ span t (len + 1), x ∉ span s n) :
    ExactCopy m s t len n (strncpy m s t n) ↔ len < n := by
  constructor
  · intro h
    by_contra hle
    obtain ⟨l', hrun⟩ := strncpyCopy_long (l := ⟨m, ∅⟩) hs ht (by omega) hstr hdisj
    have hlast : (s + n) % 2 ^ 64 < 2 ^ 64 := Nat.mod_lt _ (Nat.two_pow_pos 64)
    have hmem : (s + n) % 2 ^ 64 ∈ (strncpy m s t n).written := by
      rw [strncpy, hrun, strncpyFill_written hlast]
      exact Or.inr ⟨0, Nat.sub_pos_of_lt (by decide), (Nat.mod_eq_of_lt hlast).symm⟩
    rw [h.written] at hmem
    exact end_notMem_span hn hmem
  · intro hlen
    obtain ⟨l', hrun, hwritten, hcopied, hkept⟩ := strncpyCopy_short (l := ⟨m, ∅⟩) hs ht hn.le hlen
      hstr fun x hx hx' => hdisj x hx (span_mono hlen hx')
    have hrest : (s + (len + 1)) % 2 ^ 64 < 2 ^ 64 := Nat.mod_lt _ (Nat.two_pow_pos 64)
    have hsplit : span s n = span s (len + 1) ∪ span ((s + (len + 1)) % 2 ^ 64) (n - (len + 1)) := by
      rw [← span_add, Nat.add_sub_cancel' hlen]
    refine ⟨?_, fun i hi => ?_, fun i hi hi' => ?_, fun x hx => ?_⟩
    · rw [strncpy, hrun, strncpyFill_written hrest, hwritten, Set.empty_union, hsplit]
    · have hout : (s + i) % 2 ^ 64 ∉ span ((s + (len + 1)) % 2 ^ 64) (n - (len + 1)) := by
        rintro ⟨j, hj, heq⟩
        omega
      rw [strncpy, hrun, strncpyFill_kept hrest hout]
      exact hcopied i (by omega)
    · rw [strncpy, hrun]
      by_cases hin : (s + i) % 2 ^ 64 ∈ span ((s + (len + 1)) % 2 ^ 64) (n - (len + 1))
      · exact strncpyFill_zero hrest hin
      · have hi : i = len := by
          by_contra hne
          exact hin ⟨i - (len + 1), by omega, by omega⟩
        rw [strncpyFill_kept hrest hin, hi]
        exact (hcopied len le_rfl).trans hstr.nul
    · rw [hsplit, Set.mem_union, not_or] at hx
      rw [strncpy, hrun, strncpyFill_kept hrest hx.2]
      exact hkept x hx.1

/-- The string `hi` at address 100. -/
def hiAt100 : Bytes := fun a => if a = 100 then 0x68 else if a = 101 then 0x69 else if a = 102 then 0 else 0xAA

theorem cstring_hi : CString hiAt100 100 2 := ⟨by decide, by decide⟩

theorem span_hi {n : Nat} (hn : n ≤ 100) : ∀ x ∈ span 100 3, x ∉ span 200 n := by
  rintro x ⟨i, hi, rfl⟩ ⟨j, hj, heq⟩
  omega

theorem strncpy_exactCopy_five : ExactCopy hiAt100 200 100 2 5 (strncpy hiAt100 200 100 5) :=
  (strncpy_exactCopy_iff (by decide) (by decide) (by decide) cstring_hi (span_hi (by decide))).mpr
    (by decide)

/-- A string that fills the destination: the byte behind it is overwritten. -/
theorem not_exactCopy_two : CString hiAt100 100 2 ∧ (∀ x ∈ span 100 3, x ∉ span 200 2) ∧
    hiAt100 202 = 0xAA ∧ (strncpy hiAt100 200 100 2).mem 202 = 0 ∧
    ¬ ExactCopy hiAt100 200 100 2 2 (strncpy hiAt100 200 100 2) := by
  obtain ⟨l', hrun⟩ := strncpyCopy_long (l := ⟨hiAt100, ∅⟩) (show 200 < 2 ^ 64 by decide)
    (show 100 < 2 ^ 64 by decide) (le_refl 2) cstring_hi (span_hi (by decide))
  have hzero : (strncpy hiAt100 200 100 2).mem 202 = 0 := by
    rw [strncpy, hrun]
    exact strncpyFill_zero (show 202 < 2 ^ 64 by decide) ⟨0, Nat.sub_pos_of_lt (by decide), rfl⟩
  refine ⟨cstring_hi, span_hi (by decide), rfl, hzero, fun h => ?_⟩
  have hkept := h.kept 202 (end_notMem_span (s := 200) (n := 2) (by decide))
  rw [hzero] at hkept
  exact absurd hkept (by decide)

/-! ## Copying a string with its terminator -/

/-- `while(--n > 0 && (*s++ = *t++) != 0)`, with `s` after it.  The count is `n` after the
first `--n`. -/
def safestrcpyCopy (l : Log) (s t : Nat) : Nat → Log × Nat
  | 0 => (l, s)
  | n + 1 =>
      let c := l.mem t
      let l := l.store s c
      if c ≠ 0 then safestrcpyCopy l ((s + 1) % 2 ^ 64) ((t + 1) % 2 ^ 64) n
      else (l, (s + 1) % 2 ^ 64)

def safestrcpy (m : Bytes) (s t n : Nat) : Log :=
  if n = 0 then ⟨m, ∅⟩
  else
    let r := safestrcpyCopy ⟨m, ∅⟩ s t (n - 1)
    r.1.store r.2 0

/-- The first `n` characters of `cs`, at most, were copied to `s` and terminated. -/
structure Truncated (l : Log) (s n : Nat) (cs : List (BitVec 8)) (l' : Log) : Prop where
  text : CStr l'.mem s (cs.take n)
  written : l'.written ⊆ l.written ∪ span s (n + 1)
  kept : ∀ x ∉ span s (n + 1), l'.mem x = l.mem x

section

variable {l : Log} {s t n x : Nat} {cs : List (BitVec 8)}

/-- A terminator is stored. -/
theorem store_zero_truncated (l : Log) (cs : List (BitVec 8)) (hs : s < 2 ^ 64) :
    Truncated l s 0 cs (l.store s 0) where
  text := l.mem_store_self s 0
  written := by
    rw [span_succ hs, span_zero, Set.union_insert, Set.union_empty]
    exact subset_rfl
  kept x hx := by
    rw [mem_span_succ hs, not_or] at hx
    exact l.mem_store_of_ne 0 hx.1

/-- The byte in front of the rest of the copy. -/
theorem Truncated.front {v : BitVec 8} {k : Nat} {l' : Log} (h : Truncated (l.store s v) ((s + 1) % 2 ^ 64) k cs l')
    (hs : s < 2 ^ 64) (hk : k ≤ n) (hn : n + 1 < 2 ^ 64) :
    l'.mem s = v ∧ l'.written ⊆ l.written ∪ span s (n + 2) ∧ ∀ x ∉ span s (n + 2), l'.mem x = l.mem x := by
  have hsub : span s (k + 2) ⊆ span s (n + 2) := span_mono (by omega)
  have hout : s ∉ span ((s + 1) % 2 ^ 64) (k + 1) := by
    rintro ⟨i, hi, heq⟩
    omega
  refine ⟨?_, ?_, fun x hx => ?_⟩
  · rw [h.kept s hout]
    exact l.mem_store_self s v
  · refine h.written.trans ?_
    rw [Log.store, Set.insert_union, ← Set.union_insert, ← span_succ hs]
    exact Set.union_subset_union_right _ hsub
  · have hx' : x ∉ span s (k + 2) := fun hin => hx (hsub hin)
    rw [mem_span_succ hs, not_or] at hx'
    rw [h.kept x hx'.2, l.mem_store_of_ne v hx'.1]

theorem safestrcpyCopy_truncated (hs : s < 2 ^ 64) (ht : t < 2 ^ 64) (hn : n + 1 < 2 ^ 64)
    (hstr : CStr l.mem t cs) (hdisj : ∀ x ∈ span t (cs.length + 1), x ∉ span s (n + 1)) :
    Truncated l s n cs ((safestrcpyCopy l s t n).1.store (safestrcpyCopy l s t n).2 0) := by
  induction n generalizing l s t cs with
  | zero => exact store_zero_truncated l cs hs
  | succ n ih =>
      have hs' : (s + 1) % 2 ^ 64 < 2 ^ 64 := Nat.mod_lt _ (Nat.two_pow_pos 64)
      have ht' : (t + 1) % 2 ^ 64 < 2 ^ 64 := Nat.mod_lt _ (Nat.two_pow_pos 64)
      rw [safestrcpyCopy]
      cases cs with
      | nil =>
          -- The terminator was copied, and a second one is stored behind it.
          have hnul : l.mem t = 0 := hstr
          rw [hnul, if_neg (not_not.mpr rfl)]
          obtain ⟨hfirst, hwritten, hkept⟩ :=
            (store_zero_truncated (l.store s 0) [] hs').front hs (Nat.zero_le n) (by omega)
          exact ⟨hfirst, hwritten, hkept⟩
      | cons c cs =>
          obtain ⟨hc, hne, hrest⟩ := hstr
          have hsame := store_tail (l := l) (v := c) hs ht hdisj
          have htail := ih (l := l.store s c) hs' ht' (by omega)
            (hrest.congr ht' fun i hi => hsame _ ⟨i, Nat.lt_succ_of_le hi, rfl⟩) (disjoint_tail hs ht hdisj)
          rw [hc, if_pos hne]
          obtain ⟨hfirst, hwritten, hkept⟩ := htail.front hs (Nat.le_refl n) (by omega)
          exact ⟨⟨hfirst, hne, htail.text⟩, hwritten, hkept⟩

end

/-- `safestrcpy` leaves the string cut to `n - 1` characters, and writes nothing from the
index `n` on. -/
theorem safestrcpy_truncates {m : Bytes} {s t n : Nat} {cs : List (BitVec 8)} (hs : s < 2 ^ 64) (ht : t < 2 ^ 64)
    (hn : n < 2 ^ 64) (hstr : CStr m t cs) (hdisj : ∀ x ∈ span t (cs.length + 1), x ∉ span s n) :
    (1 ≤ n → CStr (safestrcpy m s t n).mem s (cs.take (min cs.length (n - 1)))) ∧
      (safestrcpy m s t n).written ⊆ span s n ∧ (∀ x ∉ span s n, (safestrcpy m s t n).mem x = m x) ∧
      (n = 0 → (safestrcpy m s t n).written = ∅) := by
  rw [safestrcpy]
  cases n with
  | zero => exact ⟨fun h => absurd h (by decide), Set.empty_subset _, fun _ _ => rfl, fun _ => rfl⟩
  | succ n =>
      have h := safestrcpyCopy_truncated (l := ⟨m, ∅⟩) hs ht hn hstr hdisj
      have hwritten := h.written
      rw [Set.empty_union] at hwritten
      refine ⟨fun _ => ?_, hwritten, h.kept, fun h => absurd h (Nat.succ_ne_zero n)⟩
      rw [Nat.add_sub_cancel, Nat.min_comm, ← List.take_eq_take_min]
      exact h.text

theorem safestrcpy_truncates_two : CStr (safestrcpy hiAt100 200 100 2).mem 200 [0x68] ∧
    (safestrcpy hiAt100 200 100 2).mem 202 = hiAt100 202 := by
  have h := safestrcpy_truncates (s := 200) (t := 100) (n := 2) (by decide) (by decide) (by decide)
    (show CStr hiAt100 100 [0x68, 0x69] by decide) (span_hi (by decide))
  exact ⟨h.1 (by decide), h.2.2.1 202 (end_notMem_span (s := 200) (by decide))⟩

end Str
end GuideOS
