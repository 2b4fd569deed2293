import Mathlib.Data.Nat.Bitwise
import Mathlib.Logic.Function.Basic

/-!
# Machine words

Unsigned 64-bit arithmetic is done on `Nat` with an explicit remainder where an
operation can wrap.  The only bit operation that needs the width is complement,
and the masks it is used for clear the low bits of an address.

A bitmap is an array of 32-bit words; bit `k` is bit `k % 32` of word `k / 32`.
-/

namespace GuideOS
namespace Lib

/-- `~m` on a 64-bit word. -/
def not64 (m : Nat) : Nat := 2 ^ 64 - 1 - m

/-- Clearing the low `k` bits rounds down to a multiple of `2 ^ k`. -/
theorem and_not64 {x : Nat} (hx : x < 2 ^ 64) (k : Nat) (hk : k ≤ 64) :
    x &&& not64 (2 ^ k - 1) = x / 2 ^ k * 2 ^ k := by
  refine Nat.eq_of_testBit_eq (fun i => ?_)
  have hm : 2 ^ k - 1 < 2 ^ 64 := by
    have := Nat.pow_le_pow_right (show 2 > 0 by omega) hk
    have := Nat.two_pow_pos k
    omega
  have hnot : not64 (2 ^ k - 1) = 2 ^ 64 - ((2 ^ k - 1) + 1) := by
    unfold not64
    omega
  rw [Nat.testBit_and, hnot, Nat.testBit_two_pow_sub_succ hm, Nat.testBit_two_pow_sub_one,
    Nat.testBit_mul_two_pow, Nat.testBit_div_two_pow]
  by_cases hik : k ≤ i
  · have hlt : ¬ i < k := by omega
    simp only [hik, hlt, decide_true, decide_false, Bool.not_false, Bool.and_true, Bool.true_and,
      Nat.sub_add_cancel hik]
    by_cases hi : i < 64
    · simp [hi]
    · have hbit : x.testBit i = false :=
        Nat.testBit_lt_two_pow (Nat.lt_of_lt_of_le hx (Nat.pow_le_pow_right (by omega) (by omega)))
      simp [hbit]
  · have hlt : i < k := by omega
    simp [hik, hlt]

/-! ## Bitmaps -/

/-- Bit `k` of a bitmap. -/
def bitmapTest (m : Nat → BitVec 32) (k : Nat) : Bool :=
  (m (k / 32) &&& (1#32 <<< (k % 32))) != 0#32

/-- Flip bit `k` of a bitmap. -/
def bitmapToggle (m : Nat → BitVec 32) (k : Nat) : Nat → BitVec 32 :=
  Function.update m (k / 32) (m (k / 32) ^^^ (1#32 <<< (k % 32)))

theorem getLsbD_one_shiftLeft {a b : Nat} (hb : b < 32) :
    (1#32 <<< a).getLsbD b = decide (b = a) := by
  rw [BitVec.getLsbD_shiftLeft, BitVec.getLsbD_one]
  by_cases h : b = a
  · subst h
    simp [hb]
  · by_cases hlt : b < a
    · simp [hlt, h]
    · have : b - a ≠ 0 := by omega
      simp [h, this]

theorem bitmapTest_eq_getLsbD (m : Nat → BitVec 32) (k : Nat) :
    bitmapTest m k = (m (k / 32)).getLsbD (k % 32) := by
  have hk : k % 32 < 32 := Nat.mod_lt k (by omega)
  rw [bitmapTest]
  cases hbit : (m (k / 32)).getLsbD (k % 32) with
  | true =>
      refine bne_iff_ne.mpr fun h => ?_
      have := congrArg (fun w => w.getLsbD (k % 32)) h
      simp only [BitVec.getLsbD_and, hbit, getLsbD_one_shiftLeft hk, BitVec.getLsbD_zero,
        decide_true, Bool.and_true, Bool.true_eq_false] at this
  | false =>
      refine bne_eq_false_iff_eq.mpr (BitVec.eq_of_getLsbD_eq fun i hi => ?_)
      rw [BitVec.getLsbD_and, getLsbD_one_shiftLeft hi, BitVec.getLsbD_zero]
      by_cases h : i = k % 32
      · rw [h, hbit, Bool.false_and]
      · simp [h]

/-- Toggling bit `k` flips bit `k` and keeps every other bit. -/
theorem bitmapTest_toggle (m : Nat → BitVec 32) (k j : Nat) :
    bitmapTest (bitmapToggle m k) j = (bitmapTest m j ^^ decide (j = k)) := by
  have hj : j % 32 < 32 := Nat.mod_lt j (by omega)
  rw [bitmapTest_eq_getLsbD, bitmapTest_eq_getLsbD, bitmapToggle]
  by_cases hw : j / 32 = k / 32
  · rw [hw, Function.update_self, BitVec.getLsbD_xor, getLsbD_one_shiftLeft hj]
    congr 1
    exact decide_eq_decide.mpr (by omega)
  · have hne : j ≠ k := fun h => hw (h ▸ rfl)
    rw [Function.update_of_ne hw, decide_eq_false hne, Bool.xor_false]

end Lib
end GuideOS
