import GuideOS.Lib.Word
import Mathlib.Data.Nat.Init
import Mathlib.Tactic.Ring

/-!
# Byte memory

Memory is a map from addresses to bytes.  Words are stored little-endian, at any
alignment.  A load depends only on the bytes it covers, a store changes only the
bytes it covers, and a load returns what was last stored.  `Words` says which words
lie from an address on.
-/

namespace GuideOS
namespace Lib

abbrev Bytes := Nat → BitVec 8

/-- The `n` bytes at `a`, least significant first, as a number. -/
def loadLE (m : Bytes) (a : Nat) : Nat → Nat
  | 0 => 0
  | n + 1 => (m a).toNat + 256 * loadLE m (a + 1) n

/-- Store the low `n` bytes of `v` at `a`. -/
def storeLE (m : Bytes) (a n v : Nat) : Bytes := fun b =>
  if a ≤ b ∧ b < a + n then BitVec.ofNat 8 (v / 256 ^ (b - a)) else m b

def load64 (m : Bytes) (a : Nat) : Nat := loadLE m a 8

def store64 (m : Bytes) (a v : Nat) : Bytes := storeLE m a 8 v

theorem loadLE_congr {m m' : Bytes} {a n : Nat} (h : ∀ b, a ≤ b → b < a + n → m' b = m b) :
    loadLE m' a n = loadLE m a n := by
  induction n generalizing a with
  | zero => rfl
  | succ n ih =>
      rw [loadLE, loadLE, h a (Nat.le_refl a) (by omega),
        ih fun b hb hb' => h b (by omega) (by omega)]

theorem storeLE_outside {m : Bytes} {a n v b : Nat} (h : b < a ∨ a + n ≤ b) :
    storeLE m a n v b = m b := by
  rw [storeLE, if_neg (by omega)]

theorem loadLE_storeLE {m : Bytes} {a k n w v : Nat} (h : k + n ≤ w) :
    loadLE (storeLE m a w v) (a + k) n = v / 256 ^ k % 256 ^ n := by
  induction n generalizing k with
  | zero => rw [loadLE, Nat.pow_zero, Nat.mod_one]
  | succ n ih =>
      have hbyte : (storeLE m a w v (a + k)).toNat = v / 256 ^ k % 256 := by
        rw [storeLE, if_pos (by omega), BitVec.toNat_ofNat, Nat.add_sub_cancel_left]
      have hrest : v / 256 ^ (k + 1) = v / 256 ^ k / 256 := by
        rw [Nat.pow_succ, Nat.div_div_eq_div_mul]
      rw [loadLE, hbyte, Nat.add_assoc, ih (by omega), hrest, Nat.pow_succ,
        Nat.mul_comm (256 ^ n), Nat.mod_mul]

theorem load64_store64 (m : Bytes) {a v : Nat} (hv : v < 2 ^ 64) :
    load64 (store64 m a v) a = v := by
  have h : loadLE (storeLE m a 8 v) (a + 0) 8 = v / 256 ^ 0 % 256 ^ 8 := loadLE_storeLE (by omega)
  rw [load64, store64]
  rw [Nat.add_zero, Nat.pow_zero, Nat.div_one, show 256 ^ 8 = 2 ^ 64 by norm_num,
    Nat.mod_eq_of_lt hv] at h
  exact h

theorem loadLE_lt (m : Bytes) (a n : Nat) : loadLE m a n < 256 ^ n := by
  induction n generalizing a with
  | zero => exact Nat.one_pos
  | succ n ih =>
      have hbyte := (m a).isLt
      have hrest := ih (a + 1)
      rw [loadLE, Nat.pow_succ]
      omega

theorem load64_lt (m : Bytes) (a : Nat) : load64 m a < 2 ^ 64 := loadLE_lt m a 8

theorem store64_outside {m : Bytes} {a v b : Nat} (h : b < a ∨ a + 8 ≤ b) :
    store64 m a v b = m b :=
  storeLE_outside h

theorem load64_congr {m m' : Bytes} {a : Nat} (h : ∀ b, a ≤ b → b < a + 8 → m' b = m b) :
    load64 m' a = load64 m a :=
  loadLE_congr h

theorem load64_store64_ne {m : Bytes} {a b v : Nat} (h : b + 8 ≤ a ∨ a + 8 ≤ b) :
    load64 (store64 m a v) b = load64 m b :=
  load64_congr fun _ _ _ => store64_outside (by omega)

theorem loadLE_zero {m : Bytes} {a n : Nat} (h : ∀ b, a ≤ b → b < a + n → m b = 0) :
    loadLE m a n = 0 := by
  induction n generalizing a with
  | zero => rfl
  | succ n ih =>
      rw [loadLE, h a (Nat.le_refl a) (by omega), ih fun b hb hb' => h b (by omega) (by omega)]
      rfl

/-! ## Words of 32 bits -/

def load32 (m : Bytes) (a : Nat) : BitVec 32 := BitVec.ofNat 32 (loadLE m a 4)

def store32 (m : Bytes) (a : Nat) (v : BitVec 32) : Bytes := storeLE m a 4 v.toNat

theorem load32_congr {m m' : Bytes} {a : Nat} (h : ∀ b, a ≤ b → b < a + 4 → m' b = m b) :
    load32 m' a = load32 m a := by
  rw [load32, loadLE_congr h, load32]

theorem store32_outside {m : Bytes} {a b : Nat} {v : BitVec 32} (h : b < a ∨ a + 4 ≤ b) :
    store32 m a v b = m b :=
  storeLE_outside h

theorem load32_store32 (m : Bytes) (a : Nat) (v : BitVec 32) : load32 (store32 m a v) a = v := by
  have h : loadLE (storeLE m a 4 v.toNat) (a + 0) 4 = v.toNat / 256 ^ 0 % 256 ^ 4 := loadLE_storeLE (by omega)
  rw [Nat.add_zero, Nat.pow_zero, Nat.div_one, show 256 ^ 4 = 2 ^ 32 by norm_num,
    Nat.mod_eq_of_lt v.isLt] at h
  rw [load32, store32, h, BitVec.ofNat_toNat, BitVec.setWidth_eq]

theorem load32_store32_ne {m : Bytes} {a b : Nat} {v : BitVec 32} (h : b + 4 ≤ a ∨ a + 4 ≤ b) :
    load32 (store32 m a v) b = load32 m b :=
  load32_congr fun _ _ _ => store32_outside (by omega)

/-! ## Bits -/

/-- Bit `q.2` of byte `q.1` -/
def bitAt (m : Bytes) (q : Nat × Nat) : Bool := (m q.1).getLsbD q.2

theorem testBit_loadLE (m : Bytes) (a : Nat) {n i : Nat} (hi : i < 8 * n) :
    (loadLE m a n).testBit i = bitAt m (a + i / 8, i % 8) := by
  induction n generalizing a i with
  | zero => exact absurd hi (by omega)
  | succ n ih =>
      rw [loadLE, Nat.add_comm, show 256 = 2 ^ 8 by norm_num, Nat.testBit_two_pow_mul_add _ (m a).isLt]
      split
      · rename_i hlt
        rw [Nat.div_eq_of_lt hlt, Nat.mod_eq_of_lt hlt]
        rfl
      · rename_i hge
        rw [ih _ (by omega), show a + 1 + (i - 8) / 8 = a + i / 8 by omega, show (i - 8) % 8 = i % 8 by omega]

theorem getLsbD_load32 (m : Bytes) (a : Nat) {i : Nat} (hi : i < 32) :
    (load32 m a).getLsbD i = bitAt m (a + i / 8, i % 8) := by
  rw [load32, BitVec.getLsbD_ofNat, decide_eq_true hi, Bool.true_and, testBit_loadLE m a (by omega)]

theorem bitAt_store32 (m : Bytes) (a : Nat) (v : BitVec 32) {b j : Nat} (hj : j < 8) :
    bitAt (store32 m a v) (b, j) = if a ≤ b ∧ b < a + 4 then v.getLsbD (8 * (b - a) + j) else bitAt m (b, j) := by
  rw [bitAt, store32, storeLE]
  split
  · rw [BitVec.getLsbD_ofNat, decide_eq_true hj, Bool.true_and, show 256 = 2 ^ 8 by norm_num, ← Nat.pow_mul,
      Nat.testBit_div_two_pow, Nat.add_comm]
    rfl
  · rfl

/-- Flipping a bit of a word flips one bit of memory. -/
theorem bitAt_flip32 (m : Bytes) (a : Nat) {i b j : Nat} (hi : i < 32) (hj : j < 8) :
    bitAt (store32 m a (load32 m a ^^^ (1#32 <<< i))) (b, j) =
      (bitAt m (b, j) ^^ decide ((b, j) = (a + i / 8, i % 8))) := by
  rw [bitAt_store32 m a _ hj]
  split
  · have hlt : 8 * (b - a) + j < 32 := by omega
    have hb : a + (8 * (b - a) + j) / 8 = b := by omega
    have hj' : (8 * (b - a) + j) % 8 = j := by omega
    rw [BitVec.getLsbD_xor, getLsbD_load32 m a hlt, getLsbD_one_shiftLeft hlt, hb, hj']
    congr 1
    refine decide_eq_decide.mpr ?_
    rw [Prod.mk.injEq]
    omega
  · rw [decide_eq_false (by rw [Prod.mk.injEq]; omega), Bool.xor_false]

/-! ## Runs of words -/

/-- The words `vs` lie from `a` on. -/
def Words (m : Bytes) (a : Nat) : List (BitVec 64) → Prop
  | [] => True
  | v :: vs => load64 m a = v.toNat ∧ Words m (a + 8) vs

section

variable {m m' : Bytes} {a : Nat} {v : BitVec 64} {vs ws : List (BitVec 64)}

theorem Words.congr (h : Words m a vs) (hm : ∀ b, a ≤ b → b < a + 8 * vs.length → m' b = m b) :
    Words m' a vs := by
  induction vs generalizing a with
  | nil => trivial
  | cons v vs ih =>
      rw [List.length_cons] at hm
      refine ⟨?_, ih h.2 fun b hb hb' => hm b (by omega) (by omega)⟩
      rw [load64_congr fun b hb hb' => hm b hb (by omega)]
      exact h.1

theorem words_cons : Words m a (v :: vs) ↔ load64 m a = v.toNat ∧ Words m (a + 8) vs := Iff.rfl

theorem words_append : Words m a (vs ++ ws) ↔ Words m a vs ∧ Words m (a + 8 * vs.length) ws := by
  induction vs generalizing a with
  | nil => simp [Words]
  | cons v vs ih =>
      rw [List.cons_append, Words, ih, Words, List.length_cons, and_assoc,
        show a + 8 + 8 * vs.length = a + 8 * (vs.length + 1) by omega]

theorem words_store64 (m : Bytes) (a : Nat) (v : BitVec 64) : Words (store64 m a v.toNat) a [v] :=
  ⟨load64_store64 m v.isLt, trivial⟩

theorem Words.set (h : Words m a vs) (i : Nat) (v : BitVec 64) :
    Words (store64 m (a + 8 * i) v.toNat) a (vs.set i v) := by
  induction vs generalizing a i with
  | nil => trivial
  | cons w vs ih =>
      cases i with
      | zero =>
          refine ⟨load64_store64 m v.isLt, h.2.congr fun b hb _ => store64_outside (by omega)⟩
      | succ i =>
          rw [show a + 8 * (i + 1) = a + 8 + 8 * i by omega]
          exact ⟨by rw [load64_store64_ne (by omega)]; exact h.1, ih h.2 i⟩

theorem words_zero {n : Nat} (h : ∀ b, a ≤ b → b < a + 8 * n → m b = 0) :
    Words m a (List.replicate n 0) := by
  induction n generalizing a with
  | zero => trivial
  | succ n ih =>
      exact ⟨loadLE_zero fun b hb hb' => h b hb (by omega), ih fun b hb hb' => h b (by omega) (by omega)⟩

theorem storeLE_zero {n b : Nat} (h : a ≤ b) (h' : b < a + n) : storeLE m a n 0 b = 0 := by
  rw [storeLE, if_pos ⟨h, h'⟩, Nat.zero_div]
  rfl

end

end Lib
end GuideOS
