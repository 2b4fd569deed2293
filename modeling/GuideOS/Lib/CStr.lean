import GuideOS.Lib.Bytes
import Mathlib.Logic.Function.Basic

/-!
# Zero-terminated strings in memory

`CStr m a cs` says that the string `cs` begins at `a` and the terminator lies behind it.
Addresses have 64 bits and wrap.
-/

namespace GuideOS
namespace Lib

def CStr (m : Bytes) (a : Nat) : List (BitVec 8) → Prop
  | [] => m a = 0
  | c :: cs => m a = c ∧ c ≠ 0 ∧ CStr m ((a + 1) % 2 ^ 64) cs

instance decidableCStr (m : Bytes) : (a : Nat) → (cs : List (BitVec 8)) → Decidable (CStr m a cs)
  | a, [] => inferInstanceAs (Decidable (m a = 0))
  | a, c :: cs =>
      let _ : Decidable (CStr m ((a + 1) % 2 ^ 64) cs) := decidableCStr m _ cs
      inferInstanceAs (Decidable (m a = c ∧ c ≠ 0 ∧ CStr m ((a + 1) % 2 ^ 64) cs))

variable {m : Bytes} {a i : Nat} {cs : List (BitVec 8)}

theorem CStr.char_ne_zero (h : CStr m a cs) : ∀ c ∈ cs, c ≠ 0 := by
  induction cs generalizing a with
  | nil => exact fun c hc => absurd hc List.not_mem_nil
  | cons c cs ih => exact List.forall_mem_cons.mpr ⟨h.2.1, ih h.2.2⟩

theorem CStr.char (h : CStr m a cs) (ha : a < 2 ^ 64) (hi : i < cs.length) :
    m ((a + i) % 2 ^ 64) = cs[i] := by
  induction cs generalizing a i with
  | nil => exact absurd hi (Nat.not_lt_zero i)
  | cons c cs ih =>
      cases i with
      | zero =>
          rw [Nat.add_zero, Nat.mod_eq_of_lt ha]
          exact h.1
      | succ i =>
          have hnext := ih h.2.2 (Nat.mod_lt _ (Nat.two_pow_pos 64)) (Nat.lt_of_succ_lt_succ hi)
          rwa [show ((a + 1) % 2 ^ 64 + i) % 2 ^ 64 = (a + (i + 1)) % 2 ^ 64 by omega] at hnext

theorem CStr.drop (h : CStr m a cs) (ha : a < 2 ^ 64) (hi : i ≤ cs.length) :
    CStr m ((a + i) % 2 ^ 64) (cs.drop i) := by
  induction cs generalizing a i with
  | nil =>
      rw [Nat.le_zero.mp hi, Nat.add_zero, Nat.mod_eq_of_lt ha]
      exact h
  | cons c cs ih =>
      cases i with
      | zero =>
          rw [Nat.add_zero, Nat.mod_eq_of_lt ha]
          exact h
      | succ i =>
          have hnext := ih h.2.2 (Nat.mod_lt _ (Nat.two_pow_pos 64)) (Nat.le_of_succ_le_succ hi)
          rwa [show ((a + 1) % 2 ^ 64 + i) % 2 ^ 64 = (a + (i + 1)) % 2 ^ 64 by omega] at hnext

/-- From one place in a string to a later one. -/
theorem CStr.later {k j : Nat} (h : CStr m ((a + k) % 2 ^ 64) (cs.drop k)) (hkj : k ≤ j) (hj : j ≤ cs.length) :
    CStr m ((a + j) % 2 ^ 64) (cs.drop j) := by
  have hlen : j - k ≤ (cs.drop k).length := by
    rw [List.length_drop]
    exact Nat.sub_le_sub_right hj k
  have hrest := h.drop (Nat.mod_lt _ (Nat.two_pow_pos 64)) hlen
  rwa [List.drop_drop, Nat.add_sub_cancel' hkj, Nat.mod_add_mod, Nat.add_assoc, Nat.add_sub_cancel' hkj] at hrest

theorem CStr.nul (h : CStr m a cs) (ha : a < 2 ^ 64) : m ((a + cs.length) % 2 ^ 64) = 0 := by
  have hend := h.drop ha (Nat.le_refl _)
  rwa [List.drop_length] at hend

/-- A string does not come round to its own beginning. -/
theorem CStr.length_lt (h : CStr m a cs) (ha : a < 2 ^ 64) : cs.length < 2 ^ 64 := by
  by_contra hlong
  have hi : cs.length - 2 ^ 64 < cs.length := by omega
  have hchar := h.char ha hi
  rw [show (a + (cs.length - 2 ^ 64)) % 2 ^ 64 = (a + cs.length) % 2 ^ 64 by omega, h.nul ha] at hchar
  exact h.char_ne_zero _ (List.getElem_mem hi) hchar.symm

theorem CStr.congr {m' : Bytes} (h : CStr m a cs) (ha : a < 2 ^ 64)
    (hm : ∀ i ≤ cs.length, m' ((a + i) % 2 ^ 64) = m ((a + i) % 2 ^ 64)) : CStr m' a cs := by
  have hfirst := hm 0 (Nat.zero_le _)
  rw [Nat.add_zero, Nat.mod_eq_of_lt ha] at hfirst
  induction cs generalizing a with
  | nil => exact hfirst.trans h
  | cons c cs ih =>
      have hnext : ∀ i ≤ cs.length, m' (((a + 1) % 2 ^ 64 + i) % 2 ^ 64) = m (((a + 1) % 2 ^ 64 + i) % 2 ^ 64) := by
        intro i hi
        rw [show ((a + 1) % 2 ^ 64 + i) % 2 ^ 64 = (a + (i + 1)) % 2 ^ 64 by omega]
        exact hm (i + 1) (Nat.succ_le_succ hi)
      have hsecond := hnext 0 (Nat.zero_le _)
      rw [Nat.add_zero, Nat.mod_mod] at hsecond
      exact ⟨hfirst.trans h.1, h.2.1, ih h.2.2 (Nat.mod_lt _ (Nat.two_pow_pos 64)) hnext hsecond⟩

/-- A string is its characters and its terminator. -/
theorem cstr_of_char (ha : a < 2 ^ 64) (hne : ∀ c ∈ cs, c ≠ 0)
    (hchar : ∀ (i) (hi : i < cs.length), m ((a + i) % 2 ^ 64) = cs[i])
    (hnul : m ((a + cs.length) % 2 ^ 64) = 0) : CStr m a cs := by
  induction cs generalizing a with
  | nil =>
      rw [List.length_nil, Nat.add_zero, Nat.mod_eq_of_lt ha] at hnul
      exact hnul
  | cons c cs ih =>
      obtain ⟨hc, hcs⟩ := List.forall_mem_cons.mp hne
      have hfirst := hchar 0 (Nat.succ_pos _)
      rw [Nat.add_zero, Nat.mod_eq_of_lt ha] at hfirst
      refine ⟨hfirst, hc, ih (Nat.mod_lt _ (Nat.two_pow_pos 64)) hcs (fun i hi => ?_) ?_⟩
      · have hnext := hchar (i + 1) (Nat.succ_lt_succ hi)
        rwa [show (a + (i + 1)) % 2 ^ 64 = ((a + 1) % 2 ^ 64 + i) % 2 ^ 64 by omega] at hnext
      · rw [List.length_cons] at hnul
        rwa [show (a + (cs.length + 1)) % 2 ^ 64 = ((a + 1) % 2 ^ 64 + cs.length) % 2 ^ 64 by omega] at hnul

/-- A zero that is stored outside the characters leaves the string alone. -/
theorem CStr.store_zero {x : Nat} (h : CStr m a cs) (ha : a < 2 ^ 64)
    (hout : ∀ i < cs.length, (a + i) % 2 ^ 64 ≠ x) : CStr (Function.update m x 0) a cs := by
  refine h.congr ha fun i hi => ?_
  by_cases hx : (a + i) % 2 ^ 64 = x
  · have hend : i = cs.length := Nat.le_antisymm hi (Nat.le_of_not_lt fun hlt => hout i hlt hx)
    rw [← hx, Function.update_self, hend, h.nul ha]
  · exact Function.update_of_ne hx ..

/-- A zero that is stored over a character ends the string there. -/
theorem CStr.cut {k : Nat} (h : CStr m a cs) (ha : a < 2 ^ 64) (hk : k ≤ cs.length) :
    CStr (Function.update m ((a + k) % 2 ^ 64) 0) a (cs.take k) := by
  have hlen := h.length_lt ha
  have htake : (cs.take k).length = k := List.length_take_of_le hk
  refine cstr_of_char ha (fun c hc => h.char_ne_zero c (List.mem_of_mem_take hc)) (fun i hi => ?_) ?_
  · rw [htake] at hi
    rw [Function.update_of_ne (by omega), h.char ha (by omega), List.getElem_take]
  · rw [htake]
    exact Function.update_self ..

end Lib
end GuideOS
