import Mathlib.Algebra.Group.Nat.Defs
import Mathlib.Data.Nat.Bitwise

/-!
# The page walk

Address translation with four levels of tables, as x86-64 does it.  `read` is the word
at a physical address.  A table of level `n + 1` is indexed by nine bits of the virtual
address from bit `12 + 9 * n` on; an entry of the levels 2 and 3 with the bit `PS` maps
a large page.
-/

namespace GuideOS
namespace Lib

/-- What an address is mapped to. -/
structure Mapping where
  pa : Nat
  size : Nat
  writable : Bool
  user : Bool
deriving DecidableEq, Repr

inductive Translation
  | notPresent
  /-- a reserved bit is set -/
  | reserved
  | page (m : Mapping)
deriving DecidableEq, Repr

/-- The bits 51 to `k` of an entry. -/
def frame (k e : Nat) : Nat := e / 2 ^ k % 2 ^ (52 - k) * 2 ^ k

def tableIndex (n va : Nat) : Nat := va / 2 ^ (12 + 9 * n) % 512

/-- The walk from a table of level `n`; write and user access need every level. -/
def walkTable (read : Nat → Nat) (va : Nat) : Nat → Nat → Bool → Bool → Translation
  | 0, _, _, _ => .notPresent
  | n + 1, table, writable, user =>
      let e := read (table + 8 * tableIndex n va)
      let writable := writable && e.testBit 1
      let user := user && e.testBit 2
      if ¬ e.testBit 0 then .notPresent
      else if n = 0 ∨ e.testBit 7 then
        if 3 ≤ n then .reserved
        else .page ⟨frame (12 + 9 * n) e + va % 2 ^ (12 + 9 * n), 2 ^ (12 + 9 * n), writable, user⟩
      else walkTable read va n (frame 12 e) writable user

def pageWalk (read : Nat → Nat) (cr3 va : Nat) : Translation :=
  walkTable read va 4 (frame 12 cr3) true true

section

variable {read : Nat → Nat} {cr3 va : Nat}

theorem pageWalk_notPresent (h : (read (frame 12 cr3 + 8 * tableIndex 3 va)).testBit 0 = false) :
    pageWalk read cr3 va = .notPresent := by
  rw [pageWalk, walkTable, if_pos (by simp [h])]

/-- A walk that ends at level 3. -/
theorem pageWalk_huge {e e' : Nat} (he : read (frame 12 cr3 + 8 * tableIndex 3 va) = e)
    (he' : read (frame 12 e + 8 * tableIndex 2 va) = e') (hp : e.testBit 0 = true)
    (hps : e.testBit 7 = false) (hp' : e'.testBit 0 = true) (hps' : e'.testBit 7 = true) :
    pageWalk read cr3 va =
      .page ⟨frame 30 e' + va % 2 ^ 30, 2 ^ 30, e.testBit 1 && e'.testBit 1, e.testBit 2 && e'.testBit 2⟩ := by
  rw [pageWalk, walkTable, he, if_neg (by simp [hp]), if_neg (by simp [hps]), walkTable, he',
    if_neg (by simp [hp']), if_pos (Or.inr hps'), if_neg (by decide), Bool.true_and, Bool.true_and]

/-- The flags below an aligned address. -/
theorem testBit_add_flags {k a flags j : Nat} (hflags : flags < 2 ^ k) (hj : j < k) :
    (a * 2 ^ k + flags).testBit j = flags.testBit j := by
  rw [Nat.mul_comm, Nat.testBit_two_pow_mul_add a hflags, if_pos hj]

theorem frame_add_flags {k a flags : Nat} (hflags : flags < 2 ^ k) (ha : a < 2 ^ (52 - k)) :
    frame k (a * 2 ^ k + flags) = a * 2 ^ k := by
  rw [frame, Nat.mul_comm a, Nat.mul_add_div (Nat.two_pow_pos k), Nat.div_eq_of_lt hflags, Nat.add_zero,
    Nat.mod_eq_of_lt ha, Nat.mul_comm]

end

end Lib
end GuideOS
