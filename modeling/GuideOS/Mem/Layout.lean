import GuideOS.Lib.Word
import Mathlib.Tactic.NormNum

/-!
# Memory layout

The address macros of `mem/memlayout.h`.  Addresses are 64-bit words held as
`Nat`; the translations between a physical address and its kernel virtual
address wrap at `2 ^ 64` as the casts to `size_t` do.
-/

namespace GuideOS

open Lib

/-- `KERNBASE` -/
def kernBase : Nat := 0xFFFF800000000000

/-- `PG_SIZE` -/
def pgSize : Nat := 4096

/-- `KV2P(VA)` -/
def kv2p (va : Nat) : Nat := (va + (2 ^ 64 - kernBase)) % 2 ^ 64

/-- `P2KV(PA)` -/
def p2kv (pa : Nat) : Nat := (pa + kernBase) % 2 ^ 64

/-- `PGROUNDUP(sz)` -/
def pgRoundUp (sz : Nat) : Nat := (sz + pgSize - 1) % 2 ^ 64 &&& not64 (pgSize - 1)

/-- `PGROUNDDOWN(a)` -/
def pgRoundDown (a : Nat) : Nat := a &&& not64 (pgSize - 1)

/-- `PG_INDEX(ADDR)` -/
def pgIndex (addr : Nat) : Nat := addr / pgSize

theorem pgSize_eq : pgSize = 2 ^ 12 := rfl

theorem kernBase_lt : kernBase < 2 ^ 64 := by decide

theorem pgRoundDown_eq {a : Nat} (ha : a < 2 ^ 64) : pgRoundDown a = a / pgSize * pgSize :=
  and_not64 ha 12 (by omega)

theorem pgRoundUp_eq (sz : Nat) :
    pgRoundUp sz = (sz + pgSize - 1) % 2 ^ 64 / pgSize * pgSize :=
  and_not64 (Nat.mod_lt _ (Nat.two_pow_pos 64)) 12 (by omega)

/-! ## Pages of the physical map

`pageVa i` is the kernel virtual address of physical page `i`.  Below a memory
limit that keeps the physical map inside the address space it does not wrap, is
never null and determines the page. -/

/-- `P2KV(i * PG_SIZE)` -/
def pageVa (i : Nat) : Nat := p2kv (i * pgSize)

section

variable {limit : Nat} (hfit : kernBase + limit ≤ 2 ^ 64)

include hfit

theorem pageVa_eq {i : Nat} (hi : (i + 1) * pgSize ≤ limit) : pageVa i = kernBase + i * pgSize := by
  have hsucc : (i + 1) * pgSize = i * pgSize + pgSize := Nat.succ_mul i pgSize
  have hpos : 0 < pgSize := by decide
  rw [pageVa, p2kv, Nat.mod_eq_of_lt (by omega), Nat.add_comm]

theorem pageVa_ne_zero {i : Nat} (hi : (i + 1) * pgSize ≤ limit) : pageVa i ≠ 0 := by
  rw [pageVa_eq hfit hi]
  have : 0 < kernBase := by decide
  omega

theorem pageVa_inj {i j : Nat} (hi : (i + 1) * pgSize ≤ limit) (hj : (j + 1) * pgSize ≤ limit)
    (h : pageVa i = pageVa j) : i = j := by
  rw [pageVa_eq hfit hi, pageVa_eq hfit hj] at h
  exact Nat.eq_of_mul_eq_mul_right (show 0 < pgSize by decide) (Nat.add_left_cancel h)

/-- The physical address of a page is read back from its kernel address. -/
theorem kv2p_pageVa {i : Nat} (hi : (i + 1) * pgSize ≤ limit) : kv2p (pageVa i) = i * pgSize := by
  have hva := pageVa_eq hfit hi
  have hsucc : (i + 1) * pgSize = i * pgSize + pgSize := Nat.succ_mul i pgSize
  have hpos : 0 < pgSize := by decide
  have hbase := kernBase_lt
  rw [kv2p, hva, show kernBase + i * pgSize + (2 ^ 64 - kernBase) = i * pgSize + 2 ^ 64 by omega,
    Nat.add_mod_right, Nat.mod_eq_of_lt (by omega)]

theorem pgIndex_kv2p_pageVa {i : Nat} (hi : (i + 1) * pgSize ≤ limit) :
    pgIndex (kv2p (pageVa i)) = i := by
  rw [kv2p_pageVa hfit hi, pgIndex, Nat.mul_div_cancel i (show 0 < pgSize by decide)]

/-- Stepping `k` pages forward in virtual addresses steps `k` page indices. -/
theorem pgIndex_kv2p_add {i k : Nat} (hik : (i + k + 1) * pgSize ≤ limit) :
    pgIndex (kv2p ((pageVa i + pgSize * k) % 2 ^ 64)) = i + k := by
  have hi : (i + 1) * pgSize ≤ limit :=
    Nat.le_trans (Nat.mul_le_mul_right pgSize (by omega)) hik
  have hadd : (i + k + 1) * pgSize = i * pgSize + pgSize * k + pgSize := by
    rw [Nat.succ_mul, Nat.add_mul, Nat.mul_comm k]
  have hpos : 0 < pgSize := by decide
  have hva : (pageVa i + pgSize * k) % 2 ^ 64 = pageVa (i + k) := by
    rw [pageVa_eq hfit hi, pageVa_eq hfit hik, Nat.mod_eq_of_lt (by omega), Nat.add_mul,
      Nat.mul_comm k, Nat.add_assoc]
  rw [hva, pgIndex_kv2p_pageVa hfit hik]

end

end GuideOS
