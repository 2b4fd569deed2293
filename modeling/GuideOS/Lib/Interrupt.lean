import GuideOS.Lib.X86
import GuideOS.Lib.Word

/-!
# Interrupts

How an x86-64 processor delivers an interrupt at the same privilege level, without an
interrupt stack: it reads a gate of the descriptor table, aligns the stack pointer,
pushes the five words that `iretq` loads and, at some vectors, an error code.
-/

namespace GuideOS
namespace Lib

/-- A gate of the interrupt descriptor table, as the processor reads it. -/
structure Gate where
  offset : BitVec 64
  selector : BitVec 16
  ist : Nat
  type : Nat
  dpl : Nat
  present : Bool
deriving DecidableEq

/-- The sixteen bytes at `a`. -/
def gateAt (m : Bytes) (a : Nat) : Gate where
  offset := BitVec.ofNat 64 (loadLE m a 2 + 2 ^ 16 * loadLE m (a + 6) 2 + 2 ^ 32 * loadLE m (a + 8) 4)
  selector := BitVec.ofNat 16 (loadLE m (a + 2) 2)
  ist := (m (a + 4)).toNat % 8
  type := (m (a + 5)).toNat % 16
  dpl := (m (a + 5)).toNat / 32 % 4
  present := decide ((m (a + 5)).toNat / 128 = 1)

theorem gateAt_congr {m m' : Bytes} {a : Nat} (h : ∀ b, a ≤ b → b < a + 16 → m' b = m b) :
    gateAt m' a = gateAt m a := by
  rw [gateAt, gateAt, loadLE_congr fun b hb hb' => h b hb (by omega),
    loadLE_congr fun b hb hb' => h b (show a ≤ b by omega) (show b < a + 16 by omega),
    loadLE_congr fun b hb hb' => h b (show a ≤ b by omega) (show b < a + 16 by omega),
    loadLE_congr fun b hb hb' => h b (show a ≤ b by omega) (show b < a + 16 by omega),
    h (a + 4) (by omega) (by omega), h (a + 5) (by omega) (by omega)]

/-- The vectors at which the processor pushes an error code. -/
def errorCodeVectors : List Nat := [8, 10, 11, 12, 13, 14, 17]

/-- `TF`, `NT`, `RF` and `VM` are cleared, and `IF` through an interrupt gate. -/
def Gate.maskFlags (g : Gate) (flags : BitVec 64) : BitVec 64 :=
  flags &&& ~~~(if g.type = 0xE then 0x34300#64 else 0x34100#64)

namespace Machine

def pushWords (s : Machine) (vs : List (BitVec 64)) : Machine := vs.foldl pushWord s

/-- The processor goes through gate `g`. -/
def deliver (s : Machine) (g : Gate) (err : Option (BitVec 64)) : Machine :=
  let t : Machine := { s.setReg .rsp (s.reg .rsp &&& ~~~15#64) with
    rip := g.offset, cs := g.selector, flags := g.maskFlags s.flags }
  t.pushWords ([s.ss.setWidth 64, s.reg .rsp, s.flags, s.cs.setWidth 64, s.rip] ++ err.toList)

section

variable {s t u : Machine} {vs ws : List (BitVec 64)}

theorem Pushed.refl (s : Machine) : Pushed s [] s :=
  ⟨rfl, fun _ _ => rfl, rfl, trivial, fun _ _ => rfl⟩

theorem pushWords_pushed (vs : List (BitVec 64)) (h : 8 * vs.length ≤ (s.reg .rsp).toNat) :
    Pushed s vs (s.pushWords vs) := by
  induction vs generalizing s with
  | nil => exact Pushed.refl s
  | cons v vs ih =>
      rw [List.length_cons] at h
      have hfirst := pushWord_pushed v (s := s) (by omega)
      have hsp := hfirst.rsp
      rw [List.length_singleton] at hsp
      exact hfirst.trans (ih (by omega))

/-- Pushed registers are the words that they hold. -/
theorem run_pushes_eq (rs : List Reg) (hrs : .rsp ∉ rs) : s.run (rs.map .push) = s.pushWords (rs.map s.reg) := by
  induction rs generalizing s with
  | nil => rfl
  | cons r rs ih =>
      have hsame : rs.map (s.pushWord (s.reg r)).reg = rs.map s.reg :=
        List.map_congr_left fun q hq => reg_setReg_of_ne s _ fun e => hrs (e ▸ List.mem_cons_of_mem r hq)
      have hrest := ih (s := s.pushWord (s.reg r)) fun hmem => hrs (List.mem_cons_of_mem r hmem)
      rw [hsame] at hrest
      exact hrest

theorem pushWords_append (s : Machine) (vs ws : List (BitVec 64)) :
    s.pushWords (vs ++ ws) = (s.pushWords vs).pushWords ws := List.foldl_append

theorem cs_pushWords (s : Machine) (vs : List (BitVec 64)) : (s.pushWords vs).cs = s.cs := by
  induction vs generalizing s with
  | nil => rfl
  | cons v vs ih => exact ih (s.pushWord v)

theorem ss_pushWords (s : Machine) (vs : List (BitVec 64)) : (s.pushWords vs).ss = s.ss := by
  induction vs generalizing s with
  | nil => rfl
  | cons v vs ih => exact ih (s.pushWord v)

theorem flags_pushWords (s : Machine) (vs : List (BitVec 64)) : (s.pushWords vs).flags = s.flags := by
  induction vs generalizing s with
  | nil => rfl
  | cons v vs ih => exact ih (s.pushWord v)

theorem toNat_align (v : BitVec 64) : (v &&& ~~~15#64).toNat = v.toNat / 16 * 16 := by
  have hv := v.isLt
  have hmask : (~~~15#64).toNat = not64 (2 ^ 4 - 1) := by decide
  rw [BitVec.toNat_and, hmask]
  exact and_not64 hv 4 (by decide)

end

end Machine
end Lib
end GuideOS
