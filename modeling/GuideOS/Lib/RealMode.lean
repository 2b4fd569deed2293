import GuideOS.Lib.Bytes
import Mathlib.Logic.Function.Basic

/-!
# Code of 16 bits

A part of the instruction set of the 8086 family as 16-bit code uses it: 32-bit
registers, a 16-bit stack pointer, the flags `CF` and `ZF`, and a stack frame whose slots
lie below `bp`.  `mem` is the stack segment.
-/

namespace GuideOS
namespace Lib
namespace Real

inductive Reg
  | eax | ebx | ecx | edx | esi | ebp
deriving DecidableEq, Repr

structure Cpu where
  reg : Reg → BitVec 32
  sp : BitVec 16
  ip : BitVec 16
  cf : Bool
  zf : Bool
  mem : Bytes

/-- `slot` operands are the double words at `[bp - d]`. -/
inductive Insn
  | push (r : Reg)
  | pop (r : Reg)
  | movBpSp
  | addSp (n : BitVec 16)
  | mov (dst src : Reg)
  | movImm (dst : Reg) (v : BitVec 32)
  /-- `mov` to the low word of a register -/
  | movLow (dst : Reg) (v : BitVec 16)
  | movAh (v : BitVec 8)
  | loadSlot (dst : Reg) (d : BitVec 16)
  | storeSlot (d : BitVec 16) (v : BitVec 32)
  | addSlot (d : BitVec 16) (src : Reg)
  | subSlot (d : BitVec 16) (v : BitVec 32)
  | test (a b : Reg)
  | testImm (a : Reg) (v : BitVec 32)
  | xor (dst src : Reg)
  | shl (dst : Reg) (k : Nat)
  | shr (dst : Reg) (k : Nat)
  | ret
deriving DecidableEq, Repr

namespace Cpu

def setReg (s : Cpu) (r : Reg) (v : BitVec 32) : Cpu := { s with reg := Function.update s.reg r v }

def setFlags (s : Cpu) (cf : Bool) (v : BitVec 32) : Cpu := { s with cf := cf, zf := v == 0 }

def bp (s : Cpu) : BitVec 16 := (s.reg .ebp).setWidth 16

/-- The double word at `[bp - d]`. -/
def slot (s : Cpu) (d : BitVec 16) : BitVec 32 := load32 s.mem (s.bp - d).toNat

def setSlot (s : Cpu) (d : BitVec 16) (v : BitVec 32) : Cpu :=
  { s with mem := store32 s.mem (s.bp - d).toNat v }

def setLow (s : Cpu) (r : Reg) (v : BitVec 16) : Cpu :=
  s.setReg r ((s.reg r).extractLsb' 16 16 ++ v)

def setAh (s : Cpu) (v : BitVec 8) : Cpu :=
  s.setReg .eax ((s.reg .eax).extractLsb' 16 16 ++ v ++ (s.reg .eax).extractLsb' 0 8)

def exec (s : Cpu) : Insn → Cpu
  | .push r => { s with sp := s.sp - 4, mem := store32 s.mem (s.sp - 4).toNat (s.reg r) }
  | .pop r => { s with sp := s.sp + 4 }.setReg r (load32 s.mem s.sp.toNat)
  | .movBpSp => s.setLow .ebp s.sp
  | .addSp n => { s with sp := s.sp + n, cf := decide (2 ^ 16 ≤ s.sp.toNat + n.toNat), zf := s.sp + n == 0 }
  | .mov dst src => s.setReg dst (s.reg src)
  | .movImm dst v => s.setReg dst v
  | .movLow dst v => s.setLow dst v
  | .movAh v => s.setAh v
  | .loadSlot dst d => s.setReg dst (s.slot d)
  | .storeSlot d v => s.setSlot d v
  | .addSlot d src =>
      (s.setSlot d (s.slot d + s.reg src)).setFlags
        (decide (2 ^ 32 ≤ (s.slot d).toNat + (s.reg src).toNat)) (s.slot d + s.reg src)
  | .subSlot d v => (s.setSlot d (s.slot d - v)).setFlags (decide (s.slot d < v)) (s.slot d - v)
  | .test a b => s.setFlags false (s.reg a &&& s.reg b)
  | .testImm a v => s.setFlags false (s.reg a &&& v)
  | .xor dst src => (s.setReg dst (s.reg dst ^^^ s.reg src)).setFlags false (s.reg dst ^^^ s.reg src)
  | .shl dst k => (s.setReg dst (s.reg dst <<< k)).setFlags ((s.reg dst).getLsbD (32 - k)) (s.reg dst <<< k)
  | .shr dst k => (s.setReg dst (s.reg dst >>> k)).setFlags ((s.reg dst).getLsbD (k - 1)) (s.reg dst >>> k)
  | .ret => { s with sp := s.sp + 2, ip := BitVec.ofNat 16 (loadLE s.mem s.sp.toNat 2) }

def run (s : Cpu) (code : List Insn) : Cpu := code.foldl exec s

variable {s : Cpu} {r r' : Reg} {v : BitVec 32} {d d' : BitVec 16}

@[simp] theorem reg_setReg_self (s : Cpu) (r : Reg) (v : BitVec 32) : (s.setReg r v).reg r = v :=
  Function.update_self ..

theorem reg_setReg_of_ne (h : r' ≠ r) : (s.setReg r v).reg r' = s.reg r' := Function.update_of_ne h ..

theorem bp_setReg (h : r ≠ .ebp) : (s.setReg r v).bp = s.bp := by
  rw [bp, reg_setReg_of_ne h.symm, bp]

theorem slot_setReg (h : r ≠ .ebp) : (s.setReg r v).slot d = s.slot d := by
  rw [slot, bp_setReg h]
  rfl

theorem append_setWidth (a w : BitVec 16) : (a ++ w).setWidth 16 = w := by
  refine BitVec.eq_of_getLsbD_eq fun i hi => ?_
  rw [BitVec.getLsbD_setWidth, BitVec.getLsbD_append, if_pos hi, decide_eq_true hi, Bool.true_and]

theorem bp_setLow_ebp (s : Cpu) (w : BitVec 16) : (s.setLow .ebp w).bp = w := by
  rw [bp, setLow, reg_setReg_self, append_setWidth]

@[simp] theorem slot_setSlot_self (s : Cpu) (d : BitVec 16) (v : BitVec 32) : (s.setSlot d v).slot d = v :=
  load32_store32 ..

theorem slot_setSlot_of_ne (hd : d.toNat ≤ s.bp.toNat) (hd' : d'.toNat ≤ s.bp.toNat)
    (h : d.toNat + 4 ≤ d'.toNat ∨ d'.toNat + 4 ≤ d.toNat) : (s.setSlot d v).slot d' = s.slot d' := by
  refine load32_store32_ne ?_
  rw [show (s.setSlot d v).bp = s.bp from rfl, BitVec.toNat_sub_of_le hd, BitVec.toNat_sub_of_le hd']
  omega

end Cpu

end Real
end Lib
end GuideOS
