import Mathlib.Algebra.Group.Nat.Defs
import Mathlib.Data.Nat.Init

/-!
# Per-CPU state

The part of `struct cpu` that locking and scheduling use, with the interrupt
flag of the CPU, and `push_int_disable`, `pop_int_disable` and `curproc` of
`cpu.c`.
-/

namespace GuideOS
namespace Sched

/-- A process: an entry of `idle_proc`, or one made by `proc_alloc`. -/
inductive ProcId
  | idle (cpu : Nat)
  | user (n : Nat)
deriving DecidableEq, Repr

/-- A thread of control: what runs on the boot stack of a CPU, which becomes its
scheduler, or on the kernel stack of a process. -/
inductive ThreadId
  | cpu (c : Nat)
  | proc (p : ProcId)
deriving DecidableEq, Repr

/-- The `panic` calls, and the page fault of a null `curproc()`. -/
inductive Panic
  | acquire
  | release
  | curCpuWithIf
  | schedAddNotReady
  | noCurproc
  | switchOutLock
  | switchOutLockCount
  | switchingOutRunning
  | schedSleep
  | uartBufferFull
  | nullProc
deriving DecidableEq, Repr

structure Cpu where
  /-- `c->proc`, with `none` for null -/
  proc : Option ProcId
  intDisableLayer : BitVec 32
  intEnabled : Bool
  /-- `RFLAGS.IF` -/
  intFlag : Bool
  /-- The thread the CPU executes. -/
  running : ThreadId
  panicked : Option Panic
deriving DecidableEq

theorem toNat_succ {x : BitVec 32} (h : x.toNat + 1 < 2 ^ 32) : (x + 1).toNat = x.toNat + 1 := by
  rw [BitVec.toNat_add]
  exact Nat.mod_eq_of_lt h

theorem toNat_pred {x : BitVec 32} (h : x ≠ 0) : (x - 1).toNat = x.toNat - 1 := by
  have hpos : x.toNat ≠ 0 := fun e => h (BitVec.eq_of_toNat_eq e)
  have hlt := x.isLt
  rw [BitVec.toNat_sub]
  show (2 ^ 32 - 1 + x.toNat) % 2 ^ 32 = x.toNat - 1
  omega

namespace Cpu

def pushIntDisable (x : Cpu) : Cpu :=
  { x with
    intFlag := false
    intEnabled := if x.intDisableLayer = 0 then x.intFlag else x.intEnabled
    intDisableLayer := x.intDisableLayer + 1 }

/-- `pop_int_disable` after `cur_cpu` has returned.  The test for a negative
layer never succeeds on a `u32`. -/
def popLayer (x : Cpu) : Cpu :=
  { x with
    intDisableLayer := x.intDisableLayer - 1
    intFlag := if x.intDisableLayer - 1 = 0 ∧ x.intEnabled = true then true else x.intFlag }

/-- `none` is the panic of `cur_cpu` when interrupts are on. -/
def popIntDisable (x : Cpu) : Option Cpu := if x.intFlag then none else some x.popLayer

/-- What `curproc` and `holding` leave behind: a push and a pop. -/
def curproc (x : Cpu) : Cpu := x.pushIntDisable.popLayer

@[simp] theorem push_proc (x : Cpu) : x.pushIntDisable.proc = x.proc := rfl

@[simp] theorem push_running (x : Cpu) : x.pushIntDisable.running = x.running := rfl

@[simp] theorem push_panicked (x : Cpu) : x.pushIntDisable.panicked = x.panicked := rfl

@[simp] theorem push_intFlag (x : Cpu) : x.pushIntDisable.intFlag = false := rfl

@[simp] theorem pop_proc (x : Cpu) : x.popLayer.proc = x.proc := rfl

@[simp] theorem pop_running (x : Cpu) : x.popLayer.running = x.running := rfl

@[simp] theorem pop_panicked (x : Cpu) : x.popLayer.panicked = x.panicked := rfl

@[simp] theorem curproc_proc (x : Cpu) : x.curproc.proc = x.proc := rfl

@[simp] theorem curproc_running (x : Cpu) : x.curproc.running = x.running := rfl

@[simp] theorem curproc_panicked (x : Cpu) : x.curproc.panicked = x.panicked := rfl

/-- A push and a pop leave the layer as it was. -/
theorem curproc_layer (x : Cpu) : x.curproc.intDisableLayer = x.intDisableLayer :=
  BitVec.add_sub_cancel x.intDisableLayer 1

/-- With interrupts off whenever the layer is not zero, `curproc` keeps the
interrupt flag. -/
theorem curproc_intFlag {x : Cpu} (hoff : x.intDisableLayer ≠ 0 → x.intFlag = false) :
    x.curproc.intFlag = x.intFlag := by
  have hlayer : x.pushIntDisable.intDisableLayer - 1 = x.intDisableLayer := curproc_layer x
  rw [curproc, popLayer, hlayer]
  by_cases h0 : x.intDisableLayer = 0
  · cases hf : x.intFlag <;> simp [h0, hf, pushIntDisable]
  · rw [if_neg fun h => h0 h.1, push_intFlag, hoff h0]

theorem curproc_intEnabled {x : Cpu} (h : x.intDisableLayer ≠ 0) :
    x.curproc.intEnabled = x.intEnabled := by
  show (if x.intDisableLayer = 0 then x.intFlag else x.intEnabled) = x.intEnabled
  rw [if_neg h]

end Cpu

end Sched
end GuideOS
