import GuideOS.Lib.Interrupt
import GuideOS.Proc.Ctxsw.Run

/-!
# Traps

`interrupt_init` of `arch/x86/interrupt.c`, the stubs of `arch/x86/asm/vector.s`,
`trap_enter_all` and `return_from_isr` of `arch/x86/asm/trap.s`, and `handle_syscall`.

The system of context switches gets interrupts: at any moment one can hit the thread of
a CPU, in a handler too, and a handler can switch to other threads before it returns.
A handler is C code.  It keeps the calling convention: the frame of its caller is left
alone, and it returns with the stack pointer it was called with.
-/

namespace GuideOS
namespace Trap

open Lib Ctxsw

/-! ## The descriptor table -/

/-- `VECTOR_SYSCALL` -/
def vectorSyscall : Nat := 0x80

/-- `IDT_GATE_FLAGS_INT` -/
def idtGateFlagsInt : BitVec 8 := 0xE

/-- `IDT_GATE_FLAGS_TRAP` -/
def idtGateFlagsTrap : BitVec 8 := 0xF

/-- `IDT_GATE_FLAGS_DPL_USER` -/
def idtGateFlagsDplUser : BitVec 8 := 0x3 <<< 5

/-- `IDT_GATE_FLAGS_DPL_KRNL` -/
def idtGateFlagsDplKrnl : BitVec 8 := 0x0 <<< 5

/-- `IDT_GATE_FLAGS_P` -/
def idtGateFlagsP : BitVec 8 := 0x80

structure InterruptGate64 where
  offset1 : BitVec 16
  selector : BitVec 16
  ist : BitVec 8
  typeAttributes : BitVec 8
  offset2 : BitVec 16
  offset3 : BitVec 32
  zero : BitVec 32

def mkIdtEntry (handlerFn : BitVec 64) (ist typeAttr cs : BitVec 8) : InterruptGate64 where
  offset1 := (handlerFn &&& 0xFFFF).setWidth 16
  offset2 := ((handlerFn >>> 16) &&& 0xFFFF).setWidth 16
  offset3 := ((handlerFn >>> 32) &&& 0xFFFFFFFF).setWidth 32
  ist := ist &&& 0x7
  typeAttributes := typeAttr
  selector := cs.setWidth 16
  zero := 0

/-- The packed entry is written to `a`. -/
def InterruptGate64.store (g : InterruptGate64) (m : Bytes) (a : Nat) : Bytes :=
  let m := storeLE m a 2 g.offset1.toNat
  let m := storeLE m (a + 2) 2 g.selector.toNat
  let m := storeLE m (a + 4) 1 g.ist.toNat
  let m := storeLE m (a + 5) 1 g.typeAttributes.toNat
  let m := storeLE m (a + 6) 2 g.offset2.toNat
  let m := storeLE m (a + 8) 4 g.offset3.toNat
  storeLE m (a + 12) 4 g.zero.toNat

/-- `sizeof(idt)` -/
def idtSize : Nat := 16 * 256

/-- `interrupt_init`, with `idt` at the address of that name. -/
def interruptInit (vectors : Nat → BitVec 64) (m : Bytes) (idt : Nat) : Bytes :=
  let m := storeLE m idt idtSize 0
  let m := (List.range 256).foldl (fun m i =>
    (mkIdtEntry (vectors i) 0 (idtGateFlagsP ||| idtGateFlagsDplKrnl ||| idtGateFlagsInt)
      (BitVec.ofNat 8 (gdtKernelCode * 8))).store m (idt + 16 * i)) m
  (mkIdtEntry (vectors vectorSyscall) 0 (idtGateFlagsP ||| idtGateFlagsDplUser ||| idtGateFlagsTrap)
    (BitVec.ofNat 8 (gdtKernelCode * 8))).store m (idt + 16 * vectorSyscall)

/-! ## Entry and return -/

/-- What `vector_i` pushes before it jumps to `trap_enter_all`. -/
def vector (i : Nat) : List (BitVec 64) :=
  (if i ∈ [8, 10, 11, 12, 13, 14, 17] then [] else [0]) ++ [BitVec.ofNat 64 i]

/-- Up to `call handle_interrupt`. -/
def trapEnterAll : List Insn :=
  [.push .r15, .push .r14, .push .r13, .push .r12, .push .r11, .push .r10, .push .r9, .push .r8,
    .push .rbp, .push .rdi, .push .rsi, .push .rbx, .push .rdx, .push .rcx, .push .rax,
    .mov .rdi .rsp]

/-- Addresses of code. -/
structure Symbols extends Ctxsw.Symbols where
  handleInterrupt : BitVec 64
  vectors : Nat → BitVec 64

/-- From an interrupt to the first instruction of `handle_interrupt`. -/
def enter (sym : Symbols) (s : Machine) (g : Gate) (i : Nat) (err : Option (BitVec 64)) : Machine :=
  let t := ((s.deliver g err).pushWords (vector i)).run trapEnterAll
  { Machine.exec { t with rip := sym.returnFromIsr } .call with rip := sym.handleInterrupt }

/-- `handle_interrupt` returns. -/
def leave (s : Machine) : Machine := (s.exec .ret).run returnFromIsr

/-- `SYS_YIELD` -/
def sysYield : Nat := 0x01

/-- `SYS_CON_READ` -/
def sysConRead : Nat := 0x10

/-- What `handle_syscall(tf)` writes. -/
def handleSyscall (m : Bytes) (tf : Nat) : Bytes :=
  let syscallno := load64 m (tf + offsetOf trapframe .rax)
  if syscallno = sysYield ∨ syscallno = sysConRead then store64 m (tf + offsetOf trapframe .rax) 0 else m

/-- The field of a trap frame that thread state `k` makes. -/
def tfValue (k : Core) (trapNo : Nat) (errorCode : BitVec 64) : TfField → BitVec 64
  | .rax => k.reg .rax
  | .rcx => k.reg .rcx
  | .rdx => k.reg .rdx
  | .rbx => k.reg .rbx
  | .rsi => k.reg .rsi
  | .rdi => k.reg .rdi
  | .rbp => k.reg .rbp
  | .r8 => k.reg .r8
  | .r9 => k.reg .r9
  | .r10 => k.reg .r10
  | .r11 => k.reg .r11
  | .r12 => k.reg .r12
  | .r13 => k.reg .r13
  | .r14 => k.reg .r14
  | .r15 => k.reg .r15
  | .trapNo => BitVec.ofNat 64 trapNo
  | .errorCode => errorCode
  | .rip => k.rip
  | .cs => k.cs.setWidth 64
  | .flags => k.flags
  | .rsp => k.reg .rsp
  | .ss => k.ss.setWidth 64

/-! ## The system -/

structure Layout (C P : Type) extends Ctxsw.Layout C P where
  idt : Nat
  idt_stack : ∀ t, idt + idtSize ≤ base t ∨ top t ≤ idt
  idt_slot : ∀ t, idt + idtSize ≤ slot t ∨ slot t + 8 ≤ idt

/-- An interrupt that a thread handles: the argument of `handle_interrupt`, and with what
registers and on what memory the thread goes on.  `handle_syscall` is to be called as long as
the interrupt is `pending`. -/
structure Frame where
  tf : Nat
  trapNo : Nat
  errorCode : BitVec 64
  core : Core
  mem : Bytes
  pending : Bool

def Frame.setRax (F : Frame) (v : BitVec 64) : Frame :=
  { F with core := { F.core with reg := Function.update F.core.reg .rax v }, pending := false }

/-- `frames` lists the interrupts of each thread, the last one first. -/
structure System (C P : Type) extends Ctxsw.System C P where
  frames : Thread C P → List Frame

inductive Event (C P : Type)
  | thread (e : Ctxsw.Event C P)
  | interrupt (c : C) (i : Fin 256) (err : Option (BitVec 64))
  /-- `handle_syscall(tf)` -/
  | syscall (c : C)
  | leave (c : C)

/-- A new process is as if it had been interrupted before its first instruction. -/
def firstCore (kstackTop : Nat) (func : BitVec 64) : Core where
  reg r := if r = .rsp then BitVec.ofNat 64 kstackTop else 0
  rip := func
  flags := BitVec.ofNat 64 rflagsIf
  cs := BitVec.ofNat 16 (gdtKernelCode * 8)
  ss := BitVec.ofNat 16 (gdtKernelData * 8)

def firstFrame (kstackTop : Nat) (func : BitVec 64) (m : Bytes) : Frame :=
  ⟨kstackTop - Ctxsw.sizeOf trapframe, 0, 0, firstCore kstackTop func, m, false⟩

section

variable {C P : Type}

/-- The calling convention. -/
def System.KeepsCaller (s : System C P) (L : Layout C P) (c : C) (k : Core) (m : Bytes) : Prop :=
  ∀ F ∈ (s.frames (s.running c)).head?, (k.reg .rsp).toNat + 8 ≤ F.tf ∧
    ∀ b, F.tf ≤ b + 8 → b < L.top (s.running c) → m b = s.mem b

/-- The aligned stack has room for a trap frame and the return address. -/
def System.FrameRoom (s : System C P) (L : Layout C P) (c : C) : Prop :=
  L.base (s.running c) + 184 ≤ ((s.core c).reg .rsp).toNat / 16 * 16 ∧
    ((s.core c).reg .rsp).toNat ≤ L.top (s.running c)

variable [DecidableEq C] [DecidableEq P]

/-- The thread of CPU `c` goes on in state `t`, with the interrupts `fs`. -/
def System.trap (s : System C P) (c : C) (t : Machine) (fs : List Frame) : System C P where
  mem := t.mem
  core := Function.update s.core c t.toCore
  running := s.running
  created := s.created
  frames := Function.update s.frames (s.running c) fs

/-- The machine as CPU `c` sees it. -/
def System.machine (s : System C P) (c : C) : Machine := { s.core c with mem := s.mem }

inductive Step (sym : Symbols) (L : Layout C P) : System C P → Event C P → System C P → Prop
  | work {s : System C P} {t : Ctxsw.System C P} {c : C} {k : Core} {m : Bytes}
      (hstep : Ctxsw.Step sym.toSymbols L.toLayout s.toSystem (.work c k m) t)
      (hcaller : s.KeepsCaller L c k m) (hidt : ∀ b, L.idt ≤ b → b < L.idt + idtSize → m b = s.mem b) :
      Step sym L s (.thread (.work c k m)) ⟨t, s.frames⟩
  | create {s : System C P} {t : Ctxsw.System C P} {p : P} {func : BitVec 64}
      (hstep : Ctxsw.Step sym.toSymbols L.toLayout s.toSystem (.create p func) t) :
      Step sym L s (.thread (.create p func))
        ⟨t, Function.update s.frames (.proc p) [firstFrame (L.top (.proc p)) func t.mem]⟩
  | switchIn {s : System C P} {t : Ctxsw.System C P} {c : C} {p : P}
      (hstep : Ctxsw.Step sym.toSymbols L.toLayout s.toSystem (.switchIn c p) t) :
      Step sym L s (.thread (.switchIn c p)) ⟨t, s.frames⟩
  | switchOut {s : System C P} {t : Ctxsw.System C P} {c : C} {p : P}
      (hstep : Ctxsw.Step sym.toSymbols L.toLayout s.toSystem (.switchOut c p) t) :
      Step sym L s (.thread (.switchOut c p)) ⟨t, s.frames⟩
  /-- The gate is the one that lies in memory. -/
  | interrupt {s : System C P} {c : C} {i : Fin 256} {err : Option (BitVec 64)}
      (herr : err.isSome ↔ i.val ∈ errorCodeVectors) (hroom : s.FrameRoom L c) :
      Step sym L s (.interrupt c i err)
        (s.trap c (enter sym (s.machine c) (gateAt s.mem (L.idt + 16 * i)) i err)
          (⟨((enter sym (s.machine c) (gateAt s.mem (L.idt + 16 * i)) i err).reg .rdi).toNat, i,
            err.getD 0, s.core c, s.mem, decide (i.val = vectorSyscall)⟩ :: s.frames (s.running c)))
  | syscall {s : System C P} {c : C} {F : Frame} {rest : List Frame}
      (hframe : s.frames (s.running c) = F :: rest) (hpending : F.pending = true) :
      Step sym L s (.syscall c)
        (s.trap c { s.core c with mem := handleSyscall s.mem F.tf }
          (F.setRax (BitVec.ofNat 64 (load64 (handleSyscall s.mem F.tf) F.tf)) :: rest))
  | leave {s : System C P} {c : C} {F : Frame} {rest : List Frame}
      (hframe : s.frames (s.running c) = F :: rest) (hpending : F.pending = false)
      (hrsp : ((s.core c).reg .rsp).toNat + 8 = F.tf) :
      Step sym L s (.leave c) (s.trap c (leave (s.machine c)) rest)

/-- The boot CPU has set up the table; every CPU runs its scheduler, and no interrupt is handled. -/
structure Start (sym : Symbols) (L : Layout C P) (s : System C P) : Prop where
  threads : Ctxsw.Start s.toSystem
  frames : ∀ t, s.frames t = []
  idt : ∃ m, ∀ b, L.idt ≤ b → b < L.idt + idtSize → s.mem b = interruptInit sym.vectors m L.idt b

end

end Trap
end GuideOS
