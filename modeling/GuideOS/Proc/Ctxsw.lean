import GuideOS.Lib.Trace
import GuideOS.Lib.X86
import GuideOS.Mem.Layout

/-!
# Context switches

`sched_ctxsw` of `arch/x86/asm/swtch.s`, `return_from_isr` of `arch/x86/asm/trap.s`,
and the first frame of a process, which `proc_kern_init` and `sched_create_kproc`
build for them.

The schedulers of the CPUs and the processes are threads with a kernel stack each.
A run switches between them in any order that the scheduler can choose; between the
switches a thread changes its registers and any memory that is not the stack or the
saved context of another.
-/

namespace GuideOS
namespace Ctxsw

open Lib

/-! ## The code -/

def schedCtxsw : List Insn :=
  [.push .r15, .push .r14, .push .r13, .push .r12, .push .rbp, .push .rbx,
    .store .rdi .rsp, .mov .rsp .rsi,
    .pop .rbx, .pop .rbp, .pop .r12, .pop .r13, .pop .r14, .pop .r15, .ret]

def returnFromIsr : List Insn :=
  [.pop .rax, .pop .rcx, .pop .rdx, .pop .rbx, .pop .rsi, .pop .rdi, .pop .rbp, .pop .r8,
    .pop .r9, .pop .r10, .pop .r11, .pop .r12, .pop .r13, .pop .r14, .pop .r15,
    .addRsp 16, .iretq]

/-- The arguments of `sched_ctxsw(old, new)` are passed. -/
def pass (k : Core) (mem : Bytes) (old new : BitVec 64) : Machine :=
  let s : Machine := { k with mem := mem }
  (s.setReg .rdi old).setReg .rsi new

/-- The call `sched_ctxsw(old, new)`. -/
def callCtxsw (k : Core) (mem : Bytes) (old new : BitVec 64) : Machine :=
  (pass k mem old new).run (.call :: schedCtxsw)

/-- What a thread finds again after `sched_ctxsw`; `rip` is the return address. -/
structure Context where
  rbx : BitVec 64
  rbp : BitVec 64
  r12 : BitVec 64
  r13 : BitVec 64
  r14 : BitVec 64
  r15 : BitVec 64
  rsp : BitVec 64
  rip : BitVec 64
deriving DecidableEq

def context (k : Core) : Context :=
  ⟨k.reg .rbx, k.reg .rbp, k.reg .r12, k.reg .r13, k.reg .r14, k.reg .r15, k.reg .rsp, k.rip⟩

/-! ## The first frame of a process -/

inductive CtxField
  | rbx | rbp | r12 | r13 | r14 | r15 | rip
deriving DecidableEq

/-- `struct proc_context` -/
def procContext : List CtxField := [.rbx, .rbp, .r12, .r13, .r14, .r15, .rip]

inductive TfField
  | rax | rcx | rdx | rbx | rsi | rdi | rbp | r8 | r9 | r10 | r11 | r12 | r13 | r14 | r15
  | trapNo | errorCode | rip | cs | flags | rsp | ss
deriving DecidableEq

/-- `struct trapframe` -/
def trapframe : List TfField :=
  [.rax, .rcx, .rdx, .rbx, .rsi, .rdi, .rbp, .r8, .r9, .r10, .r11, .r12, .r13, .r14, .r15,
    .trapNo, .errorCode, .rip, .cs, .flags, .rsp, .ss]

/-- All fields are words. -/
def offsetOf {F : Type} [DecidableEq F] (fields : List F) (f : F) : Nat := 8 * fields.idxOf f

def sizeOf {F : Type} (fields : List F) : Nat := 8 * fields.length

/-- `GDT_KERNEL_CODE` -/
def gdtKernelCode : Nat := 0x1

/-- `GDT_KERNEL_DATA` -/
def gdtKernelData : Nat := 0x2

/-- `RFLAGS_IF` -/
def rflagsIf : Nat := 0x200

/-- Addresses of code. -/
structure Symbols where
  returnFromIsr : BitVec 64
  procKentry : BitVec 64

/-- The fields of `struct proc` that `proc_kern_init` sets, with `ctx` in memory, where
`sched_ctxsw` writes it. -/
structure Proc where
  kstack : Nat
  kstackTop : Nat
  tf : Nat
  /-- `&p->ctx` -/
  ctxSlot : Nat

/-- `kstack` is what `pgalloc_allocate(0)` returns. -/
def procKernInit (sym : Symbols) (m : Bytes) (ctxSlot kstack : Nat) : Proc × Bytes :=
  let kstackTop := kstack + pgSize
  let sp := kstackTop - sizeOf trapframe
  let tf := sp
  let sp := sp - 8
  let m := store64 m sp sym.returnFromIsr.toNat
  let sp := sp - sizeOf procContext
  let m := store64 m ctxSlot sp
  let m := storeLE m (load64 m ctxSlot) (sizeOf procContext) 0
  (⟨kstack, kstackTop, tf, ctxSlot⟩, m)

/-- The fields besides the context and the trap frame are those of the scheduler. -/
def schedCreateKproc (sym : Symbols) (p : Proc) (m : Bytes) (func : BitVec 64) : Bytes :=
  let m := store64 m (load64 m p.ctxSlot + offsetOf procContext .rip) sym.procKentry.toNat
  let m := storeLE m p.tf (sizeOf trapframe) 0
  let m := store64 m (p.tf + offsetOf trapframe .rip) func.toNat
  let m := store64 m (p.tf + offsetOf trapframe .rsp) p.kstackTop
  let m := store64 m (p.tf + offsetOf trapframe .cs) (gdtKernelCode * 8)
  let m := store64 m (p.tf + offsetOf trapframe .ss) (gdtKernelData * 8)
  store64 m (p.tf + offsetOf trapframe .flags) rflagsIf

/-- `proc_kern_init(p)` and `sched_create_kproc(p, func)` -/
def createKproc (sym : Symbols) (m : Bytes) (ctxSlot kstack : Nat) (func : BitVec 64) : Bytes :=
  let r := procKernInit sym m ctxSlot kstack
  schedCreateKproc sym r.1 r.2 func

/-- `func` begins: the registers are zero but for the stack, which is empty, the
selectors are those of the kernel, and interrupts are on. -/
structure Started (kstackTop : Nat) (func : BitVec 64) (s : Machine) : Prop where
  rip : s.rip = func
  rsp : s.reg .rsp = BitVec.ofNat 64 kstackTop
  cs : s.cs = BitVec.ofNat 16 (gdtKernelCode * 8)
  ss : s.ss = BitVec.ofNat 16 (gdtKernelData * 8)
  flags : s.flags = BitVec.ofNat 64 rflagsIf
  zero : ∀ r ≠ .rsp, s.reg r = 0

/-! ## The system -/

inductive Thread (C P : Type)
  | sched (c : C)
  | proc (p : P)
deriving DecidableEq

/-- Where the kernel stacks are, and the pointers to the saved contexts: `ctx` of a
process, `scheduler_ctx` of a CPU. -/
structure Layout (C P : Type) where
  base : Thread C P → Nat
  top : Thread C P → Nat
  slot : Thread C P → Nat
  kstack : ∀ p, top (.proc p) = base (.proc p) + pgSize
  top_lt : ∀ t, top t < 2 ^ 64
  slot_lt : ∀ t, slot t + 8 ≤ 2 ^ 64
  disjoint : ∀ t u, t ≠ u → top t ≤ base u ∨ top u ≤ base t
  slots : ∀ t u, t ≠ u → slot t + 8 ≤ slot u ∨ slot u + 8 ≤ slot t
  apart : ∀ t u, slot t + 8 ≤ base u ∨ top u ≤ slot t

structure System (C P : Type) where
  mem : Bytes
  core : C → Core
  running : C → Thread C P
  created : P → Bool

inductive Event (C P : Type)
  /-- the thread of CPU `c` runs until its registers are `k` and the memory is `m` -/
  | work (c : C) (k : Core) (m : Bytes)
  | create (p : P) (func : BitVec 64)
  /-- `sched_ctxsw(&(c->scheduler_ctx), p->ctx)` -/
  | switchIn (c : C) (p : P)
  /-- `sched_ctxsw(&p->ctx, cur_cpu()->scheduler_ctx)` -/
  | switchOut (c : C) (p : P)

section

variable {C P : Type}

/-- The threads that have a stack. -/
def System.Live (s : System C P) : Thread C P → Prop
  | .sched _ => True
  | .proc p => s.created p = true

/-- The stack of the thread has room for the return address and six registers. -/
def System.Room (s : System C P) (L : Layout C P) (c : C) : Prop :=
  L.base (s.running c) + 56 ≤ ((s.core c).reg .rsp).toNat ∧
    ((s.core c).reg .rsp).toNat ≤ L.top (s.running c)

variable [DecidableEq C]

/-- CPU `c` goes on with thread `b` in the state `t`. -/
def System.resume (s : System C P) (c : C) (b : Thread C P) (t : Machine) : System C P :=
  { s with
    mem := t.mem
    core := Function.update s.core c t.toCore
    running := Function.update s.running c b }

/-- CPU `c` switches from `a` to `b`. -/
def System.ctxsw (s : System C P) (L : Layout C P) (c : C) (a b : Thread C P) : System C P :=
  s.resume c b (callCtxsw (s.core c) s.mem (BitVec.ofNat 64 (L.slot a))
    (BitVec.ofNat 64 (load64 s.mem (L.slot b))))

theorem System.mem_resume (s : System C P) (c : C) (b : Thread C P) (t : Machine) :
    (s.resume c b t).mem = t.mem := rfl

theorem System.core_resume (s : System C P) (c : C) (b : Thread C P) (t : Machine) :
    (s.resume c b t).core c = t.toCore := Function.update_self ..

theorem System.running_ctxsw (s : System C P) (L : Layout C P) (c : C) (a b : Thread C P) (d : C) :
    (s.ctxsw L c a b).running d = if d = c then b else s.running d := by
  rw [System.ctxsw]
  exact Function.update_apply ..

variable [DecidableEq P]

/-- A thread leaves the stacks of the others and all saved contexts alone, and the
scheduler takes a process that runs nowhere. -/
inductive Step (sym : Symbols) (L : Layout C P) : System C P → Event C P → System C P → Prop
  | work {s : System C P} {c : C} {k : Core} {m : Bytes}
      (hstack : ∀ u, u ≠ s.running c → s.Live u → ∀ b, L.base u ≤ b → b < L.top u → m b = s.mem b)
      (hslot : ∀ u, s.Live u → ∀ b, L.slot u ≤ b → b < L.slot u + 8 → m b = s.mem b) :
      Step sym L s (.work c k m) { s with mem := m, core := Function.update s.core c k }
  | create {s : System C P} {p : P} {func : BitVec 64} (hnew : s.created p = false) :
      Step sym L s (.create p func)
        { s with
          mem := createKproc sym s.mem (L.slot (.proc p)) (L.base (.proc p)) func
          created := Function.update s.created p true }
  | switchIn {s : System C P} {c : C} {p : P} (hc : s.running c = .sched c)
      (hp : s.created p = true) (hfree : ∀ d, s.running d ≠ .proc p) (hroom : s.Room L c) :
      Step sym L s (.switchIn c p) (s.ctxsw L c (.sched c) (.proc p))
  | switchOut {s : System C P} {c : C} {p : P} (hc : s.running c = .proc p) (hroom : s.Room L c) :
      Step sym L s (.switchOut c p) (s.ctxsw L c (.proc p) (.sched c))

/-- Every CPU runs its scheduler, and no process is there. -/
structure Start (s : System C P) : Prop where
  running : ∀ c, s.running c = .sched c
  created : ∀ p, s.created p = false

/-- In event `e` thread `a` calls `sched_ctxsw` on CPU `c`. -/
def Event.Calls (e : Event C P) (a : Thread C P) (c : C) : Prop :=
  match e with
  | .switchIn d _ => a = .sched d ∧ c = d
  | .switchOut d p => a = .proc p ∧ c = d
  | _ => False

/-- In event `e` a call of `sched_ctxsw` of thread `a` returns on CPU `c`. -/
def Event.Returns (e : Event C P) (a : Thread C P) (c : C) : Prop :=
  match e with
  | .switchIn d p => a = .proc p ∧ c = d
  | .switchOut d _ => a = .sched d ∧ c = d
  | _ => False

end

end Ctxsw
end GuideOS
