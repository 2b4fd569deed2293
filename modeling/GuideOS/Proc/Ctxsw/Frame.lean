import GuideOS.Proc.Ctxsw

/-!
# Saved contexts and the first frame

What one call of `sched_ctxsw` does to its caller's stack and to the registers, what
`proc_kern_init` and `sched_create_kproc` leave on the stack of a process, and what
`return_from_isr` makes of it.
-/

namespace GuideOS
namespace Ctxsw

open Lib

/-- The words of `struct proc_context`. -/
def Context.words (x : Context) : List (BitVec 64) := [x.rbx, x.rbp, x.r12, x.r13, x.r14, x.r15, x.rip]

/-! ## `sched_ctxsw` -/

def pushed : List Reg := [.r15, .r14, .r13, .r12, .rbp, .rbx]

def popped : List Reg := [.rbx, .rbp, .r12, .r13, .r14, .r15]

def saves : List Insn := .call :: pushed.map .push

def exchanges : List Insn := [.store .rdi .rsp, .mov .rsp .rsi]

def restores : List Insn := popped.map .pop ++ [.ret]

theorem schedCtxsw_eq : Insn.call :: schedCtxsw = saves ++ exchanges ++ restores := rfl

/-- What the caller leaves behind: its context below its stack pointer, with a pointer
to it in `*old`. -/
structure Saved (k : Core) (m : Bytes) (old : Nat) (m' : Bytes) : Prop where
  pointer : load64 m' old + 56 = (k.reg .rsp).toNat
  words : Words m' (load64 m' old) (context k).words
  mem : ∀ b, b + 56 < (k.reg .rsp).toNat ∨ (k.reg .rsp).toNat ≤ b → b < old ∨ old + 8 ≤ b → m' b = m b

section

variable {k : Core} {m : Bytes} {old new : BitVec 64}

/-- The state after the pushes, the return address among them. -/
theorem run_saves {s : Machine} (hsp : 56 ≤ (s.reg .rsp).toNat) :
    Machine.Pushed s (context s.toCore).words.reverse (s.run saves) := by
  have hcall := Machine.pushWord_pushed (s := s) s.rip (by omega)
  have hrsp := hcall.rsp
  rw [List.length_singleton] at hrsp
  have hroom : 8 * pushed.length ≤ ((s.pushWord s.rip).reg .rsp).toNat := by
    rw [show pushed.length = 6 by rfl]
    omega
  have hregs := Machine.run_pushes pushed (by decide) hroom
  have hsame : pushed.map (s.pushWord s.rip).reg = pushed.map s.reg :=
    List.map_congr_left fun r hr => hcall.reg r (by rintro rfl; exact absurd hr (by decide))
  rw [hsame] at hregs
  have hwords : (context s.toCore).words.reverse = [s.rip] ++ pushed.map s.reg := rfl
  rw [hwords, saves, Machine.run_cons]
  exact hcall.trans hregs

/-- The state after the pops and `ret`. -/
theorem run_restores {s : Machine} {x : Context} (hx : Words s.mem (s.reg .rsp).toNat x.words)
    (hrsp : (s.reg .rsp).toNat + 56 = x.rsp.toNat) :
    context (s.run restores).toCore = x := by
  have hlt := x.rsp.isLt
  rw [show x.words = [x.rbx, x.rbp, x.r12, x.r13, x.r14, x.r15] ++ [x.rip] by rfl,
    words_append] at hx
  have hpops := Machine.run_pops popped (by decide) (by decide) rfl hx.1
    (show _ + 8 * 6 < 2 ^ 64 by omega)
  have hmem := Machine.mem_run_pops s popped
  rw [restores, Machine.run_append, Machine.run_cons, Machine.run_nil]
  generalize s.run (popped.map .pop) = t at hpops hmem ⊢
  have hregs := hpops.popped
  simp only [popped, List.map_cons, List.map_nil, List.cons.injEq, and_true] at hregs
  obtain ⟨hrbx, hrbp, hr12, hr13, hr14, hr15⟩ := hregs
  have hsp : (t.reg .rsp).toNat = (s.reg .rsp).toNat + 8 * 6 := hpops.rsp
  have hrip : t.load (t.reg .rsp) = x.rip := by
    refine Machine.load_eq ?_
    rw [hmem, hsp]
    exact hx.2.1
  have hend : t.reg .rsp + 8 = x.rsp := by bv_omega
  have hother : ∀ r ≠ .rsp, (t.exec .ret).reg r = t.reg r := fun r hr => Machine.reg_ret t hr
  rw [context, hother .rbx (by decide), hother .rbp (by decide), hother .r12 (by decide),
    hother .r13 (by decide), hother .r14 (by decide), hother .r15 (by decide),
    hrbx, hrbp, hr12, hr13, hr14, hr15, Machine.rsp_ret, hend, Machine.rip_ret, hrip]

theorem mem_run_restores (s : Machine) : (s.run restores).mem = s.mem := by
  rw [restores, Machine.run_append, Machine.run_cons, Machine.run_nil, Machine.mem_ret,
    Machine.mem_run_pops]

/-- The stack pointer goes to `*old`, and `new` becomes the stack pointer. -/
theorem run_exchanges (s : Machine) :
    (s.run exchanges).reg .rsp = s.reg .rsi ∧
      (s.run exchanges).mem = store64 s.mem (s.reg .rdi).toNat (s.reg .rsp).toNat :=
  ⟨Machine.reg_setReg_self .., rfl⟩

theorem pass_reg {r : Reg} (hr : r ≠ .rsi) (hr' : r ≠ .rdi) : (pass k m old new).reg r = k.reg r := by
  rw [pass, Machine.reg_setReg_of_ne _ _ hr, Machine.reg_setReg_of_ne _ _ hr']

theorem context_pass : context (pass k m old new).toCore = context k := by
  rw [context, pass_reg (by decide) (by decide), pass_reg (by decide) (by decide),
    pass_reg (by decide) (by decide), pass_reg (by decide) (by decide), pass_reg (by decide) (by decide),
    pass_reg (by decide) (by decide), pass_reg (by decide) (by decide)]
  rfl

variable (m old new)

/-- Up to the change of stacks: the caller's context is saved. -/
theorem run_switch (hroom : 56 ≤ (k.reg .rsp).toNat)
    (hold : old.toNat + 64 ≤ (k.reg .rsp).toNat ∨ (k.reg .rsp).toNat ≤ old.toNat) :
    Saved k m old.toNat (((pass k m old new).run saves).run exchanges).mem ∧
      (((pass k m old new).run saves).run exchanges).reg .rsp = new := by
  have hsp : (pass k m old new).reg .rsp = k.reg .rsp := pass_reg (by decide) (by decide)
  have hsaves := run_saves (s := pass k m old new) (by rw [hsp]; exact hroom)
  generalize (pass k m old new).run saves = t at hsaves ⊢
  have hrdi : t.reg .rdi = old := by
    rw [hsaves.reg .rdi (by decide), pass, Machine.reg_setReg_of_ne _ _ (by decide),
      Machine.reg_setReg_self]
  have hrsi : t.reg .rsi = new := by
    rw [hsaves.reg .rsi (by decide), pass, Machine.reg_setReg_self]
  have hlow : (t.reg .rsp).toNat + 56 = (k.reg .rsp).toNat := by
    rw [← hsp]
    exact hsaves.rsp
  have hwords := hsaves.words
  rw [List.reverse_reverse, context_pass] at hwords
  obtain ⟨hnew, hmem⟩ := run_exchanges t
  rw [hrdi] at hmem
  have hpointer : load64 (store64 t.mem old.toNat (t.reg .rsp).toNat) old.toNat = (t.reg .rsp).toNat :=
    load64_store64 _ (t.reg .rsp).isLt
  refine ⟨⟨?_, ?_, fun b hb hb' => ?_⟩, hnew.trans hrsi⟩
  · rw [hmem, hpointer]
    exact hlow
  · rw [hmem, hpointer]
    refine hwords.congr fun b hb hb' => store64_outside ?_
    rw [show (context k).words.length = 7 by rfl] at hb'
    omega
  · rw [hmem, store64_outside hb', hsaves.mem b (by rw [hsp]; omega)]
    rfl

theorem callCtxsw_eq :
    callCtxsw k m old new = (((pass k m old new).run saves).run exchanges).run restores := by
  rw [callCtxsw, schedCtxsw_eq, Machine.run_append, Machine.run_append]

/-- One call of `sched_ctxsw` saves the context of the caller. -/
theorem callCtxsw_saved (hroom : 56 ≤ (k.reg .rsp).toNat)
    (hold : old.toNat + 64 ≤ (k.reg .rsp).toNat ∨ (k.reg .rsp).toNat ≤ old.toNat) :
    Saved k m old.toNat (callCtxsw k m old new).mem := by
  rw [callCtxsw_eq, mem_run_restores]
  exact (run_switch m old new hroom hold).1

/-- It restores the context at `new`, which neither the pushes nor the store reach. -/
theorem callCtxsw_restored (hroom : 56 ≤ (k.reg .rsp).toNat)
    (hold : old.toNat + 64 ≤ (k.reg .rsp).toNat ∨ (k.reg .rsp).toNat ≤ old.toNat)
    {x : Context} (hx : Words m new.toNat x.words) (hrsp : new.toNat + 56 = x.rsp.toNat)
    (hstack : x.rsp.toNat + 56 ≤ (k.reg .rsp).toNat ∨ (k.reg .rsp).toNat ≤ new.toNat)
    (hslot : old.toNat + 8 ≤ new.toNat ∨ x.rsp.toNat ≤ old.toNat) :
    context (callCtxsw k m old new).toCore = x := by
  obtain ⟨hsaved, hnew⟩ := run_switch m old new hroom hold
  rw [callCtxsw_eq]
  refine run_restores ?_ (by rw [hnew]; exact hrsp)
  rw [hnew]
  refine hx.congr fun b hb hb' => ?_
  rw [show x.words.length = 7 by rfl] at hb'
  exact hsaved.mem b (by omega) (by omega)

end

/-! ## The first frame -/

/-- The context that `sched_ctxsw` finds first. -/
def firstContext (sym : Symbols) (kstackTop : Nat) : Context where
  rbx := 0
  rbp := 0
  r12 := 0
  r13 := 0
  r14 := 0
  r15 := 0
  rsp := BitVec.ofNat 64 (kstackTop - 184)
  rip := sym.procKentry

/-- The trap frame that `return_from_isr` finds first. -/
def firstTrapframe (kstackTop : Nat) (func : BitVec 64) : List (BitVec 64) :=
  List.replicate 17 0 ++ [func, BitVec.ofNat 64 (gdtKernelCode * 8), BitVec.ofNat 64 rflagsIf,
    BitVec.ofNat 64 kstackTop, BitVec.ofNat 64 (gdtKernelData * 8)]

/-- The memory after `proc_kern_init` and `sched_create_kproc`. -/
structure Built (sym : Symbols) (m : Bytes) (ctxSlot kstackTop : Nat) (func : BitVec 64) (m' : Bytes) :
    Prop where
  pointer : load64 m' ctxSlot + 240 = kstackTop
  context : Words m' (kstackTop - 240) (firstContext sym kstackTop).words
  kentry : Words m' (kstackTop - 184) (sym.returnFromIsr :: firstTrapframe kstackTop func)
  mem : ∀ b, b + 240 < kstackTop ∨ kstackTop ≤ b → b < ctxSlot ∨ ctxSlot + 8 ≤ b → m' b = m b

section

variable (sym : Symbols) (m : Bytes) (func : BitVec 64) {ctxSlot kstack : Nat}

/-- The five fields that are set after the frame was cleared. -/
theorem schedCreateKproc_trapframe {p : Proc} (hlt : p.kstackTop < 2 ^ 64) :
    Words (schedCreateKproc sym p m func) p.tf (firstTrapframe p.kstackTop func) := by
  have hclear : ∀ m' : Bytes, Words (storeLE m' p.tf (sizeOf trapframe) 0) p.tf (List.replicate 22 0) :=
    fun m' => words_zero fun b hb hb' => storeLE_zero hb hb'
  have hset := ((((hclear (store64 m (load64 m p.ctxSlot + offsetOf procContext .rip)
    sym.procKentry.toNat)).set 17 func).set 20 (BitVec.ofNat 64 p.kstackTop)).set 18
      (BitVec.ofNat 64 (gdtKernelCode * 8))).set 21 (BitVec.ofNat 64 (gdtKernelData * 8)) |>.set 19
        (BitVec.ofNat 64 rflagsIf)
  have htop : (BitVec.ofNat 64 p.kstackTop).toNat = p.kstackTop := by
    rw [BitVec.toNat_ofNat, Nat.mod_eq_of_lt hlt]
  rw [htop] at hset
  exact hset

theorem schedCreateKproc_outside {p : Proc} {b : Nat} (hb : b < p.tf ∨ p.tf + 176 ≤ b) :
    schedCreateKproc sym p m func b =
      store64 m (load64 m p.ctxSlot + 48) sym.procKentry.toNat b := by
  have hfield : ∀ {m' : Bytes} {i v : Nat}, i < 22 → store64 m' (p.tf + 8 * i) v b = m' b :=
    fun hi => store64_outside (by omega)
  calc schedCreateKproc sym p m func b
      = storeLE (store64 m (load64 m p.ctxSlot + 48) sym.procKentry.toNat) p.tf 176 0 b := by
        refine (hfield (i := 19) (by decide)).trans ?_
        refine (hfield (i := 21) (by decide)).trans ?_
        refine (hfield (i := 18) (by decide)).trans ?_
        refine (hfield (i := 20) (by decide)).trans ?_
        exact hfield (i := 17) (by decide)
    _ = store64 m (load64 m p.ctxSlot + 48) sym.procKentry.toNat b := storeLE_outside (by omega)

/-- What `proc_kern_init` leaves. -/
structure Inited (sym : Symbols) (m : Bytes) (ctxSlot kstackTop : Nat) (m' : Bytes) : Prop where
  pointer : load64 m' ctxSlot + 240 = kstackTop
  context : Words m' (kstackTop - 240) (List.replicate 7 0)
  kentry : Words m' (kstackTop - 184) [sym.returnFromIsr]
  mem : ∀ b, b + 240 < kstackTop ∨ kstackTop ≤ b → b < ctxSlot ∨ ctxSlot + 8 ≤ b → m' b = m b

theorem procKernInit_inited (hlt : kstack + pgSize < 2 ^ 64)
    (hslot : ctxSlot + 8 ≤ kstack ∨ kstack + pgSize ≤ ctxSlot) :
    Inited sym m ctxSlot (kstack + pgSize) (procKernInit sym m ctxSlot kstack).2 := by
  have hpage : pgSize = 4096 := rfl
  have htf : sizeOf trapframe = 176 := rfl
  have hctx : sizeOf procContext = 56 := rfl
  have hsp : kstack + pgSize - sizeOf trapframe - 8 = kstack + pgSize - 184 := by omega
  have hsp' : kstack + pgSize - 184 - sizeOf procContext = kstack + pgSize - 240 := by omega
  have hm : (procKernInit sym m ctxSlot kstack).2 =
      storeLE (store64 (store64 m (kstack + pgSize - 184) sym.returnFromIsr.toNat) ctxSlot
        (kstack + pgSize - 240)) (kstack + pgSize - 240) 56 0 := by
    simp only [procKernInit]
    rw [hsp, hsp', load64_store64 _ (by omega), hctx]
  rw [hm]
  generalize hm₁ : store64 (store64 m (kstack + pgSize - 184) sym.returnFromIsr.toNat) ctxSlot
    (kstack + pgSize - 240) = m₁
  refine ⟨?_, ?_, ?_, fun b hb hb' => ?_⟩
  · have hload : load64 (storeLE m₁ (kstack + pgSize - 240) 56 0) ctxSlot = load64 m₁ ctxSlot :=
      load64_congr fun b hb hb' => storeLE_outside (by omega)
    rw [hload, ← hm₁, load64_store64 _ (by omega)]
    omega
  · exact words_zero fun b hb hb' => storeLE_zero hb hb'
  · refine (words_store64 m (kstack + pgSize - 184) sym.returnFromIsr).congr fun b hb hb' => ?_
    rw [List.length_singleton] at hb'
    rw [storeLE_outside (by omega), ← hm₁, store64_outside (by omega)]
  · rw [storeLE_outside (by omega), ← hm₁, store64_outside hb', store64_outside (by omega)]

theorem createKproc_built (hlt : kstack + pgSize < 2 ^ 64)
    (hslot : ctxSlot + 8 ≤ kstack ∨ kstack + pgSize ≤ ctxSlot) :
    Built sym m ctxSlot (kstack + pgSize) func (createKproc sym m ctxSlot kstack func) := by
  have hpage : pgSize = 4096 := rfl
  have htf : sizeOf trapframe = 176 := rfl
  have hinit := procKernInit_inited sym m hlt hslot
  have hp : (procKernInit sym m ctxSlot kstack).1 =
      ⟨kstack, kstack + pgSize, kstack + pgSize - sizeOf trapframe, ctxSlot⟩ := rfl
  rw [htf] at hp
  simp only [createKproc]
  rw [hp]
  generalize (procKernInit sym m ctxSlot kstack).2 = m₁ at hinit ⊢
  obtain ⟨hpointer, hcontext, hkentry, hmem⟩ := hinit
  have houtside : ∀ b, b + 176 < kstack + pgSize ∨ kstack + pgSize ≤ b →
      schedCreateKproc sym ⟨kstack, kstack + pgSize, kstack + pgSize - 176, ctxSlot⟩ m₁ func b =
        store64 m₁ (kstack + pgSize - 240 + 8 * 6) sym.procKentry.toNat b := fun b hb => by
    rw [schedCreateKproc_outside sym m₁ func (by dsimp only; omega)]
    dsimp only
    rw [show load64 m₁ ctxSlot + 48 = kstack + pgSize - 240 + 8 * 6 by omega]
  have hframe := schedCreateKproc_trapframe sym m₁ func
    (p := ⟨kstack, kstack + pgSize, kstack + pgSize - 176, ctxSlot⟩) hlt
  generalize schedCreateKproc sym ⟨kstack, kstack + pgSize, kstack + pgSize - 176, ctxSlot⟩ m₁ func = m₂
    at hframe houtside ⊢
  refine ⟨?_, ?_, ?_, fun b hb hb' => ?_⟩
  · have hsame : load64 m₂ ctxSlot = load64 m₁ ctxSlot := load64_congr fun b hb hb' => by
      rw [houtside b (by omega), store64_outside (by omega)]
    rw [hsame, hpointer]
  · refine (hcontext.set 6 sym.procKentry).congr fun b hb hb' => houtside b ?_
    rw [List.length_set, List.length_replicate] at hb'
    omega
  · have hsame : load64 m₂ (kstack + pgSize - 184) = load64 m₁ (kstack + pgSize - 184) :=
      load64_congr fun b hb hb' => by rw [houtside b (by omega), store64_outside (by omega)]
    rw [words_cons, hsame, show kstack + pgSize - 184 + 8 = kstack + pgSize - 176 by omega]
    exact ⟨(words_cons.mp hkentry).1, hframe⟩
  · rw [houtside b (by omega), store64_outside (by omega)]
    exact hmem b hb hb'

end

/-! ## `return_from_isr` -/

def isrPops : List Reg :=
  [.rax, .rcx, .rdx, .rbx, .rsi, .rdi, .rbp, .r8, .r9, .r10, .r11, .r12, .r13, .r14, .r15]

theorem returnFromIsr_eq : returnFromIsr = isrPops.map .pop ++ [.addRsp 16, .iretq] := rfl

theorem mem_isrPops {r : Reg} (hr : r ≠ .rsp) : r ∈ isrPops := by
  cases r <;> first | exact absurd rfl hr | decide

/-- `return_from_isr` over the first trap frame starts `func`. -/
theorem run_returnFromIsr {s : Machine} {kstackTop : Nat} {func : BitVec 64}
    (hwords : Words s.mem (s.reg .rsp).toNat (firstTrapframe kstackTop func))
    (hrsp : (s.reg .rsp).toNat + 176 < 2 ^ 64) : Started kstackTop func (s.run returnFromIsr) := by
  have hsplit : firstTrapframe kstackTop func = List.replicate 15 0 ++ (List.replicate 2 0 ++
      [func, BitVec.ofNat 64 (gdtKernelCode * 8), BitVec.ofNat 64 rflagsIf,
        BitVec.ofNat 64 kstackTop, BitVec.ofNat 64 (gdtKernelData * 8)]) := rfl
  rw [hsplit, words_append, words_append, List.length_replicate, List.length_replicate] at hwords
  obtain ⟨hregs, _, hframe⟩ := hwords
  have hroom : (s.reg .rsp).toNat + 8 * isrPops.length < 2 ^ 64 := by
    rw [show isrPops.length = 15 by rfl]
    omega
  have hpops := Machine.run_pops isrPops (by decide) (by decide) rfl hregs hroom
  have hsame := Machine.mem_run_pops s isrPops
  rw [returnFromIsr_eq, Machine.run_append, Machine.run_cons, Machine.run_cons, Machine.run_nil]
  generalize s.run (isrPops.map .pop) = t at hpops hsame ⊢
  have hzero : ∀ r ∈ isrPops, t.reg r = 0 := List.map_eq_replicate_iff.mp hpops.popped
  have hsp : (t.reg .rsp).toNat = (s.reg .rsp).toNat + 8 * 15 := hpops.rsp
  have hsp' : ((t.exec (.addRsp 16)).reg .rsp).toNat = (s.reg .rsp).toNat + 8 * 15 + 8 * 2 := by
    rw [Machine.exec, Machine.reg_setReg_self, Machine.toNat_add (by omega), hsp]
  have hmem : (t.exec (.addRsp 16)).mem = s.mem := hsame
  have hret := Machine.iretq_returned (s := t.exec (.addRsp 16)) (by rw [hmem, hsp']; exact hframe)
    (by omega)
  refine ⟨hret.rip, hret.rsp, hret.cs, hret.ss, hret.flags, fun r hr => ?_⟩
  rw [hret.reg r hr, Machine.exec, Machine.reg_setReg_of_ne _ _ hr, hzero r (mem_isrPops hr)]

/-- `proc_kentry` returns to `return_from_isr`, which starts `func`. -/
theorem ret_started {s : Machine} {sym : Symbols} {kstackTop : Nat} {func : BitVec 64}
    (hwords : Words s.mem (s.reg .rsp).toNat (sym.returnFromIsr :: firstTrapframe kstackTop func))
    (hrsp : (s.reg .rsp).toNat + 184 < 2 ^ 64) :
    (s.exec .ret).rip = sym.returnFromIsr ∧ Started kstackTop func ((s.exec .ret).run returnFromIsr) := by
  obtain ⟨hrip, hframe⟩ := words_cons.mp hwords
  have hsp : ((s.exec .ret).reg .rsp).toNat = (s.reg .rsp).toNat + 8 := by
    rw [Machine.rsp_ret]
    exact Machine.toNat_add (n := 8) (by omega)
  refine ⟨by rw [Machine.rip_ret, Machine.load_eq hrip], run_returnFromIsr ?_ (by omega)⟩
  rw [Machine.mem_ret, hsp]
  exact hframe

end Ctxsw
end GuideOS
