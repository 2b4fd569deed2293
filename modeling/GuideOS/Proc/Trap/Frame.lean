import GuideOS.Proc.Trap

/-!
# The table and one trap

What the processor reads from the table that `interrupt_init` fills, what lies on the
stack when `handle_interrupt` begins, and what `return_from_isr` makes of it.
-/

namespace GuideOS
namespace Trap

open Lib Ctxsw

/-! ## The descriptor table -/

section

variable {m : Bytes} {a : Nat}

theorem loadLE_storeLE_self (m : Bytes) (a n v : Nat) : loadLE (storeLE m a n v) a n = v % 256 ^ n := by
  have h : loadLE (storeLE m a n v) (a + 0) n = v / 256 ^ 0 % 256 ^ n := loadLE_storeLE (by omega)
  rwa [Nat.add_zero, Nat.pow_zero, Nat.div_one] at h

theorem loadLE_storeLE_ne {b n k v : Nat} (h : a + n ≤ b ∨ b + k ≤ a) :
    loadLE (storeLE m b k v) a n = loadLE m a n :=
  loadLE_congr fun _ _ _ => storeLE_outside (by omega)

theorem storeLE_byte (m : Bytes) (a : Nat) (v : BitVec 8) : storeLE m a 1 v.toNat a = v := by
  rw [storeLE, if_pos (by omega), Nat.sub_self, Nat.pow_zero, Nat.div_one, BitVec.ofNat_toNat,
    BitVec.setWidth_eq]

theorem InterruptGate64.store_outside (g : InterruptGate64) {b : Nat} (h : b < a ∨ a + 16 ≤ b) :
    g.store m a b = m b := by
  simp only [InterruptGate64.store]
  rw [storeLE_outside (by omega), storeLE_outside (by omega), storeLE_outside (by omega),
    storeLE_outside (by omega), storeLE_outside (by omega), storeLE_outside (by omega),
    storeLE_outside (by omega)]

/-- The processor reads the three parts of the address together again. -/
theorem gateAt_store (m : Bytes) (a : Nat) (p : BitVec 64) (attr cs : BitVec 8) :
    gateAt ((mkIdtEntry p 0 attr cs).store m a) a =
      ⟨p, cs.setWidth 16, 0, attr.toNat % 16, attr.toNat / 32 % 4, decide (attr.toNat / 128 = 1)⟩ := by
  simp only [InterruptGate64.store, mkIdtEntry]
  have hbyte : ∀ m' : Bytes, ∀ b v : Nat, ∀ n k, b < k ∨ k + n ≤ b → storeLE m' k n v b = m' b :=
    fun m' b v n k h => storeLE_outside h
  rw [gateAt]
  congr 1
  · rw [loadLE_storeLE_ne (by omega), loadLE_storeLE_ne (by omega), loadLE_storeLE_ne (by omega),
      loadLE_storeLE_ne (by omega), loadLE_storeLE_ne (by omega), loadLE_storeLE_ne (by omega),
      loadLE_storeLE_self,
      loadLE_storeLE_ne (by omega), loadLE_storeLE_ne (by omega), loadLE_storeLE_self,
      loadLE_storeLE_ne (by omega), loadLE_storeLE_self]
    refine BitVec.eq_of_toNat_eq ?_
    have hp := p.isLt
    simp only [BitVec.toNat_ofNat, BitVec.toNat_setWidth, BitVec.toNat_and, BitVec.toNat_ushiftRight,
      Nat.shiftRight_eq_div_pow]
    have h16 : ∀ n : Nat, n &&& (65535 : BitVec 64).toNat = n % 65536 := fun n =>
      Nat.and_two_pow_sub_one_eq_mod n 16
    have h32 : ∀ n : Nat, n &&& (4294967295 : BitVec 64).toNat = n % 4294967296 := fun n =>
      Nat.and_two_pow_sub_one_eq_mod n 32
    simp only [Nat.reducePow, h16, h32]
    omega
  · rw [loadLE_storeLE_ne (by omega), loadLE_storeLE_ne (by omega), loadLE_storeLE_ne (by omega),
      loadLE_storeLE_ne (by omega), loadLE_storeLE_ne (by omega), loadLE_storeLE_self]
    refine BitVec.eq_of_toNat_eq ?_
    have hcs := cs.isLt
    simp only [BitVec.toNat_ofNat, BitVec.toNat_setWidth, Nat.reducePow]
    omega
  · rw [hbyte _ _ _ _ _ (by omega), hbyte _ _ _ _ _ (by omega), hbyte _ _ _ _ _ (by omega),
      hbyte _ _ _ _ _ (by omega), storeLE_byte]
    rfl
  all_goals
    rw [hbyte _ _ _ _ _ (by omega), hbyte _ _ _ _ _ (by omega), hbyte _ _ _ _ _ (by omega), storeLE_byte]

end

/-- What the processor finds at vector `i`. -/
def gate (sym : Symbols) (i : Nat) : Gate where
  offset := sym.vectors i
  selector := BitVec.ofNat 16 (gdtKernelCode * 8)
  ist := 0
  type := if i = vectorSyscall then 0xF else 0xE
  dpl := if i = vectorSyscall then 3 else 0
  present := true

section

variable {f : Nat → InterruptGate64} {G : Nat → Gate} {idt : Nat}

/-- A loop that fills a table sets each entry once. -/
theorem gateAt_foldl (hf : ∀ m i, gateAt ((f i).store m (idt + 16 * i)) (idt + 16 * i) = G i) (m : Bytes)
    {n i : Nat} (hi : i < n) :
    gateAt ((List.range n).foldl (fun m i => (f i).store m (idt + 16 * i)) m) (idt + 16 * i) = G i := by
  induction n with
  | zero => exact absurd hi (Nat.not_lt_zero i)
  | succ n ih =>
      rw [List.range_succ, List.foldl_append, List.foldl_cons, List.foldl_nil]
      by_cases h : i = n
      · rw [h]
        exact hf _ n
      · rw [gateAt_congr fun b hb hb' => InterruptGate64.store_outside (f n) (by omega)]
        exact ih (by omega)

/-- Each vector leads to its stub, through an interrupt gate of the kernel; system calls go through
a trap gate that user code may use. -/
theorem gateAt_interruptInit (sym : Symbols) (m : Bytes) (idt : Nat) {i : Nat} (hi : i < 256) :
    gateAt (interruptInit sym.vectors m idt) (idt + 16 * i) = gate sym i := by
  simp only [interruptInit]
  by_cases h : i = vectorSyscall
  · rw [h, gateAt_store, gate, if_pos rfl, if_pos rfl]
    rfl
  · rw [gateAt_congr fun b hb hb' => InterruptGate64.store_outside _ (by omega)]
    refine (gateAt_foldl (G := fun i => ⟨sym.vectors i, BitVec.ofNat 16 (gdtKernelCode * 8), 0, 0xE, 0, true⟩)
      (fun m i => (gateAt_store m _ _ _ _).trans rfl) _ hi).trans ?_
    rw [gate, if_neg h, if_neg h]

end

/-! ## Entry -/

/-- The words of a trap frame. -/
def trapWords (k : Core) (trapNo : Nat) (errorCode : BitVec 64) : List (BitVec 64) :=
  trapframe.map (tfValue k trapNo errorCode)

theorem words_get {m : Bytes} {vs : List (BitVec 64)} {a : Nat} (h : Words m a vs) {n : Nat} (hn : n < vs.length) :
    load64 m (a + 8 * n) = vs[n].toNat := by
  induction vs generalizing a n with
  | nil => exact absurd hn (Nat.not_lt_zero n)
  | cons v vs ih =>
      cases n with
      | zero => exact h.1
      | succ n =>
          rw [show a + 8 * (n + 1) = a + 8 + 8 * n by omega]
          exact ih h.2 (Nat.lt_of_succ_lt_succ hn)

/-- The words are the fields of `struct trapframe`. -/
theorem words_trapframe {m : Bytes} {a i : Nat} {k : Core} {err : BitVec 64} (h : Words m a (trapWords k i err))
    (f : TfField) : load64 m (a + offsetOf trapframe f) = (tfValue k i err f).toNat := by
  have hmem : f ∈ trapframe := by cases f <;> decide
  have hlt := List.idxOf_lt_length_of_mem hmem
  rw [offsetOf, words_get h (by rw [trapWords, List.length_map]; exact hlt)]
  simp only [trapWords, List.getElem_map, List.getElem_idxOf]

/-- `handle_interrupt(tf)` begins. -/
structure Entered (sym : Symbols) (s : Machine) (g : Gate) (i : Nat) (err : BitVec 64) (tf : Nat)
    (t : Machine) : Prop where
  frame : tf + 176 = (s.reg .rsp).toNat / 16 * 16
  rsp : (t.reg .rsp).toNat + 8 = tf
  rdi : (t.reg .rdi).toNat = tf
  rip : t.rip = sym.handleInterrupt
  cs : t.cs = g.selector
  ss : t.ss = s.ss
  flags : t.flags = g.maskFlags s.flags
  words : Words t.mem (tf - 8) (sym.returnFromIsr :: trapWords s.toCore i err)
  mem : ∀ b, b + 8 < tf ∨ tf + 176 ≤ b → t.mem b = s.mem b

def entryPushes : List Reg :=
  [.r15, .r14, .r13, .r12, .r11, .r10, .r9, .r8, .rbp, .rdi, .rsi, .rbx, .rdx, .rcx, .rax]

theorem trapEnterAll_eq : trapEnterAll = entryPushes.map .push ++ [.mov .rdi .rsp] := rfl

/-- The processor and the stub push an error code together exactly once. -/
theorem error_vector {i : Nat} {err : Option (BitVec 64)} (herr : err.isSome ↔ i ∈ errorCodeVectors) :
    err.toList ++ vector i = [err.getD 0, BitVec.ofNat 64 i] := by
  rw [vector]
  cases err with
  | none =>
      have hi : i ∉ [8, 10, 11, 12, 13, 14, 17] := fun h => Bool.false_ne_true (herr.mpr h)
      rw [if_neg hi]
      rfl
  | some e =>
      have hi : i ∈ [8, 10, 11, 12, 13, 14, 17] := herr.mp rfl
      rw [if_pos hi]
      rfl

/-- The state of a machine that goes through gate `g`, before anything is pushed. -/
def aligned (s : Machine) (g : Gate) : Machine :=
  { s.setReg .rsp (s.reg .rsp &&& ~~~15#64) with rip := g.offset, cs := g.selector, flags := g.maskFlags s.flags }

theorem aligned_reg (s : Machine) (g : Gate) {r : Reg} (h : r ≠ .rsp) : (aligned s g).reg r = s.reg r :=
  Machine.reg_setReg_of_ne s _ h

theorem aligned_rsp (s : Machine) (g : Gate) : ((aligned s g).reg .rsp).toNat = (s.reg .rsp).toNat / 16 * 16 := by
  have h : (aligned s g).reg .rsp = s.reg .rsp &&& ~~~15#64 := Machine.reg_setReg_self s .rsp _
  rw [h, Machine.toNat_align]

/-- All that is pushed before `handle_interrupt` is called. -/
theorem run_entry {s : Machine} {g : Gate} {i : Nat} {err : Option (BitVec 64)}
    (herr : err.isSome ↔ i ∈ errorCodeVectors) (hroom : 184 ≤ (s.reg .rsp).toNat / 16 * 16) :
    ((s.deliver g err).pushWords (vector i)).run (entryPushes.map .push) =
      (aligned s g).pushWords (trapWords s.toCore i (err.getD 0)).reverse := by
  have hdeliver : (s.deliver g err).pushWords (vector i) = (aligned s g).pushWords
      ([s.ss.setWidth 64, s.reg .rsp, s.flags, s.cs.setWidth 64, s.rip] ++ [err.getD 0, BitVec.ofNat 64 i]) := by
    rw [← error_vector herr, ← List.append_assoc, Machine.pushWords_append]
    rfl
  have hpushed := Machine.pushWords_pushed (s := aligned s g)
    ([s.ss.setWidth 64, s.reg .rsp, s.flags, s.cs.setWidth 64, s.rip] ++ [err.getD 0, BitVec.ofNat 64 i])
    (by rw [aligned_rsp]; exact Nat.le_trans (show 56 ≤ 184 by decide) hroom)
  rw [Machine.run_pushes_eq entryPushes (by decide), hdeliver]
  have hregs : entryPushes.map ((aligned s g).pushWords ([s.ss.setWidth 64, s.reg .rsp, s.flags,
      s.cs.setWidth 64, s.rip] ++ [err.getD 0, BitVec.ofNat 64 i])).reg = entryPushes.map s.reg := by
    refine List.map_congr_left fun r hr => ?_
    have hne : r ≠ .rsp := by
      rintro rfl
      exact absurd hr (by decide)
    rw [hpushed.reg r hne, aligned_reg s g hne]
  rw [hregs, ← Machine.pushWords_append]
  rfl

theorem enter_entered (sym : Symbols) {s : Machine} {g : Gate} {i : Nat} {err : Option (BitVec 64)}
    (herr : err.isSome ↔ i ∈ errorCodeVectors) (hroom : 184 ≤ (s.reg .rsp).toNat / 16 * 16) :
    Entered sym s g i (err.getD 0) ((enter sym s g i err).reg .rdi).toNat (enter sym s g i err) := by
  have hlen : (trapWords s.toCore i (err.getD 0)).reverse.length = 22 := rfl
  have hpushed := Machine.pushWords_pushed (s := aligned s g) (trapWords s.toCore i (err.getD 0)).reverse
    (by rw [aligned_rsp, hlen]; omega)
  have hcs := Machine.cs_pushWords (aligned s g) (trapWords s.toCore i (err.getD 0)).reverse
  have hss := Machine.ss_pushWords (aligned s g) (trapWords s.toCore i (err.getD 0)).reverse
  have hflags := Machine.flags_pushWords (aligned s g) (trapWords s.toCore i (err.getD 0)).reverse
  have hmem : (aligned s g).mem = s.mem := rfl
  have hsp := aligned_rsp s g
  rw [enter, trapEnterAll_eq, Machine.run_append, run_entry herr hroom]
  have hrsp := hpushed.rsp
  have hwords := hpushed.words
  have hbelow := hpushed.mem
  rw [hlen, hsp] at hrsp
  rw [List.reverse_reverse] at hwords
  rw [hsp, hmem] at hbelow
  generalize (aligned s g).pushWords (trapWords s.toCore i (err.getD 0)).reverse = u at *
  -- What is left: the argument and the return address.
  rw [Machine.run_cons, Machine.run_nil, Machine.exec]
  generalize hw : ({ u.setReg .rdi (u.reg .rsp) with rip := sym.returnFromIsr } : Machine) = w
  have hreg : ∀ r ≠ .rdi, w.reg r = u.reg r := fun r hr => by
    rw [← hw]
    exact Machine.reg_setReg_of_ne u _ hr
  have hrdi : w.reg .rdi = u.reg .rsp := by
    rw [← hw]
    exact Machine.reg_setReg_self u .rdi _
  have hwmem : w.mem = u.mem := by rw [← hw]; rfl
  have hcall := Machine.pushWord_pushed (s := w) sym.returnFromIsr (by rw [hreg .rsp (by decide)]; omega)
  have hexec : w.exec .call = w.pushWord sym.returnFromIsr := by rw [← hw]; rfl
  rw [hexec]
  have hcrsp := hcall.rsp
  have hcwords := hcall.words
  have hcmem := hcall.mem
  rw [List.length_singleton, hreg .rsp (by decide)] at hcrsp
  rw [hreg .rsp (by decide), hwmem] at hcmem
  have hcrdi : (w.pushWord sym.returnFromIsr).reg .rdi = u.reg .rsp := (hcall.reg .rdi (by decide)).trans hrdi
  have hccs : (w.pushWord sym.returnFromIsr).cs = u.cs := by rw [← hw]; rfl
  have hcss : (w.pushWord sym.returnFromIsr).ss = u.ss := by rw [← hw]; rfl
  have hcflags : (w.pushWord sym.returnFromIsr).flags = u.flags := by rw [← hw]; rfl
  generalize w.pushWord sym.returnFromIsr = v at *
  have hlow : (u.reg .rsp).toNat - 8 = (v.reg .rsp).toNat := by omega
  refine ⟨?_, ?_, rfl, rfl, hccs.trans hcs, hcss.trans hss, hcflags.trans hflags, ?_, fun b hb => ?_⟩
  · show (v.reg .rdi).toNat + 176 = _
    rw [hcrdi]
    exact hrsp
  · show (v.reg .rsp).toNat + 8 = (v.reg .rdi).toNat
    rw [hcrdi]
    exact hcrsp
  · show Words v.mem ((v.reg .rdi).toNat - 8) _
    rw [hcrdi, hlow]
    refine words_cons.mpr ⟨(words_cons.mp hcwords).1, ?_⟩
    rw [hcrsp]
    exact hwords.congr fun b hb _ => hcmem b (Or.inr hb)
  · have hb' : b + 8 < (u.reg .rsp).toNat ∨ (u.reg .rsp).toNat + 176 ≤ b := by
      rw [← hcrdi]
      exact hb
    show v.mem b = s.mem b
    rw [hcmem b (by omega), hbelow b (by omega)]

/-! ## Return -/

/-- `return_from_isr` over the frame of an interrupt goes on where it hit. -/
theorem run_returnFromIsr_core {s : Machine} {k : Core} {i : Nat} {err : BitVec 64}
    (hwords : Words s.mem (s.reg .rsp).toNat (trapWords k i err)) (hrsp : (s.reg .rsp).toNat + 176 < 2 ^ 64) :
    (s.run returnFromIsr).toCore = k ∧ (s.run returnFromIsr).mem = s.mem := by
  have hsplit : trapWords k i err = isrPops.map k.reg ++ ([BitVec.ofNat 64 i, err] ++
      [k.rip, k.cs.setWidth 64, k.flags, k.reg .rsp, k.ss.setWidth 64]) := rfl
  rw [hsplit, words_append, words_append, List.length_map] at hwords
  obtain ⟨hregs, _, hframe⟩ := hwords
  have hroom : (s.reg .rsp).toNat + 8 * isrPops.length < 2 ^ 64 := by
    rw [show isrPops.length = 15 by rfl]
    omega
  have hpops := Machine.run_pops isrPops (by decide) (by decide) (by rw [List.length_map]) hregs hroom
  have hsame := Machine.mem_run_pops s isrPops
  rw [returnFromIsr_eq, Machine.run_append, Machine.run_cons, Machine.run_cons, Machine.run_nil]
  generalize s.run (isrPops.map .pop) = t at hpops hsame ⊢
  have hreg : ∀ r ∈ isrPops, t.reg r = k.reg r := List.map_inj_left.mp hpops.popped
  have hsp : (t.reg .rsp).toNat = (s.reg .rsp).toNat + 8 * 15 := hpops.rsp
  have hsp' : ((t.exec (.addRsp 16)).reg .rsp).toNat = (s.reg .rsp).toNat + 8 * 15 + 8 * 2 := by
    rw [Machine.exec, Machine.reg_setReg_self, Machine.toNat_add (by omega), hsp]
  have hmem : (t.exec (.addRsp 16)).mem = s.mem := hsame
  have hret := Machine.iretq_returned (s := t.exec (.addRsp 16)) (by rw [hmem, hsp']; exact hframe)
    (by omega)
  have hcs : (k.cs.setWidth 64).setWidth 16 = k.cs := by
    rw [BitVec.setWidth_setWidth_of_le _ (by decide), BitVec.setWidth_eq]
  have hss : (k.ss.setWidth 64).setWidth 16 = k.ss := by
    rw [BitVec.setWidth_setWidth_of_le _ (by decide), BitVec.setWidth_eq]
  have hall : ((t.exec (.addRsp 16)).exec .iretq).reg = k.reg := by
    funext r
    by_cases hr : r = .rsp
    · rw [hr]
      exact hret.rsp
    · rw [hret.reg r hr, Machine.exec, Machine.reg_setReg_of_ne _ _ hr, hreg r (mem_isrPops hr)]
  refine ⟨?_, hmem⟩
  have heta : ∀ c : Core, c.reg = k.reg → c.rip = k.rip → c.flags = k.flags → c.cs = k.cs → c.ss = k.ss → c = k := by
    rintro ⟨⟩ rfl rfl rfl rfl rfl
    rfl
  exact heta _ hall hret.rip hret.flags (hret.cs.trans hcs) (hret.ss.trans hss)

/-- The handler returns to `return_from_isr`. -/
theorem leave_core {s : Machine} {sym : Symbols} {k : Core} {i : Nat} {err : BitVec 64}
    (hwords : Words s.mem (s.reg .rsp).toNat (sym.returnFromIsr :: trapWords k i err))
    (hrsp : (s.reg .rsp).toNat + 184 < 2 ^ 64) :
    (s.exec .ret).rip = sym.returnFromIsr ∧ (leave s).toCore = k ∧ (leave s).mem = s.mem := by
  obtain ⟨hrip, hframe⟩ := words_cons.mp hwords
  have hsp : ((s.exec .ret).reg .rsp).toNat = (s.reg .rsp).toNat + 8 := by
    rw [Machine.rsp_ret]
    exact Machine.toNat_add (n := 8) (by omega)
  have hret : Words (s.exec .ret).mem ((s.exec .ret).reg .rsp).toNat (trapWords k i err) := by
    rw [Machine.mem_ret, hsp]
    exact hframe
  obtain ⟨hcore, hmem⟩ := run_returnFromIsr_core hret (by omega)
  exact ⟨by rw [Machine.rip_ret, Machine.load_eq hrip], hcore, hmem⟩

/-- The frame of a new process is one of an interrupt. -/
theorem firstTrapframe_eq (kstackTop : Nat) (func : BitVec 64) :
    firstTrapframe kstackTop func = trapWords (firstCore kstackTop func) 0 0 := rfl

end Trap
end GuideOS
