import GuideOS.Lib.RealMode
import Mathlib.Data.List.Perm.Basic
import Mathlib.Tactic.Ring

/-!
# The sector loader

`load_sector` of `stage2.s`.  `bios` answers the calls of `int 0x13`, one after the other;
a call changes `CF`, `AH`, the count in the disk address block, and the memory it reads to.
The stack of the loader, its code and its data lie below `imageEnd`.
-/

namespace GuideOS
namespace Boot

open Lib Real

/-- `disk_address_block` -/
@[ext] structure DiskAddressBlock where
  length : BitVec 8
  reserved : BitVec 8
  numSectors : BitVec 16
  targetAddr : BitVec 16
  targetSeg : BitVec 16
  startBlock : BitVec 64
deriving DecidableEq, Repr

/-- The block of the image. -/
def diskAddressBlock : DiskAddressBlock := ⟨0x10, 0, 0, 0, 0, 0⟩

/-- A call of `int 0x13`, function `0x42`. -/
structure Read where
  drive : BitVec 8
  dab : DiskAddressBlock
deriving DecidableEq, Repr

structure Outcome where
  carry : Bool
  ah : BitVec 8
  numSectors : BitVec 16
  /-- what is at the target after a failure -/
  left : Bytes

/-- The address that the first sector goes to. -/
def Read.target (r : Read) : Nat := r.dab.targetSeg.toNat * 16 + r.dab.targetAddr.toNat

/-- The memory after a read, where `disk` gives the bytes of the sectors. -/
def Read.store (r : Read) (disk : Nat → Bytes) (o : Outcome) (m : Bytes) : Bytes := fun b =>
  if r.target ≤ b ∧ b < r.target + 512 * r.dab.numSectors.toNat then
    if o.carry then o.left b
    else disk (r.dab.startBlock.toNat + (b - r.target) / 512) ((b - r.target) % 512)
  else m b

structure State extends Cpu where
  dab : DiskAddressBlock
  /-- `offset disk_address_block` -/
  dabOffset : BitVec 16
  driveNumber : BitVec 32
  /-- the end of the loader's own memory -/
  imageEnd : Nat
  disk : Nat → Bytes
  reads : List Read

def State.code (s : State) (c : List Insn) : State := { s with toCpu := s.run c }

/-- A read over the loader's own memory leaves no program to go on with. -/
def int13 (bios : Nat → Outcome) (s : State) : Option State :=
  let o := bios s.reads.length
  let r : Read := ⟨(s.reg .edx).setWidth 8, s.dab⟩
  if s.imageEnd ≤ r.target then
    some { s with
      toCpu := { s.setAh o.ah with cf := o.carry, mem := r.store s.disk o s.mem }
      dab := { s.dab with numSectors := o.numSectors }
      reads := s.reads ++ [r] }
  else none

def prologue : List Insn :=
  [.push .ebp, .movBpSp, .push .esi, .push .edx, .push .eax, .push .ebx, .push .ecx]

def moreThan64 : List Insn := [.movImm .ebx 64, .subSlot 16 64]

def calcStartSector : List Insn := [.loadSlot .ecx 20, .addSlot 20 .ebx]

/-- calculate target address -/
def calcTarget : List Insn :=
  [.loadSlot .eax 12, .mov .ecx .ebx, .shl .ecx 9, .addSlot 12 .ecx, .shr .eax 4]

def magic (s : State) : List Insn :=
  [.movLow .edx (s.driveNumber.setWidth 16), .movLow .esi s.dabOffset, .movAh 0x42]

/-- The body of `loop`, up to the call. -/
def chunk (bios : Nat → Outcome) (s : State) : Option State :=
  let s := s.code [.testImm .ebx 64]
  let s := if ¬ s.cf then s.code moreThan64 else s.code [.storeSlot 16 0]
  let s := s.code calcStartSector
  let s := { s with
    dab := { s.dab with
      numSectors := (s.reg .ebx).setWidth 16
      startBlock := s.dab.startBlock.extractLsb' 32 32 ++ s.reg .ecx } }
  let s := s.code calcTarget
  let s := { s with dab := { s.dab with targetSeg := (s.reg .eax).setWidth 16 } }
  let s := s.code (magic s)
  int13 bios s

def loop (bios : Nat → Outcome) : Nat → State → Option State
  | 0, _ => none
  | fuel + 1, s => do
      let s ← chunk bios s
      if s.cf then some s
      else
        let s := s.code [.loadSlot .ebx 16, .test .ebx .ebx]
        if ¬ s.zf then loop bios fuel s else some (s.code [.xor .eax .eax])

def loadSectorEnd : List Insn :=
  [.pop .ecx, .addSp 4, .pop .ebx, .pop .edx, .pop .esi, .pop .ebp, .ret]

def loadSector (bios : Nat → Outcome) (fuel : Nat) (s : State) : Option State := do
  let s ← loop bios fuel (s.code prologue)
  return s.code loadSectorEnd

/-- The sectors of a read, with the addresses that they go to. -/
def Read.placed (r : Read) : List (Nat × Nat) :=
  (List.range r.dab.numSectors.toNat).map fun j =>
    (r.dab.startBlock.toNat + j, r.target + 512 * j)

/-- A call of `load_sector` for `n` sectors from `start` on, to `base`. -/
structure Entry (s : State) (base n start : Nat) : Prop where
  eax : (s.reg .eax).toNat = base
  ebx : (s.reg .ebx).toNat = n
  ecx : (s.reg .ecx).toNat = start
  /-- the frame fits below the stack pointer -/
  room : 24 ≤ s.sp.toNat
  stack : s.sp.toNat + 2 ≤ s.imageEnd
  targetAddr : s.dab.targetAddr = 0
  startBlock : s.dab.startBlock.extractLsb' 32 32 = 0
  reads : s.reads = []

/-- The run ended, and its reads brought the sectors. -/
structure Loads (base n start : Nat) (t : State) : Prop where
  short : ∀ r ∈ t.reads, r.dab.numSectors.toNat ≤ 64
  placed : (t.reads.flatMap Read.placed).Perm
    ((List.range n).map fun i => (start + i, base + 512 * i))
  bytes : ∀ i < n, ∀ j < 512, t.mem (base + 512 * i + j) = t.disk (start + i) j

/-- The run from `s` that ended in `t` reports the first of `calls` reads that failed. -/
structure Reports (bios : Nat → Outcome) (calls : Nat) (s t : State) : Prop where
  stops : ∀ k, k + 1 < t.reads.length → (bios k).carry = false
  goesOn : (∀ k < t.reads.length, (bios k).carry = false) → t.reads.length = calls
  carry : t.cf = true ↔ ∃ k < t.reads.length, (bios k).carry = true
  ip : t.ip = BitVec.ofNat 16 (loadLE s.mem s.sp.toNat 2)
  sp : t.sp = s.sp + 2

/-! ## The frame -/

/-- The frame of `load_sector` called from `s`: the slots hold the next target, the number
of sectors left and the next sector. -/
structure Frame (s : Cpu) (target left start : BitVec 32) (t : Cpu) : Prop where
  bp : t.bp = s.sp - 4
  sp : t.sp = s.sp - 24
  target : t.slot 12 = target
  left : t.slot 16 = left
  start : t.slot 20 = start
  above : ∀ b, s.sp.toNat ≤ b → t.mem b = s.mem b

section

variable {s t : Cpu} {target left start v : BitVec 32} {r : Reg}

theorem Frame.setReg (h : Frame s target left start t) (hr : r ≠ .ebp) :
    Frame s target left start (t.setReg r v) where
  bp := (Cpu.bp_setReg hr).trans h.bp
  sp := h.sp
  target := (Cpu.slot_setReg hr).trans h.target
  left := (Cpu.slot_setReg hr).trans h.left
  start := (Cpu.slot_setReg hr).trans h.start
  above := h.above

theorem Frame.setFlags (h : Frame s target left start t) (cf : Bool) :
    Frame s target left start (t.setFlags cf v) :=
  ⟨h.bp, h.sp, h.target, h.left, h.start, h.above⟩

theorem Frame.bp_toNat (h : Frame s target left start t) (hroom : 24 ≤ s.sp.toNat) :
    t.bp.toNat = s.sp.toNat - 4 := by
  rw [h.bp]
  exact BitVec.toNat_sub_of_le (Nat.le_trans (show 4 ≤ 24 by decide) hroom)

theorem Frame.above_setSlot (h : Frame s target left start t) (hroom : 24 ≤ s.sp.toNat) {d : BitVec 16}
    (hd : 4 ≤ d.toNat) (hd' : d.toNat ≤ 20) (v : BitVec 32) :
    ∀ b, s.sp.toNat ≤ b → (t.setSlot d v).mem b = s.mem b := by
  intro b hb
  have hbp := h.bp_toNat hroom
  rw [← h.above b hb]
  refine store32_outside (Or.inr ?_)
  rw [BitVec.toNat_sub_of_le (show d.toNat ≤ t.bp.toNat by omega)]
  omega

theorem Frame.slot_setSlot (h : Frame s target left start t) (hroom : 24 ≤ s.sp.toNat) {d d' : BitVec 16}
    (hd : d.toNat ≤ 20) (hd' : d'.toNat ≤ 20) (hne : d.toNat + 4 ≤ d'.toNat ∨ d'.toNat + 4 ≤ d.toNat) :
    (t.setSlot d v).slot d' = t.slot d' := by
  have hbp := h.bp_toNat hroom
  exact Cpu.slot_setSlot_of_ne (by omega) (by omega) hne

theorem Frame.setTarget (h : Frame s target left start t) (hroom : 24 ≤ s.sp.toNat) (v : BitVec 32) :
    Frame s v left start (t.setSlot 12 v) where
  bp := h.bp
  sp := h.sp
  target := Cpu.slot_setSlot_self ..
  left := (h.slot_setSlot hroom (by decide) (by decide) (by decide)).trans h.left
  start := (h.slot_setSlot hroom (by decide) (by decide) (by decide)).trans h.start
  above := h.above_setSlot hroom (by decide) (by decide) v

theorem Frame.setLeft (h : Frame s target left start t) (hroom : 24 ≤ s.sp.toNat) (v : BitVec 32) :
    Frame s target v start (t.setSlot 16 v) where
  bp := h.bp
  sp := h.sp
  target := (h.slot_setSlot hroom (by decide) (by decide) (by decide)).trans h.target
  left := Cpu.slot_setSlot_self ..
  start := (h.slot_setSlot hroom (by decide) (by decide) (by decide)).trans h.start
  above := h.above_setSlot hroom (by decide) (by decide) v

theorem Frame.setStart (h : Frame s target left start t) (hroom : 24 ≤ s.sp.toNat) (v : BitVec 32) :
    Frame s target left v (t.setSlot 20 v) where
  bp := h.bp
  sp := h.sp
  target := (h.slot_setSlot hroom (by decide) (by decide) (by decide)).trans h.target
  left := (h.slot_setSlot hroom (by decide) (by decide) (by decide)).trans h.left
  start := Cpu.slot_setSlot_self ..
  above := h.above_setSlot hroom (by decide) (by decide) v

/-- The six pushes. -/
theorem frame_prologue (s : Cpu) (hroom : 24 ≤ s.sp.toNat) :
    Frame s (s.reg .eax) (s.reg .ebx) (s.reg .ecx) (s.run prologue) := by
  have hbp : (s.run prologue).bp = s.sp - 4 := Cpu.bp_setLow_ebp ..
  have hslot : ∀ (m : Bytes) (v : BitVec 32) {a b : BitVec 16}, a = b →
      load32 (store32 m a.toNat v) b.toNat = v := by
    rintro m v a _ rfl
    exact load32_store32 m a.toNat v
  -- the double words pushed after the saved `ebp` and `esi`
  have hmem : ∃ m, (s.run prologue).mem =
      store32 (store32 (store32 m (s.sp - 16).toNat (s.reg .eax)) (s.sp - 20).toNat (s.reg .ebx))
        (s.sp - 24).toNat (s.reg .ecx) ∧ ∀ b, s.sp.toNat ≤ b → m b = s.mem b := by
    refine ⟨store32 (store32 (store32 s.mem (s.sp - 4).toNat (s.reg .ebp)) (s.sp - 4 - 4).toNat
      (s.reg .esi)) (s.sp - 4 - 4 - 4).toNat (s.reg .edx), ?_, fun b hb => ?_⟩
    · rw [show s.sp - 16 = s.sp - 4 - 4 - 4 - 4 by bv_omega, show s.sp - 20 = s.sp - 4 - 4 - 4 - 4 - 4 by bv_omega,
        show s.sp - 24 = s.sp - 4 - 4 - 4 - 4 - 4 - 4 by bv_omega]
      rfl
    · rw [store32_outside (by bv_omega), store32_outside (by bv_omega), store32_outside (by bv_omega)]
  obtain ⟨m, hmem, habove⟩ := hmem
  refine ⟨hbp, ?_, ?_, ?_, ?_, fun b hb => ?_⟩
  · show s.sp - 4 - 4 - 4 - 4 - 4 - 4 = s.sp - 24
    bv_omega
  · rw [Cpu.slot, hbp, hmem, load32_store32_ne (by bv_omega), load32_store32_ne (by bv_omega)]
    exact hslot _ _ (by bv_omega)
  · rw [Cpu.slot, hbp, hmem, load32_store32_ne (by bv_omega)]
    exact hslot _ _ (by bv_omega)
  · rw [Cpu.slot, hbp, hmem]
    exact hslot _ _ (by bv_omega)
  · rw [hmem, store32_outside (by bv_omega), store32_outside (by bv_omega), store32_outside (by bv_omega),
      habove b hb]

/-- `add sp, 4` leaves `CF` clear, and no instruction after it sets the flag. -/
theorem Frame.loadSectorEnd (h : Frame s target left start t) (hroom : 24 ≤ s.sp.toNat) :
    (t.run loadSectorEnd).cf = false ∧ (t.run loadSectorEnd).sp = s.sp + 2 ∧
      (t.run loadSectorEnd).ip = BitVec.ofNat 16 (loadLE s.mem s.sp.toNat 2) := by
  have hsp : t.sp + 4 + 4 + 4 + 4 + 4 + 4 = s.sp := by
    rw [h.sp]
    bv_omega
  refine ⟨?_, ?_, ?_⟩
  · show decide (2 ^ 16 ≤ (t.sp + 4).toNat + 4) = false
    rw [h.sp]
    exact decide_eq_false (by bv_omega)
  · show t.sp + 4 + 4 + 4 + 4 + 4 + 4 + 2 = s.sp + 2
    rw [hsp]
  · show BitVec.ofNat 16 (loadLE t.mem (t.sp + 4 + 4 + 4 + 4 + 4 + 4).toNat 2) = _
    rw [hsp, loadLE_congr fun b hb _ => h.above b hb]

theorem Frame.moreThan64 (h : Frame s target left start t) (hroom : 24 ≤ s.sp.toNat) :
    Frame s target (left - 64) start (t.run moreThan64) ∧ (t.run moreThan64).reg .ebx = 64 := by
  have hset : Frame s target left start (t.setReg .ebx 64) := h.setReg (by decide)
  refine ⟨?_, Cpu.reg_setReg_self t .ebx 64⟩
  rw [← hset.left]
  exact (hset.setLeft hroom _).setFlags _

theorem Frame.calcStartSector (h : Frame s target left start t) (hroom : 24 ≤ s.sp.toNat)
    (hebx : t.reg .ebx = 64) :
    Frame s target left (start + 64) (t.run calcStartSector) ∧ (t.run calcStartSector).reg .ebx = 64 ∧
      (t.run calcStartSector).reg .ecx = start := by
  have hset : Frame s target left start (t.setReg .ecx (t.slot 20)) := h.setReg (by decide)
  have hkept : (t.setReg .ecx (t.slot 20)).reg .ebx = 64 :=
    (Cpu.reg_setReg_of_ne (by decide)).trans hebx
  refine ⟨?_, hkept, (Cpu.reg_setReg_self t .ecx _).trans h.start⟩
  rw [← hset.start, ← hkept]
  exact (hset.setStart hroom _).setFlags _

theorem Frame.calcTarget (h : Frame s target left start t) (hroom : 24 ≤ s.sp.toNat)
    (hebx : t.reg .ebx = 64) :
    Frame s (target + 32768) left start (t.run calcTarget) ∧
      (t.run calcTarget).reg .eax = target >>> 4 := by
  let t₁ := t.setReg .eax (t.slot 12)
  let t₂ := t₁.setReg .ecx (t₁.reg .ebx)
  let t₃ := (t₂.setReg .ecx (t₂.reg .ecx <<< 9)).setFlags ((t₂.reg .ecx).getLsbD (32 - 9)) (t₂.reg .ecx <<< 9)
  have h₁ : Frame s target left start t₁ := h.setReg (by decide)
  have h₃ : Frame s target left start t₃ := ((h₁.setReg (by decide)).setReg (by decide)).setFlags _
  have hecx : t₃.reg .ecx = 32768 := by
    have hebx₁ : t₁.reg .ebx = 64 := (Cpu.reg_setReg_of_ne (by decide)).trans hebx
    have hecx₂ : t₂.reg .ecx = 64 := (Cpu.reg_setReg_self ..).trans hebx₁
    have hshl : t₃.reg .ecx = t₂.reg .ecx <<< 9 := Cpu.reg_setReg_self t₂ .ecx _
    rw [hshl, hecx₂]
    decide
  have heax : t₃.reg .eax = target := by
    have h₁₂ : t₂.reg .eax = t₁.reg .eax := Cpu.reg_setReg_of_ne (by decide)
    have h₂₃ : (t₂.setReg .ecx (t₂.reg .ecx <<< 9)).reg .eax = t₂.reg .eax := Cpu.reg_setReg_of_ne (by decide)
    exact h₂₃.trans (h₁₂.trans ((Cpu.reg_setReg_self ..).trans h.target))
  refine ⟨?_, ?_⟩
  · rw [← h₃.target, ← hecx]
    exact ((((h₃.setTarget hroom _).setFlags _).setReg (by decide)).setFlags _)
  · rw [← heax]
    exact Cpu.reg_setReg_self (t₃.exec (.addSlot 12 .ecx)) .eax (t₃.reg .eax >>> 4)

theorem Frame.magic {u : State} (h : Frame s target left start t) :
    Frame s target left start (t.run (magic u)) ∧
      ((t.run (Boot.magic u)).reg .edx).setWidth 8 = u.driveNumber.setWidth 8 := by
  refine ⟨((h.setReg (by decide)).setReg (by decide)).setReg (by decide), ?_⟩
  have hkept : (t.run (Boot.magic u)).reg .edx = (t.setLow .edx (u.driveNumber.setWidth 16)).reg .edx :=
    (Cpu.reg_setReg_of_ne (by decide)).trans (Cpu.reg_setReg_of_ne (by decide))
  have hlow : ∀ a w : BitVec 16, (a ++ w).setWidth 8 = w.setWidth 8 := fun a w => by
    rw [← BitVec.setWidth_setWidth_of_le (a ++ w) (show 8 ≤ 16 by decide), Cpu.append_setWidth]
  rw [hkept, Cpu.setLow, Cpu.reg_setReg_self]
  exact (hlow _ _).trans (BitVec.setWidth_setWidth_of_le _ (by decide))

theorem Read.store_below {r : Read} {disk : Nat → Bytes} {o : Outcome} {m : Bytes} {b : Nat} (hb : b < r.target) :
    r.store disk o m b = m b :=
  if_neg fun h => absurd h.1 (Nat.not_le_of_lt hb)

/-- A call of `int 0x13` leaves the frame alone. -/
theorem Frame.outcome (h : Frame s target left start t) (hroom : 24 ≤ s.sp.toNat) {r : Read}
    (hr : s.sp.toNat ≤ r.target) (disk : Nat → Bytes) (o : Outcome) :
    Frame { s with mem := r.store disk o s.mem } target left start
      { t.setAh o.ah with cf := o.carry, mem := r.store disk o t.mem } := by
  have hah : Frame s target left start (t.setAh o.ah) := h.setReg (by decide)
  have hbp := hah.bp_toNat hroom
  have hslot : ∀ d : BitVec 16, 4 ≤ d.toNat → d.toNat ≤ 20 →
      load32 (r.store disk o t.mem) ((t.setAh o.ah).bp - d).toNat = (t.setAh o.ah).slot d := by
    intro d hd hd'
    refine load32_congr fun b _ hb => Read.store_below ?_
    rw [BitVec.toNat_sub_of_le (show d.toNat ≤ (t.setAh o.ah).bp.toNat by omega)] at hb
    omega
  refine ⟨hah.bp, hah.sp, (hslot 12 (by decide) (by decide)).trans hah.target,
    (hslot 16 (by decide) (by decide)).trans hah.left, (hslot 20 (by decide) (by decide)).trans hah.start,
    fun b hb => ?_⟩
  have hsame : t.mem b = s.mem b := h.above b hb
  show r.store disk o t.mem b = r.store disk o s.mem b
  rw [Read.store, Read.store, hsame]

end

/-! ## The reads -/

/-- The read `k` of a run from `s`. -/
def readAt (s : State) (k : Nat) : Read where
  drive := s.driveNumber.setWidth 8
  dab := { s.dab with
    numSectors := 64
    targetSeg := ((s.reg .eax + BitVec.ofNat 32 (32768 * k)) >>> 4).setWidth 16
    startBlock := s.dab.startBlock.extractLsb' 32 32 ++ (s.reg .ecx + BitVec.ofNat 32 (64 * k)) }

/-- The memory after `k` reads, but for the frame. -/
def brought (bios : Nat → Outcome) (s : State) : Nat → Bytes
  | 0 => s.mem
  | k + 1 => (readAt s k).store s.disk (bios k) (brought bios s k)

/-- The entry state, with the memory after `k` reads. -/
def State.after (bios : Nat → Outcome) (s : State) (k : Nat) : Cpu := { s.toCpu with mem := brought bios s k }

/-- Between the chunks, after `k` of them. -/
structure Loaded (bios : Nat → Outcome) (s : State) (k : Nat) (t : State) : Prop where
  frame : Frame (s.after bios k) (s.reg .eax + BitVec.ofNat 32 (32768 * k)) (s.reg .ebx - BitVec.ofNat 32 (64 * k))
    (s.reg .ecx + BitVec.ofNat 32 (64 * k)) t.toCpu
  reads : t.reads = (List.range k).map (readAt s)
  /-- no read was over the loader -/
  clear : ∀ i < k, s.imageEnd ≤ (readAt s i).target
  driveNumber : t.driveNumber = s.driveNumber
  imageEnd : t.imageEnd = s.imageEnd
  disk : t.disk = s.disk
  length : t.dab.length = s.dab.length
  reserved : t.dab.reserved = s.dab.reserved
  targetAddr : t.dab.targetAddr = s.dab.targetAddr
  startBlock : t.dab.startBlock.extractLsb' 32 32 = s.dab.startBlock.extractLsb' 32 32

section

variable {bios : Nat → Outcome} {s t : State} {k : Nat}

theorem high_append (a b : BitVec 32) : (a ++ b).extractLsb' 32 32 = a := by
  refine BitVec.eq_of_getLsbD_eq fun i hi => ?_
  rw [BitVec.getLsbD_extractLsb', decide_eq_true hi, Bool.true_and, BitVec.getLsbD_append,
    if_neg (by omega), Nat.add_sub_cancel_left]

/-- `test` clears `CF`, so that `jae` always jumps. -/
theorem chunk_eq (bios : Nat → Outcome) (t : State) :
    chunk bios t = int13 bios
      (let s := (t.code [.testImm .ebx 64]).code moreThan64
       let s := s.code calcStartSector
       let s := { s with
         dab := { s.dab with
           numSectors := (s.reg .ebx).setWidth 16
           startBlock := s.dab.startBlock.extractLsb' 32 32 ++ s.reg .ecx } }
       let s := s.code calcTarget
       let s := { s with dab := { s.dab with targetSeg := (s.reg .eax).setWidth 16 } }
       s.code (magic s)) := by
  rw [chunk, if_pos (show ¬ (t.code [.testImm .ebx 64]).cf = true from Bool.false_ne_true)]

/-- The state of a chunk that makes its call. -/
theorem Loaded.called (h : Loaded bios s k t) (hroom : 24 ≤ s.sp.toNat) :
    ∃ u : State, chunk bios t = int13 bios u ∧ u.reads = t.reads ∧ u.imageEnd = t.imageEnd ∧ u.disk = t.disk ∧
      u.driveNumber = t.driveNumber ∧ (⟨(u.reg .edx).setWidth 8, u.dab⟩ : Read) = readAt s k ∧
      Frame (s.after bios k) (s.reg .eax + BitVec.ofNat 32 (32768 * (k + 1)))
        (s.reg .ebx - BitVec.ofNat 32 (64 * (k + 1))) (s.reg .ecx + BitVec.ofNat 32 (64 * (k + 1))) u.toCpu := by
  obtain ⟨h₂, hebx₂⟩ := (h.frame.setFlags false (v := t.reg .ebx &&& 64)).moreThan64 hroom
  obtain ⟨h₃, hebx₃, hecx₃⟩ := h₂.calcStartSector hroom hebx₂
  obtain ⟨h₄, heax₄⟩ := h₃.calcTarget hroom hebx₃
  obtain ⟨h₅, hedx₅⟩ := h₄.magic (u := t)
  refine ⟨_, chunk_eq bios t, rfl, rfl, rfl, rfl, ?_, ?_⟩
  · have hdrive := hedx₅.trans (congrArg (BitVec.setWidth 8) h.driveNumber)
    have hdab : t.dab.startBlock.extractLsb' 32 32 ++ (s.reg .ecx + BitVec.ofNat 32 (64 * k)) =
        (readAt s k).dab.startBlock := by
      rw [h.startBlock]
      rfl
    exact congr (congrArg Read.mk hdrive) (DiskAddressBlock.ext h.length
      h.reserved (congrArg (BitVec.setWidth 16) hebx₃) h.targetAddr (congrArg (BitVec.setWidth 16) heax₄)
      ((congrArg (t.dab.startBlock.extractLsb' 32 32 ++ ·) hecx₃).trans hdab))
  · have hleft : ∀ a b : BitVec 32, a - (b + 64#32) = a - b - 64#32 := fun a b => by bv_omega
    rw [Nat.mul_succ, Nat.mul_succ, BitVec.ofNat_add, BitVec.ofNat_add, ← BitVec.add_assoc,
      ← BitVec.add_assoc, hleft]
    exact h₅

/-- A chunk whose read is not over the loader. -/
theorem Loaded.chunk (h : Loaded bios s k t) (hroom : 24 ≤ s.sp.toNat) (hstack : s.sp.toNat + 2 ≤ s.imageEnd)
    (hclear : s.imageEnd ≤ (readAt s k).target) :
    ∃ u, chunk bios t = some u ∧ Loaded bios s (k + 1) u ∧ u.cf = (bios k).carry := by
  obtain ⟨u, hcall, hreads, hend, hdisk, hdrive, hread, hframe⟩ := h.called hroom
  have hcount : u.reads.length = k := by rw [hreads, h.reads, List.length_map, List.length_range]
  have hdab : u.dab = (readAt s k).dab := congrArg Read.dab hread
  let v : State := { u with
    toCpu := { u.setAh (bios k).ah with
      cf := (bios k).carry
      mem := (readAt s k).store s.disk (bios k) u.mem }
    dab := { u.dab with numSectors := (bios k).numSectors }
    imageEnd := s.imageEnd
    disk := s.disk
    reads := u.reads ++ [readAt s k] }
  have hrun : Boot.chunk bios t = some v := by
    rw [hcall, int13]
    simp only [hread, hcount, hend, h.imageEnd, hdisk, h.disk]
    rw [if_pos hclear]
  refine ⟨v, hrun, ⟨?_, ?_, fun i hi => ?_, hdrive.trans h.driveNumber, rfl, rfl, congrArg (·.length) hdab,
    congrArg (·.reserved) hdab, congrArg (·.targetAddr) hdab, ?_⟩, rfl⟩
  · exact hframe.outcome hroom (by show s.sp.toNat ≤ _; omega) s.disk (bios k)
  · rw [List.range_succ, List.map_append, ← h.reads, ← hreads]
    rfl
  · rcases Nat.eq_or_lt_of_le (Nat.le_of_lt_succ hi) with rfl | hlt
    · exact hclear
    · exact h.clear i hlt
  · show u.dab.startBlock.extractLsb' 32 32 = _
    rw [hdab]
    exact high_append _ _

/-- Over the loader nothing is left to run. -/
theorem Loaded.chunk_over (h : Loaded bios s k t) (hroom : 24 ≤ s.sp.toNat)
    (hover : ¬ s.imageEnd ≤ (readAt s k).target) : Boot.chunk bios t = none := by
  obtain ⟨u, hcall, -, hend, -, -, hread, -⟩ := h.called hroom
  rw [hcall, int13]
  simp only [hread, hend, h.imageEnd]
  rw [if_neg hover]

theorem Loaded.withCpu (h : Loaded bios s k t) {c : Cpu}
    (hc : Frame (s.after bios k) (s.reg .eax + BitVec.ofNat 32 (32768 * k)) (s.reg .ebx - BitVec.ofNat 32 (64 * k))
      (s.reg .ecx + BitVec.ofNat 32 (64 * k)) c) : Loaded bios s k { t with toCpu := c } :=
  ⟨hc, h.reads, h.clear, h.driveNumber, h.imageEnd, h.disk, h.length, h.reserved, h.targetAddr, h.startBlock⟩

theorem loaded_prologue (bios : Nat → Outcome) (s : State) (hroom : 24 ≤ s.sp.toNat) (hreads : s.reads = []) :
    Loaded bios s 0 (s.code prologue) := by
  refine ⟨?_, hreads, fun i hi => absurd hi (Nat.not_lt_zero i), rfl, rfl, rfl, rfl, rfl, rfl, rfl⟩
  rw [BitVec.add_zero, BitVec.sub_zero, BitVec.add_zero]
  exact frame_prologue s.toCpu hroom

/-- One turn of the loop. -/
theorem loop_succ (h : Loaded bios s k t) (hroom : 24 ≤ s.sp.toNat) (hstack : s.sp.toNat + 2 ≤ s.imageEnd)
    (hclear : s.imageEnd ≤ (readAt s k).target) :
    ∃ u, Loaded bios s (k + 1) u ∧ ∀ fuel, loop bios (fuel + 1) t =
      if (bios k).carry = true ∨ s.reg .ebx = BitVec.ofNat 32 (64 * (k + 1)) then some u
      else loop bios fuel u := by
  obtain ⟨c, hchunk, hload, hcf⟩ := h.chunk hroom hstack hclear
  by_cases hcarry : (bios k).carry = true
  · refine ⟨c, hload, fun fuel => ?_⟩
    rw [if_pos (Or.inl hcarry), loop, hchunk]
    exact if_pos (hcf.trans hcarry)
  · let u := c.code [.loadSlot .ebx 16, .test .ebx .ebx]
    have hebx : u.reg .ebx = s.reg .ebx - BitVec.ofNat 32 (64 * (k + 1)) :=
      (Cpu.reg_setReg_self c.toCpu .ebx (c.slot 16)).trans hload.frame.left
    have hzf : u.zf = true ↔ s.reg .ebx = BitVec.ofNat 32 (64 * (k + 1)) := by
      have htest : u.zf = (u.reg .ebx &&& u.reg .ebx == 0) := rfl
      rw [htest, BitVec.and_self, beq_iff_eq, hebx]
      generalize s.reg .ebx = n, BitVec.ofNat 32 (64 * (k + 1)) = m
      constructor <;> intro hz <;> bv_omega
    have hgoes : ¬ c.cf = true := by rwa [hcf]
    have hu : Loaded bios s (k + 1) u := hload.withCpu ((hload.frame.setReg (by decide)).setFlags _)
    by_cases hlast : s.reg .ebx = BitVec.ofNat 32 (64 * (k + 1))
    · refine ⟨u.code [.xor .eax .eax], hu.withCpu ((hu.frame.setReg (by decide)).setFlags _),
        fun fuel => ?_⟩
      rw [if_pos (Or.inr hlast), loop, hchunk]
      exact (if_neg hgoes).trans (if_neg (not_not_intro (hzf.mpr hlast)))
    · refine ⟨u, hu, fun fuel => ?_⟩
      rw [if_neg (not_or.mpr ⟨hcarry, hlast⟩), loop, hchunk]
      exact (if_neg hgoes).trans (if_pos (mt hzf.mp hlast))

theorem loop_over (h : Loaded bios s k t) (hroom : 24 ≤ s.sp.toNat)
    (hover : ¬ s.imageEnd ≤ (readAt s k).target) (fuel : Nat) : loop bios fuel t = none := by
  cases fuel with
  | zero => rfl
  | succ fuel =>
      rw [loop, h.chunk_over hroom hover]
      rfl

/-- A run of the loop that ends, ends between two chunks. -/
theorem loop_frame (hroom : 24 ≤ s.sp.toNat) (hstack : s.sp.toNat + 2 ≤ s.imageEnd) {fuel : Nat} {u : State}
    (h : Loaded bios s k t) (hrun : loop bios fuel t = some u) : ∃ j, Loaded bios s j u := by
  induction fuel generalizing k t with
  | zero => cases hrun
  | succ fuel ih =>
      by_cases hclear : s.imageEnd ≤ (readAt s k).target
      · obtain ⟨u', hu', hstep⟩ := loop_succ h hroom hstack hclear
        rw [hstep] at hrun
        split at hrun
        · cases hrun
          exact ⟨k + 1, hu'⟩
        · exact ih hu' hrun
      · rw [loop_over h hroom hclear] at hrun
        cases hrun

/-- For a multiple of 64 sectors the loop ends with the last chunk or the first failure. -/
theorem loop_returns (hroom : 24 ≤ s.sp.toNat) (hstack : s.sp.toNat + 2 ≤ s.imageEnd) {m : Nat}
    (hn : (s.reg .ebx).toNat = 64 * m) (h : Loaded bios s k t) (hk : k < m)
    (hclear : ∀ i, k ≤ i → i < m → (∀ j, k ≤ j → j < i → (bios j).carry = false) →
      s.imageEnd ≤ (readAt s i).target) :
    ∃ fuel u j, loop bios fuel t = some u ∧ Loaded bios s j u ∧ k < j ∧ j ≤ m ∧
      (∀ i, k ≤ i → i + 1 < j → (bios i).carry = false) ∧ (j = m ∨ (bios (j - 1)).carry = true) := by
  have hlt := (s.reg .ebx).isLt
  induction hleft : m - k generalizing k t with
  | zero => omega
  | succ left ih =>
      have hstop : s.reg .ebx = BitVec.ofNat 32 (64 * (k + 1)) ↔ k + 1 = m := by
        rw [← BitVec.toNat_inj, BitVec.toNat_ofNat, Nat.mod_eq_of_lt (by omega)]
        omega
      obtain ⟨u, hu, hstep⟩ := loop_succ h hroom hstack
        (hclear k (Nat.le_refl k) hk fun j hj hj' => absurd hj (Nat.not_le_of_lt hj'))
      by_cases hexit : (bios k).carry = true ∨ s.reg .ebx = BitVec.ofNat 32 (64 * (k + 1))
      · refine ⟨1, u, k + 1, (hstep 0).trans (if_pos hexit), hu, by omega, by omega,
          fun i hi hi' => by omega, hexit.symm.imp hstop.mp id⟩
      · obtain ⟨hcarry, hmore⟩ := not_or.mp hexit
        have hsuccess : (bios k).carry = false := Bool.eq_false_of_not_eq_true hcarry
        have hk' : k + 1 < m := by
          have hne := mt hstop.mpr hmore
          omega
        have hclear' : ∀ i, k + 1 ≤ i → i < m → (∀ j, k + 1 ≤ j → j < i → (bios j).carry = false) →
            s.imageEnd ≤ (readAt s i).target := by
          intro i hi him hok
          refine hclear i (by omega) him fun j hj hj' => ?_
          rcases Nat.eq_or_lt_of_le hj with rfl | hj
          · exact hsuccess
          · exact hok j hj hj'
        obtain ⟨fuel, u', j, hrun, hu', hkj, hjm, hok, hend⟩ := ih hu hk' hclear' (by omega)
        refine ⟨fuel + 1, u', j, ?_, hu', by omega, hjm, fun i hi hi' => ?_, hend⟩
        · rw [hstep, if_neg hexit, hrun]
        · rcases Nat.eq_or_lt_of_le hi with rfl | hi
          · exact hsuccess
          · exact hok i hi hi'

/-- Without a failure the loop ends for a multiple of 64 sectors only. -/
theorem loop_none (hok : ∀ k, (bios k).carry = false) (hroom : 24 ≤ s.sp.toNat)
    (hstack : s.sp.toNat + 2 ≤ s.imageEnd) (hn : ¬64 ∣ (s.reg .ebx).toNat) (h : Loaded bios s k t) (fuel : Nat) :
    loop bios fuel t = none := by
  induction fuel generalizing k t with
  | zero => rfl
  | succ fuel ih =>
      by_cases hclear : s.imageEnd ≤ (readAt s k).target
      · obtain ⟨u, hu, hstep⟩ := loop_succ h hroom hstack hclear
        have hne : s.reg .ebx ≠ BitVec.ofNat 32 (64 * (k + 1)) := by
          intro heq
          rw [heq, BitVec.toNat_ofNat] at hn
          omega
        rw [hstep, if_neg (not_or.mpr ⟨by rw [hok]; exact Bool.false_ne_true, hne⟩)]
        exact ih hu
      · exact loop_over h hroom hclear _

theorem loadSector_eq (bios : Nat → Outcome) (fuel : Nat) (s : State) :
    loadSector bios fuel s = (loop bios fuel (s.code prologue)).map (·.code loadSectorEnd) := by
  rw [loadSector]
  cases loop bios fuel (s.code prologue) <;> rfl

theorem high_zero_append (a b : BitVec 32) (ha : a = 0) : (a ++ b).toNat = b.toNat := by
  rw [BitVec.toNat_append, ha]
  simp

/-- Where the read `k` goes. -/
theorem target_readAt {base n start k : Nat} (hs : Entry s base n start) (hbase : 16 ∣ base)
    (hfit : base + 32768 * k < 2 ^ 20) : (readAt s k).target = base + 32768 * k := by
  have hseg : (readAt s k).dab.targetSeg.toNat * 16 = base + 32768 * k := by
    show (((s.reg .eax + BitVec.ofNat 32 (32768 * k)) >>> 4).setWidth 16).toNat * 16 = _
    rw [BitVec.toNat_setWidth, BitVec.toNat_ushiftRight, BitVec.toNat_add, hs.eax, BitVec.toNat_ofNat,
      Nat.shiftRight_eq_div_pow]
    omega
  have haddr : (readAt s k).dab.targetAddr.toNat = 0 := by
    show s.dab.targetAddr.toNat = 0
    rw [hs.targetAddr]
    rfl
  rw [Read.target, hseg, haddr, Nat.add_zero]

/-- The first sector of the read `k`. -/
theorem startBlock_readAt {base n start k : Nat} (hs : Entry s base n start) (hstart : start + 64 * k < 2 ^ 32) :
    (readAt s k).dab.startBlock.toNat = start + 64 * k := by
  refine (high_zero_append _ _ hs.startBlock).trans ?_
  rw [BitVec.toNat_add, hs.ecx, BitVec.toNat_ofNat]
  omega

/-- The sectors of the read `k`. -/
theorem placed_readAt {base n start m : Nat} (hs : Entry s base n start) (hbase : 16 ∣ base) (hn : n = 64 * m)
    (hfit : base + 512 * n ≤ 2 ^ 20) (hstart : start + n < 2 ^ 32) (hk : k < m) :
    (readAt s k).placed =
      (List.range 64).map fun j => (start + (64 * k + j), base + 512 * (64 * k + j)) := by
  have hnum : (readAt s k).dab.numSectors.toNat = 64 := rfl
  rw [Read.placed, startBlock_readAt hs (by omega), target_readAt hs hbase (by omega), hnum]
  refine List.map_congr_left fun j hj => ?_
  rw [show base + 32768 * k + 512 * j = base + 512 * (64 * k + j) by omega, Nat.add_assoc]

/-- The reads that succeed bring the sectors to their places. -/
theorem brought_eq {base n start m : Nat} (hs : Entry s base n start) (hbase : 16 ∣ base) (hn : n = 64 * m)
    (hfit : base + 512 * n ≤ 2 ^ 20) (hstart : start + n < 2 ^ 32) (hok : ∀ k, (bios k).carry = false)
    (hk : k ≤ m) : ∀ i < 64 * k, ∀ j < 512, brought bios s k (base + 512 * i + j) = s.disk (start + i) j := by
  induction k with
  | zero => exact fun i hi => absurd hi (Nat.not_lt_zero i)
  | succ k ih =>
      intro i hi j hj
      have hnum : (readAt s k).dab.numSectors.toNat = 64 := rfl
      have htarget := target_readAt (k := k) hs hbase (by omega)
      rw [brought]
      by_cases hold : i < 64 * k
      · rw [Read.store_below (by omega)]
        exact ih (by omega) i hold j hj
      · rw [Read.store, htarget, hnum, if_pos (by omega), hok, if_neg Bool.false_ne_true,
          startBlock_readAt hs (by omega), show start + 64 * k + (base + 512 * i + j - (base + 32768 * k)) / 512 =
          start + i by omega, show (base + 512 * i + j - (base + 32768 * k)) % 512 = j by omega]

theorem flatMap_placed {base n start m : Nat} (hs : Entry s base n start) (hbase : 16 ∣ base) (hn : n = 64 * m)
    (hfit : base + 512 * n ≤ 2 ^ 20) (hstart : start + n < 2 ^ 32) {k : Nat} (hk : k ≤ m) :
    ((List.range k).map (readAt s)).flatMap Read.placed =
      (List.range (64 * k)).map fun i => (start + i, base + 512 * i) := by
  induction k with
  | zero => rfl
  | succ k ih =>
      rw [List.range_succ, List.map_append, List.flatMap_append, ih (by omega), List.map_singleton,
        List.flatMap_singleton, placed_readAt hs hbase hn hfit hstart hk, Nat.mul_succ, List.range_add,
        List.map_append, List.map_map]
      rfl

/-- **Sector loading.**  To a target apart from the loader's own memory, `load_sector` brings
the sectors asked for exactly when their number is a multiple of 64. -/
theorem loadSector_loads_iff {base n start : Nat} (hs : Entry s base n start) (hbase : 16 ∣ base) (hn : 1 ≤ n)
    (hfit : base + 512 * n ≤ 2 ^ 20) (hstart : start + n < 2 ^ 32) (hapart : s.imageEnd ≤ base)
    (hok : ∀ k, (bios k).carry = false) :
    (∃ fuel t, loadSector bios fuel s = some t ∧ Loads base n start t) ↔ 64 ∣ n := by
  have hload := loaded_prologue bios s hs.room hs.reads
  constructor
  · rintro ⟨fuel, t, hrun, -⟩
    by_contra hdvd
    rw [loadSector_eq, loop_none hok hs.room hs.stack (by rwa [hs.ebx]) hload] at hrun
    cases hrun
  · rintro ⟨m, hm⟩
    have hclear : ∀ i, 0 ≤ i → i < m → (∀ j, 0 ≤ j → j < i → (bios j).carry = false) →
        s.imageEnd ≤ (readAt s i).target := by
      intro i _ hi _
      rw [target_readAt hs hbase (by omega)]
      omega
    obtain ⟨fuel, u, j, hrun, hu, -, -, -, hend⟩ :=
      loop_returns hs.room hs.stack (hs.ebx.trans hm) hload (by omega) hclear
    have hj : j = m := hend.resolve_right (by rw [hok]; exact Bool.false_ne_true)
    subst hj
    have hreads : (u.code loadSectorEnd).reads = (List.range j).map (readAt s) := hu.reads
    have hmem : (u.code loadSectorEnd).mem = u.mem := rfl
    have hdisk : (u.code loadSectorEnd).disk = s.disk := hu.disk
    refine ⟨fuel, u.code loadSectorEnd, by rw [loadSector_eq, hrun]; rfl, fun r hr => ?_, ?_, fun i hi k hk => ?_⟩
    · rw [hreads] at hr
      obtain ⟨k, -, rfl⟩ := List.mem_map.mp hr
      exact Nat.le_refl 64
    · rw [hreads, flatMap_placed hs hbase hm hfit hstart (Nat.le_refl j), ← hm]
    · have hstack := hs.stack
      have hsame : u.mem (base + 512 * i + k) = brought bios s j (base + 512 * i + k) :=
        hu.frame.above _ (by show s.sp.toNat ≤ _; omega)
      rw [hmem, hdisk, hsame]
      exact brought_eq hs hbase hm hfit hstart hok (Nat.le_refl j) i (by omega) k hk

end

/-- The call of `stage2`, for `n` sectors. -/
def stage2Call (n : BitVec 32) : State where
  reg
    | .eax => 0x10000
    | .ebx => n
    | .ecx => 1 + 64
    | _ => 0x80
  sp := 0x7DFE
  ip := 0x7E20
  cf := false
  zf := false
  mem := fun _ => 0
  dab := diskAddressBlock
  dabOffset := 0x7EC0
  driveNumber := 0x80
  imageEnd := 0xFE00
  disk := fun sector _ => BitVec.ofNat 8 sector
  reads := []

def succeeds (_ : Nat) : Outcome := ⟨false, 0, 64, fun _ => 0⟩

def failsAt (k i : Nat) : Outcome := if i = k then ⟨true, 1, 0, fun _ => 0⟩ else succeeds i

theorem entry_stage2 {n : Nat} (hn : n < 2 ^ 32) : Entry (stage2Call (BitVec.ofNat 32 n)) 0x10000 n 65 where
  eax := rfl
  ebx := (BitVec.toNat_ofNat n 32).trans (Nat.mod_eq_of_lt hn)
  ecx := rfl
  room := show 24 ≤ (0x7DFE : BitVec 16).toNat by decide
  stack := show (0x7DFE : BitVec 16).toNat + 2 ≤ 0xFE00 by decide
  targetAddr := rfl
  startBlock := show BitVec.extractLsb' 32 32 (0 : BitVec 64) = 0 by decide
  reads := rfl

theorem loadSector_loads_stage2 :
    (∃ fuel t, loadSector succeeds fuel (stage2Call 512) = some t ∧ Loads 0x10000 512 65 t) ↔ 64 ∣ 512 :=
  loadSector_loads_iff (entry_stage2 (by decide)) (by decide) (by decide) (by decide) (by decide) (by decide)
    fun _ => rfl

/-- One sector is never loaded. -/
theorem not_loads_one : Entry (stage2Call 1) 0x10000 1 65 ∧ 16 ∣ 0x10000 ∧ 0x10000 + 512 * 1 ≤ 2 ^ 20 ∧
    65 + 1 < 2 ^ 32 ∧ (stage2Call 1).imageEnd ≤ 0x10000 ∧ (∀ k, (succeeds k).carry = false) ∧
    ¬∃ fuel t, loadSector succeeds fuel (stage2Call 1) = some t ∧ Loads 0x10000 1 65 t := by
  have hs : Entry (stage2Call 1) 0x10000 1 65 := entry_stage2 (by decide)
  refine ⟨hs, by decide, by decide, by decide, by decide, fun _ => rfl, ?_⟩
  rintro ⟨fuel, t, hrun, -⟩
  have hok : ∀ k, (succeeds k).carry = false := fun _ => rfl
  have hnone := loop_none hok hs.room hs.stack (by decide) (loaded_prologue _ _ hs.room hs.reads) fuel
  rw [loadSector_eq, hnone] at hrun
  cases hrun

/-! ## The flag -/

section

variable {bios : Nat → Outcome} {s t : State} {fuel : Nat}

/-- The reads leave what lies below the end of the loader alone. -/
theorem brought_below (s : State) {k b : Nat} (hclear : ∀ i < k, s.imageEnd ≤ (readAt s i).target)
    (hb : b < s.imageEnd) : brought bios s k b = s.mem b := by
  induction k with
  | zero => rfl
  | succ k ih =>
      rw [brought, Read.store_below (Nat.lt_of_lt_of_le hb (hclear k (Nat.lt_succ_self k)))]
      exact ih fun i hi => hclear i (Nat.lt_succ_of_lt hi)

/-- `load_sector` returns to its caller with `CF` clear. -/
theorem loadSector_returns (hroom : 24 ≤ s.sp.toNat) (hstack : s.sp.toNat + 2 ≤ s.imageEnd) (hreads : s.reads = [])
    (hrun : loadSector bios fuel s = some t) :
    t.cf = false ∧ t.sp = s.sp + 2 ∧ t.ip = BitVec.ofNat 16 (loadLE s.mem s.sp.toNat 2) := by
  rw [loadSector_eq, Option.map_eq_some_iff] at hrun
  obtain ⟨u, hloop, rfl⟩ := hrun
  obtain ⟨j, hu⟩ := loop_frame hroom hstack (loaded_prologue bios s hroom hreads) hloop
  obtain ⟨hcf, hsp, hip⟩ := hu.frame.loadSectorEnd hroom
  refine ⟨hcf, hsp, hip.trans (congrArg (BitVec.ofNat 16) (loadLE_congr fun b _ hb => ?_))⟩
  have hbelow : b < s.sp.toNat + 2 := hb
  exact brought_below s hu.clear (by omega)

/-- The reads for `n` sectors, up to the first failure, are apart from the loader. -/
def Apart (bios : Nat → Outcome) (s : State) (n : Nat) : Prop :=
  ∀ k < n / 64, (∀ j < k, (bios j).carry = false) → s.imageEnd ≤ (readAt s k).target

/-- A run for a multiple of 64 sectors ends with the last read or the first failure. -/
theorem loadSector_ends (s : State) (bios : Nat → Outcome) (hroom : 24 ≤ s.sp.toNat)
    (hstack : s.sp.toNat + 2 ≤ s.imageEnd) (hreads : s.reads = []) (hpos : 0 < (s.reg .ebx).toNat)
    (hdvd : 64 ∣ (s.reg .ebx).toNat) (hapart : Apart bios s (s.reg .ebx).toNat) :
    ∃ fuel t, loadSector bios fuel s = some t ∧
      (0 < t.reads.length ∧ t.reads.length ≤ (s.reg .ebx).toNat / 64) ∧
      (∀ k, k + 1 < t.reads.length → (bios k).carry = false) ∧
      (t.reads.length = (s.reg .ebx).toNat / 64 ∨ (bios (t.reads.length - 1)).carry = true) := by
  obtain ⟨m, hm⟩ := hdvd
  rw [Apart, hm, Nat.mul_div_cancel_left m (by decide)] at hapart
  rw [hm, Nat.mul_div_cancel_left m (by decide)]
  obtain ⟨fuel, u, j, hrun, hu, hj, hjm, hok, hend⟩ :=
    loop_returns hroom hstack hm (loaded_prologue bios s hroom hreads) (by omega)
      fun i _ hi hok => hapart i hi fun j hj => hok j (Nat.zero_le j) hj
  have hlen : (u.code loadSectorEnd).reads.length = j := by
    rw [show (u.code loadSectorEnd).reads = u.reads from rfl, hu.reads, List.length_map, List.length_range]
  refine ⟨fuel, u.code loadSectorEnd, by rw [loadSector_eq, hrun]; rfl, ?_⟩
  rw [hlen]
  exact ⟨⟨hj, hjm⟩, fun k hk => hok k (Nat.zero_le k) hk, hend⟩

/-- With `CF` clear a report says that no read failed. -/
theorem Reports.carry_eq_false {calls : Nat} (h : Reports bios calls s t) (hcf : t.cf = false) :
    ∀ k < calls, (bios k).carry = false := by
  have hok : ∀ k < t.reads.length, (bios k).carry = false := by
    intro k hk
    by_contra hfail
    rw [h.carry.mpr ⟨k, hk, Bool.eq_true_of_not_eq_false hfail⟩] at hcf
    cases hcf
  rwa [← h.goesOn hok]

/-- **Disk errors.**  `load_sector` stops at a read that fails, but its `CF` tells the
outcome exactly when no read fails. -/
theorem loadSector_reports_iff (s : State) (bios : Nat → Outcome) (hroom : 24 ≤ s.sp.toNat)
    (hstack : s.sp.toNat + 2 ≤ s.imageEnd) (hreads : s.reads = []) (hpos : 0 < (s.reg .ebx).toNat)
    (hdvd : 64 ∣ (s.reg .ebx).toNat) (hapart : Apart bios s (s.reg .ebx).toNat) :
    (∃ fuel t, loadSector bios fuel s = some t ∧ Reports bios ((s.reg .ebx).toNat / 64) s t) ↔
      ∀ k < (s.reg .ebx).toNat / 64, (bios k).carry = false := by
  constructor
  · rintro ⟨fuel, t, hrun, hrep⟩
    exact hrep.carry_eq_false (loadSector_returns hroom hstack hreads hrun).1
  · intro hok
    obtain ⟨fuel, t, hrun, hlen, hstops, hend⟩ := loadSector_ends s bios hroom hstack hreads hpos hdvd hapart
    obtain ⟨hcf, hsp, hip⟩ := loadSector_returns hroom hstack hreads hrun
    have hlast : t.reads.length = (s.reg .ebx).toNat / 64 :=
      hend.resolve_right (by rw [hok _ (by omega)]; exact Bool.false_ne_true)
    refine ⟨fuel, t, hrun, hstops, fun _ => hlast, ?_, hip, hsp⟩
    rw [hcf, hlast]
    constructor
    · intro h
      cases h
    · rintro ⟨k, hk, hfail⟩
      rw [hok k hk] at hfail
      exact hfail

/-- The reads of `stage2` go to `0x10000` and above. -/
theorem apart_stage2 (bios : Nat → Outcome) : Apart bios (stage2Call 512) 512 := by
  intro k hk _
  have hs : Entry (stage2Call 512) 0x10000 512 65 := entry_stage2 (by decide)
  rw [target_readAt hs (by decide) (by omega)]
  exact Nat.le_trans (show 0xFE00 ≤ 0x10000 by decide) (Nat.le_add_right ..)

theorem loadSector_reports_stage2 :
    (∃ fuel t, loadSector (failsAt 3) fuel (stage2Call 512) = some t ∧
      Reports (failsAt 3) (((stage2Call 512).reg .ebx).toNat / 64) (stage2Call 512) t) ↔
      ∀ k < ((stage2Call 512).reg .ebx).toNat / 64, (failsAt 3 k).carry = false :=
  loadSector_reports_iff (stage2Call 512) (failsAt 3) (by decide) (by decide) rfl (by decide) (by decide)
    (apart_stage2 _)

/-- A failure of the first read is lost. -/
theorem not_reports_stage2 : 64 ∣ ((stage2Call 512).reg .ebx).toNat ∧ Apart (failsAt 0) (stage2Call 512) 512 ∧
    (failsAt 0 0).carry = true ∧
    ¬∃ fuel t, loadSector (failsAt 0) fuel (stage2Call 512) = some t ∧ Reports (failsAt 0) 8 (stage2Call 512) t := by
  refine ⟨by decide, apart_stage2 _, rfl, ?_⟩
  rintro ⟨fuel, t, hrun, hrep⟩
  have hcf := (loadSector_returns (by decide) (by decide) rfl hrun).1
  exact absurd (hrep.carry_eq_false hcf 0 (by decide)) (by decide)

end

end Boot
end GuideOS
