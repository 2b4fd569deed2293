import GuideOS.Lib.Bytes
import Mathlib.Logic.Function.Basic

/-!
# Stack instructions

The part of the x86-64 instruction set that saves and restores registers on a
stack, over byte memory.  Straight code is a list of instructions; `call` pushes
`rip`, which holds the address of the next instruction, and the code that is called
follows in the list.

`Pushed` and `Popped` say what a run of pushes and a run of pops do.
-/

namespace GuideOS
namespace Lib

inductive Reg
  | rax | rcx | rdx | rbx | rsi | rdi | rbp | rsp
  | r8 | r9 | r10 | r11 | r12 | r13 | r14 | r15
deriving DecidableEq, Repr

/-- The registers of a processor.  `flags` is the image that `iretq` loads. -/
structure Core where
  reg : Reg → BitVec 64
  rip : BitVec 64
  flags : BitVec 64
  cs : BitVec 16
  ss : BitVec 16

structure Machine extends Core where
  mem : Bytes

inductive Insn
  | push (r : Reg)
  | pop (r : Reg)
  | mov (dst src : Reg)
  /-- `mov [dst], src` -/
  | store (dst src : Reg)
  | addRsp (n : Nat)
  | call
  | ret
  | iretq
deriving DecidableEq, Repr

namespace Machine

def setReg (s : Machine) (r : Reg) (v : BitVec 64) : Machine :=
  { s with reg := Function.update s.reg r v }

def load (s : Machine) (a : BitVec 64) : BitVec 64 := BitVec.ofNat 64 (load64 s.mem a.toNat)

def pushWord (s : Machine) (v : BitVec 64) : Machine :=
  { s.setReg .rsp (s.reg .rsp - 8) with mem := store64 s.mem (s.reg .rsp - 8).toNat v.toNat }

def exec (s : Machine) : Insn → Machine
  | .push r => s.pushWord (s.reg r)
  | .pop r => (s.setReg .rsp (s.reg .rsp + 8)).setReg r (s.load (s.reg .rsp))
  | .mov dst src => s.setReg dst (s.reg src)
  | .store dst src => { s with mem := store64 s.mem (s.reg dst).toNat (s.reg src).toNat }
  | .addRsp n => s.setReg .rsp (s.reg .rsp + BitVec.ofNat 64 n)
  | .call => s.pushWord s.rip
  | .ret => { s.setReg .rsp (s.reg .rsp + 8) with rip := s.load (s.reg .rsp) }
  | .iretq =>
      { s.setReg .rsp (s.load (s.reg .rsp + 24)) with
        rip := s.load (s.reg .rsp)
        cs := (s.load (s.reg .rsp + 8)).setWidth 16
        flags := s.load (s.reg .rsp + 16)
        ss := (s.load (s.reg .rsp + 32)).setWidth 16 }

def run (s : Machine) (code : List Insn) : Machine := code.foldl exec s

theorem run_nil (s : Machine) : s.run [] = s := rfl

theorem run_cons (s : Machine) (i : Insn) (code : List Insn) :
    s.run (i :: code) = (s.exec i).run code := rfl

theorem run_append (s : Machine) (code code' : List Insn) :
    s.run (code ++ code') = (s.run code).run code' := List.foldl_append

variable {s t u : Machine} {v : BitVec 64} {vs ws : List (BitVec 64)}

@[simp] theorem reg_setReg_self (s : Machine) (r : Reg) (v : BitVec 64) : (s.setReg r v).reg r = v :=
  Function.update_self ..

theorem reg_setReg_of_ne (s : Machine) (v : BitVec 64) {r r' : Reg} (h : r' ≠ r) :
    (s.setReg r v).reg r' = s.reg r' := Function.update_of_ne h ..

@[simp] theorem mem_setReg (s : Machine) (r : Reg) (v : BitVec 64) : (s.setReg r v).mem = s.mem := rfl

theorem mem_ret (s : Machine) : (s.exec .ret).mem = s.mem := rfl

theorem rip_ret (s : Machine) : (s.exec .ret).rip = s.load (s.reg .rsp) := rfl

theorem rsp_ret (s : Machine) : (s.exec .ret).reg .rsp = s.reg .rsp + 8 := by
  simp only [exec]
  exact reg_setReg_self s .rsp _

theorem reg_ret (s : Machine) {r : Reg} (h : r ≠ .rsp) : (s.exec .ret).reg r = s.reg r := by
  simp only [exec]
  exact reg_setReg_of_ne s _ h

theorem load_eq {a : BitVec 64} (h : load64 s.mem a.toNat = v.toNat) : s.load a = v := by
  refine BitVec.eq_of_toNat_eq ?_
  rw [load, h, BitVec.toNat_ofNat, Nat.mod_eq_of_lt v.isLt]

theorem toNat_add {a : BitVec 64} {n : Nat} (h : a.toNat + n < 2 ^ 64) :
    (a + BitVec.ofNat 64 n).toNat = a.toNat + n := by
  rw [BitVec.toNat_add, BitVec.toNat_ofNat, Nat.mod_eq_of_lt (show n < 2 ^ 64 by omega)]
  exact Nat.mod_eq_of_lt h

/-! ## Pushes -/

/-- The words `vs` were pushed, the last one to the lowest address. -/
structure Pushed (s : Machine) (vs : List (BitVec 64)) (t : Machine) : Prop where
  rsp : (t.reg .rsp).toNat + 8 * vs.length = (s.reg .rsp).toNat
  reg : ∀ r ≠ .rsp, t.reg r = s.reg r
  rip : t.rip = s.rip
  words : Words t.mem (t.reg .rsp).toNat vs.reverse
  mem : ∀ b, b < (t.reg .rsp).toNat ∨ (s.reg .rsp).toNat ≤ b → t.mem b = s.mem b

theorem Pushed.trans (h : Pushed s vs t) (h' : Pushed t ws u) : Pushed s (vs ++ ws) u where
  rsp := by
    have := h.rsp
    have := h'.rsp
    rw [List.length_append]
    omega
  reg r hr := (h'.reg r hr).trans (h.reg r hr)
  rip := h'.rip.trans h.rip
  words := by
    have hsp := h'.rsp
    rw [List.reverse_append, words_append, List.length_reverse]
    refine ⟨h'.words, ?_⟩
    rw [hsp]
    exact h.words.congr fun b hb _ => h'.mem b (Or.inr hb)
  mem b hb := by
    have := h.rsp
    have := h'.rsp
    rw [h'.mem b (by omega), h.mem b (by omega)]

theorem pushWord_pushed (v : BitVec 64) (h : 8 ≤ (s.reg .rsp).toNat) : Pushed s [v] (s.pushWord v) := by
  have hsp : (s.reg .rsp - 8).toNat + 8 = (s.reg .rsp).toNat := by bv_omega
  have hreg : (s.pushWord v).reg .rsp = s.reg .rsp - 8 := reg_setReg_self s .rsp _
  refine ⟨?_, fun r hr => reg_setReg_of_ne s _ hr, rfl, ?_, fun b hb => ?_⟩
  · rw [hreg]
    exact hsp
  · rw [hreg]
    exact words_store64 s.mem _ v
  · rw [hreg] at hb
    exact store64_outside (by omega)

theorem run_pushes (rs : List Reg) (hrs : .rsp ∉ rs) (h : 8 * rs.length ≤ (s.reg .rsp).toNat) :
    Pushed s (rs.map s.reg) (s.run (rs.map .push)) := by
  induction rs generalizing s with
  | nil => exact ⟨rfl, fun _ _ => rfl, rfl, trivial, fun _ _ => rfl⟩
  | cons r rs ih =>
      rw [List.length_cons] at h
      have hne : ∀ q ∈ rs, q ≠ .rsp := fun q hq e => hrs (e ▸ List.mem_cons_of_mem r hq)
      have hfirst := pushWord_pushed (s.reg r) (s := s) (by omega)
      have hsp := hfirst.rsp
      have hrest := ih (s := s.pushWord (s.reg r)) (fun hmem => hrs (List.mem_cons_of_mem r hmem))
        (by rw [List.length_singleton] at hsp; omega)
      rw [List.map_congr_left fun q hq => hfirst.reg q (hne q hq)] at hrest
      exact hfirst.trans hrest

/-! ## Pops -/

/-- The registers `rs` were popped. -/
structure Popped (s : Machine) (rs : List Reg) (vs : List (BitVec 64)) (t : Machine) : Prop where
  rsp : (t.reg .rsp).toNat = (s.reg .rsp).toNat + 8 * rs.length
  popped : rs.map t.reg = vs
  reg : ∀ r ∉ rs, r ≠ .rsp → t.reg r = s.reg r

theorem run_pops (rs : List Reg) (hrs : .rsp ∉ rs) (hnodup : rs.Nodup) (hlen : rs.length = vs.length)
    (hwords : Words s.mem (s.reg .rsp).toNat vs) (h : (s.reg .rsp).toNat + 8 * rs.length < 2 ^ 64) :
    Popped s rs vs (s.run (rs.map .pop)) := by
  induction rs generalizing s vs with
  | nil =>
      cases vs with
      | nil => exact ⟨rfl, rfl, fun _ _ _ => rfl⟩
      | cons v vs => cases hlen
  | cons r rs ih =>
      cases vs with
      | nil => cases hlen
      | cons v vs =>
          rw [List.length_cons] at h
          have hr : r ≠ .rsp := fun e => hrs (e ▸ List.mem_cons_self)
          obtain ⟨hnot, hnodup'⟩ := List.nodup_cons.mp hnodup
          have hsp : ((s.exec (.pop r)).reg .rsp) = s.reg .rsp + 8 := by
            rw [exec, reg_setReg_of_ne _ _ (Ne.symm hr), reg_setReg_self]
          have hsp' : ((s.exec (.pop r)).reg .rsp).toNat = (s.reg .rsp).toNat + 8 := by
            rw [hsp]
            exact toNat_add (n := 8) (by omega)
          have hrest := ih (s := s.exec (.pop r))
            (fun hmem => hrs (List.mem_cons_of_mem r hmem)) hnodup' (Nat.succ.inj hlen)
            (by rw [hsp']; exact hwords.2) (by omega)
          refine ⟨?_, ?_, fun q hq hq' => ?_⟩
          · rw [List.length_cons]
            show ((run (s.exec (.pop r)) _).reg .rsp).toNat = _
            rw [hrest.rsp, hsp']
            omega
          · rw [List.map_cons]
            show (run (s.exec (.pop r)) _).reg r :: rs.map (run (s.exec (.pop r)) _).reg = v :: vs
            rw [hrest.popped, hrest.reg r hnot hr, exec, reg_setReg_self, load_eq hwords.1]
          · rw [List.mem_cons, not_or] at hq
            show (run (s.exec (.pop r)) _).reg q = _
            rw [hrest.reg q hq.2 hq', exec, reg_setReg_of_ne _ _ hq.1, reg_setReg_of_ne _ _ hq']

theorem mem_run_pops (s : Machine) (rs : List Reg) : (s.run (rs.map .pop)).mem = s.mem := by
  induction rs generalizing s with
  | nil => rfl
  | cons r rs ih => rw [List.map_cons, run_cons, ih, exec, mem_setReg, mem_setReg]

/-! ## Return from an interrupt -/

/-- The five words of an interrupt frame were loaded. -/
structure Returned (s : Machine) (rip cs flags rsp ss : BitVec 64) (t : Machine) : Prop where
  rip : t.rip = rip
  cs : t.cs = cs.setWidth 16
  flags : t.flags = flags
  rsp : t.reg .rsp = rsp
  ss : t.ss = ss.setWidth 16
  reg : ∀ r ≠ .rsp, t.reg r = s.reg r

theorem load_add {a : BitVec 64} {n : Nat} (ha : a.toNat + n < 2 ^ 64)
    (h : load64 s.mem (a.toNat + n) = v.toNat) : s.load (a + BitVec.ofNat 64 n) = v :=
  load_eq (by rw [toNat_add ha]; exact h)

theorem iretq_returned {rip cs flags rsp ss : BitVec 64}
    (hwords : Words s.mem (s.reg .rsp).toNat [rip, cs, flags, rsp, ss])
    (h : (s.reg .rsp).toNat + 32 < 2 ^ 64) : Returned s rip cs flags rsp ss (s.exec .iretq) := by
  simp only [words_cons, Nat.add_assoc] at hwords
  obtain ⟨hrip, hcs, hflags, hrsp, hss, _⟩ := hwords
  have hcs' : s.load (s.reg .rsp + 8) = cs := load_add (n := 8) (by omega) hcs
  have hflags' : s.load (s.reg .rsp + 16) = flags := load_add (n := 16) (by omega) hflags
  have hrsp' : s.load (s.reg .rsp + 24) = rsp := load_add (n := 24) (by omega) hrsp
  have hss' : s.load (s.reg .rsp + 32) = ss := load_add (n := 32) (by omega) hss
  rw [exec, load_eq hrip, hcs', hflags', hrsp', hss']
  exact ⟨rfl, rfl, rfl, reg_setReg_self s .rsp rsp, rfl, fun r hr => reg_setReg_of_ne s rsp hr⟩

end Machine

end Lib
end GuideOS
