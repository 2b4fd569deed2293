import GuideOS.Proc.Cpu
import Mathlib.Data.List.Count
import Mathlib.Data.List.Infix

/-!
# Counting interrupt disables

`push_int_disable` and `pop_int_disable` in any order, with the tests of the source.
`int_disable_layer` is a `u32`, so the test of `pop_int_disable` for a negative layer
fails on every value, and the pop that exceeds the pushes leaves `0xFFFFFFFF`.  The
panic of `cur_cpu` catches it if interrupts are on again by then.
-/

namespace GuideOS
namespace Sched

inductive LayerPanic
  | curCpuWithIf
  | popcli
deriving DecidableEq

inductive LayerCall
  | push
  | pop
deriving DecidableEq

namespace IntLayer

/-- `pop_int_disable` with both of its panics. -/
def popIntDisable (x : Cpu) : Except LayerPanic Cpu :=
  if x.intFlag then .error .curCpuWithIf
  else
    let c := { x with intDisableLayer := x.intDisableLayer - 1 }
    if c.intDisableLayer.ult 0 then .error .popcli
    else if c.intDisableLayer = 0 ∧ c.intEnabled = true then .ok { c with intFlag := true }
    else .ok c

def exec (x : Cpu) : LayerCall → Except LayerPanic Cpu
  | .push => .ok x.pushIntDisable
  | .pop => popIntDisable x

def run (x : Cpu) (cs : List LayerCall) : Except LayerPanic Cpu := cs.foldlM exec x

/-- No value of a `u32` is below zero. -/
theorem popIntDisable_eq (x : Cpu) :
    popIntDisable x = if x.intFlag then .error .curCpuWithIf else .ok x.popLayer := by
  have hult : ¬ (x.intDisableLayer - 1).ult 0 = true := by simp [BitVec.ult]
  rw [popIntDisable, Cpu.popLayer]
  split
  · rfl
  · dsimp only
    rw [if_neg hult]
    by_cases hlast : x.intDisableLayer - 1 = 0 ∧ x.intEnabled = true
    · rw [if_pos hlast, if_pos hlast]
    · rw [if_neg hlast, if_neg hlast]

/-! ## Pushes and pops -/

def pushes (cs : List LayerCall) : Nat := cs.count .push

def pops (cs : List LayerCall) : Nat := cs.count .pop

section

variable (p : List LayerCall)

@[simp] theorem pushes_push : pushes (p ++ [.push]) = pushes p + 1 := by simp [pushes]

@[simp] theorem pops_push : pops (p ++ [.push]) = pops p := by simp [pops]

@[simp] theorem pushes_pop : pushes (p ++ [.pop]) = pushes p := by simp [pushes]

@[simp] theorem pops_pop : pops (p ++ [.pop]) = pops p + 1 := by simp [pops]

end

/-- No prefix has more pops than pushes. -/
def Balanced (cs : List LayerCall) : Prop := ∀ p, p <+: cs → pops p ≤ pushes p

/-- The layer is the number of pushes minus the number of pops while the calls are
balanced, and the first pop that exceeds the pushes does not return. -/
structure Caught (x : Cpu) (cs : List LayerCall) : Prop where
  counts : ∀ p, p <+: cs → Balanced p →
    ∃ y, run x p = .ok y ∧ y.intDisableLayer.toNat = pushes p - pops p
  panics : ∀ p, p ++ [.pop] <+: cs → Balanced p → pushes p = pops p →
    ∃ e, run x (p ++ [.pop]) = .error e

/-- The first pop that exceeds the pushes comes after `p`. -/
def Exceeds (cs p : List LayerCall) : Prop := p ++ [.pop] <+: cs ∧ Balanced p ∧ pushes p = pops p

section

variable {x y : Cpu} {p cs : List LayerCall} {c : LayerCall} {n : Nat}

theorem Balanced.init (h : Balanced (p ++ [c])) : Balanced p := fun q hq =>
  h q (hq.trans (List.prefix_append p [c]))

theorem run_concat (hrun : run x p = .ok y) : run x (p ++ [c]) = exec y c := by
  rw [run, List.foldlM_append]
  rw [run] at hrun
  rw [hrun]
  show exec y c >>= pure = exec y c
  exact bind_pure _

/-- The CPU `n` layers above the state `x`, which has none. -/
structure Above (x : Cpu) (n : Nat) (y : Cpu) : Prop where
  layer : y.intDisableLayer.toNat = n
  off : 0 < n → y.intFlag = false ∧ y.intEnabled = x.intFlag
  zero : n = 0 → y.intFlag = x.intFlag

theorem Above.push (h : Above x n y) (hn : n + 1 < 2 ^ 32) : Above x (n + 1) y.pushIntDisable := by
  have hlayer := h.layer
  refine ⟨?_, fun _ => ⟨rfl, ?_⟩, fun e => absurd e (Nat.succ_ne_zero n)⟩
  · show (y.intDisableLayer + 1).toNat = n + 1
    rw [toNat_succ (by omega), hlayer]
  · show (if y.intDisableLayer = 0 then y.intFlag else y.intEnabled) = x.intFlag
    by_cases h0 : y.intDisableLayer = 0
    · rw [if_pos h0]
      refine h.zero ?_
      rw [← hlayer, h0]
      rfl
    · rw [if_neg h0]
      refine (h.off (Nat.pos_of_ne_zero fun e => h0 ?_)).2
      exact BitVec.eq_of_toNat_eq (hlayer.trans e)

theorem Above.pop (h : Above x (n + 1) y) : ∃ z, popIntDisable y = .ok z ∧ Above x n z := by
  obtain ⟨hoff, henabled⟩ := h.off (Nat.succ_pos n)
  have hne : y.intDisableLayer ≠ 0 := fun e => by
    have hlayer := h.layer
    rw [e] at hlayer
    exact absurd hlayer (by simp)
  have hpred : (y.intDisableLayer - 1).toNat = n := by
    rw [toNat_pred hne, h.layer, Nat.add_sub_cancel]
  have hzero : y.intDisableLayer - 1 = 0 ↔ n = 0 := by
    rw [← hpred]
    exact ⟨fun e => by rw [e]; rfl, fun e => BitVec.eq_of_toNat_eq e⟩
  refine ⟨y.popLayer, by rw [popIntDisable_eq, hoff]; rfl, hpred, fun hpos => ⟨?_, henabled⟩,
    fun h0 => ?_⟩
  · show (if y.intDisableLayer - 1 = 0 ∧ y.intEnabled = true then true else y.intFlag) = false
    rw [if_neg fun h0 => absurd (hzero.mp h0.1) (by omega), hoff]
  · show (if y.intDisableLayer - 1 = 0 ∧ y.intEnabled = true then true else y.intFlag) = x.intFlag
    rw [henabled, hoff]
    cases hx : x.intFlag with
    | true => rw [if_pos ⟨hzero.mpr h0, rfl⟩]
    | false => rw [if_neg fun hc => Bool.false_ne_true hc.2]

/-- Balanced calls return, as long as the layer does not wrap. -/
theorem run_above (h0 : x.intDisableLayer = 0) (hp : Balanced p)
    (hlt : ∀ q, q <+: p → pushes q - pops q < 2 ^ 32) :
    ∃ y, run x p = .ok y ∧ Above x (pushes p - pops p) y := by
  induction p using List.reverseRecOn with
  | nil => exact ⟨x, rfl, by rw [h0]; rfl, fun h => absurd h (Nat.lt_irrefl 0), fun _ => rfl⟩
  | append_singleton p c ih =>
      obtain ⟨y, hrun, habove⟩ := ih hp.init fun q hq => hlt q (hq.trans (List.prefix_append p [c]))
      have hle := hp _ (List.prefix_append p [c])
      have hle' := hp _ List.prefix_rfl
      have hnet := hlt _ List.prefix_rfl
      rw [run_concat hrun]
      cases c with
      | push =>
          have hup : pushes (p ++ [.push]) - pops (p ++ [.push]) = pushes p - pops p + 1 := by
            rw [pushes_push, pops_push]
            omega
          rw [hup] at hnet ⊢
          exact ⟨_, rfl, habove.push hnet⟩
      | pop =>
          have hdown : pushes p - pops p = pushes (p ++ [.pop]) - pops (p ++ [.pop]) + 1 := by
            rw [pushes_pop, pops_pop] at hle' ⊢
            omega
          rw [hdown] at habove
          exact habove.pop

/-- The pop that exceeds the pushes returns if interrupts were off at the start. -/
theorem Above.pop_zero (h : Above x 0 y) :
    popIntDisable y = if x.intFlag then .error .curCpuWithIf else .ok y.popLayer := by
  rw [popIntDisable_eq, h.zero rfl]

end

/-- The layer is right and the first pop in excess is caught exactly if the layer does
not wrap, and interrupts were on at the start or no pop is in excess. -/
theorem run_caught_iff {x : Cpu} (h0 : x.intDisableLayer = 0) (cs : List LayerCall) :
    Caught x cs ↔
      (∀ p, p <+: cs → Balanced p → pushes p - pops p < 2 ^ 32) ∧
        (x.intFlag = true ∨ ∀ p, ¬ Exceeds cs p) := by
  have hsub : ∀ {p}, (∀ p, p <+: cs → Balanced p → pushes p - pops p < 2 ^ 32) → p <+: cs →
      Balanced p → ∀ q, q <+: p → pushes q - pops q < 2 ^ 32 := fun hlt hp hbal q hq =>
    hlt q (hq.trans hp) fun r hr => hbal r (hr.trans hq)
  constructor
  · intro h
    have hlt : ∀ p, p <+: cs → Balanced p → pushes p - pops p < 2 ^ 32 := by
      intro p hp hbal
      obtain ⟨y, _, hlayer⟩ := h.counts p hp hbal
      rw [← hlayer]
      exact y.intDisableLayer.isLt
    refine ⟨hlt, ?_⟩
    by_contra hno
    obtain ⟨hoff, hexceeds⟩ := not_or.mp hno
    obtain ⟨p, hpop, hbal, hnet⟩ := not_forall_not.mp hexceeds
    obtain ⟨y, hrun, habove⟩ := run_above h0 hbal
      (hsub hlt ((List.prefix_append p [.pop]).trans hpop) hbal)
    obtain ⟨e, he⟩ := h.panics p hpop hbal hnet
    rw [hnet, Nat.sub_self] at habove
    rw [run_concat hrun, exec, habove.pop_zero, if_neg hoff] at he
    cases he
  · rintro ⟨hlt, hcatch⟩
    refine ⟨fun p hp hbal => ?_, fun p hpop hbal hnet => ?_⟩
    · obtain ⟨y, hrun, habove⟩ := run_above h0 hbal (hsub hlt hp hbal)
      exact ⟨y, hrun, habove.layer⟩
    · obtain ⟨y, hrun, habove⟩ := run_above h0 hbal
        (hsub hlt ((List.prefix_append p [.pop]).trans hpop) hbal)
      have hon : x.intFlag = true := hcatch.resolve_right fun h => h p ⟨hpop, hbal, hnet⟩
      rw [hnet, Nat.sub_self] at habove
      exact ⟨.curCpuWithIf, by rw [run_concat hrun, exec, habove.pop_zero, if_pos hon]⟩

/-- A CPU with no layer and with interrupts as given. -/
def bare (intFlag : Bool) : Cpu where
  proc := none
  intDisableLayer := 0
  intEnabled := false
  intFlag := intFlag
  running := .cpu 0
  panicked := none

theorem run_caught_pop : Caught (bare true) [.push, .pop, .pop] := by
  refine (run_caught_iff rfl _).mpr ⟨fun p hp _ => ?_, Or.inl rfl⟩
  have hle : pushes p ≤ p.length := List.count_le_length
  have hlen := hp.length_le
  simp only [List.length_cons, List.length_nil] at hlen
  omega

/-- With interrupts off, a single pop returns and leaves the greatest layer. -/
theorem not_caught_pop :
    (bare false).intDisableLayer = 0 ∧
      (run (bare false) [.pop]).toOption.map (·.intDisableLayer) = some 0xFFFFFFFF ∧
      ¬ Caught (bare false) [.pop] := by
  have hrun : (run (bare false) [.pop]).toOption.map (·.intDisableLayer) = some 0xFFFFFFFF := by decide
  have hbalanced : Balanced [] := fun p hp => by
    rw [List.prefix_nil.mp hp]
    exact Nat.le_refl 0
  refine ⟨rfl, hrun, fun h => ?_⟩
  obtain ⟨e, he⟩ := h.panics [] List.prefix_rfl hbalanced rfl
  rw [List.nil_append] at he
  rw [he] at hrun
  cases hrun

end IntLayer

end Sched
end GuideOS
