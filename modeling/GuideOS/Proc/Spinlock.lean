import GuideOS.Proc.Cpu
import Mathlib.Logic.Function.Basic
import Mathlib.Tactic.Common

/-!
# Spinlocks

`acquire`, `release` and `holding` of `spinlock.c` on one lock, by single accesses
to its two fields, on any number of CPUs.  A CPU runs one thread at a time.  With
interrupts on the thread may be preempted anywhere and go on elsewhere later; with
interrupts off only client code gives up the CPU, to other client code, as
`sched_ctxsw` does.

`inside`, `owns` and `others` are history: the CPUs between the exchange of
`acquire` and the store of `release`, those that have completed `acquire` and not
begun `release`, and how many other locks a CPU has.
-/

namespace GuideOS
namespace Spinlock

open Sched (Cpu ThreadId Panic)

inductive Caller
  | acquire
  | release
  | client
deriving DecidableEq

/-- The code of `holding`. -/
inductive Hold
  | push
  | readLocked
  | readCpu
  | pop (r : Bool)
deriving DecidableEq

inductive Pc
  | client
  /-- `push_int_disable` of `acquire` -/
  | push
  | hold (f : Caller) (h : Hold)
  /-- `holding` has returned -/
  | ret (f : Caller) (r : Bool)
  /-- the exchange loop of `acquire` -/
  | exchange
  /-- `lk->cpu = cur_cpu()` -/
  | setCpu
  /-- `lk->cpu = NULL` -/
  | clearCpu
  /-- the releasing store -/
  | store
  /-- `pop_int_disable` of `release` -/
  | pop
deriving DecidableEq

structure State where
  locked : Bool
  holder : Option Nat
  cpu : Nat → Cpu
  pc : ThreadId → Pc
  inside : Nat → Bool
  owns : Nat → Bool
  others : Nat → Nat

namespace State

/-- Where the thread on a CPU is. -/
def now (s : State) (c : Nat) : Pc := s.pc (s.cpu c).running

def setCpu (s : State) (c : Nat) (x : Cpu) : State := { s with cpu := Function.update s.cpu c x }

def goto (s : State) (c : Nat) (p : Pc) : State :=
  { s with pc := Function.update s.pc (s.cpu c).running p }

def fail (s : State) (c : Nat) (e : Panic) : State :=
  s.setCpu c { s.cpu c with panicked := some e, intFlag := false }

end State

/-- `holding`, called by `f`. -/
def holding (s : State) (c : Nat) (f : Caller) : Hold → State
  | .push => (s.setCpu c (s.cpu c).pushIntDisable).goto c (.hold f .readLocked)
  | .readLocked => s.goto c (.hold f (if s.locked then .readCpu else .pop false))
  | .readCpu =>
      if (s.cpu c).intFlag then s.fail c .curCpuWithIf
      else s.goto c (.hold f (.pop (s.holder = some c)))
  | .pop r =>
      match (s.cpu c).popIntDisable with
      | none => s.fail c .curCpuWithIf
      | some x => (s.setCpu c x).goto c (.ret f r)

/-- One access of the thread on a CPU. -/
def exec (s : State) (c : Nat) : Pc → Option State
  | .client => none
  | .push => some ((s.setCpu c (s.cpu c).pushIntDisable).goto c (.hold .acquire .push))
  | .hold f h => some (holding s c f h)
  | .ret .acquire r => some (if r then s.fail c .acquire else s.goto c .exchange)
  | .ret .release r => some (if r then s.goto c .clearCpu else s.fail c .release)
  | .ret .client _ => some (s.goto c .client)
  | .exchange =>
      if s.locked then some s
      else some ({ s with locked := true, inside := Function.update s.inside c true }.goto c .setCpu)
  | .setCpu =>
      if (s.cpu c).intFlag then some (s.fail c .curCpuWithIf)
      else some ({ s with holder := some c, owns := Function.update s.owns c true }.goto c .client)
  | .clearCpu => some ({ s with holder := none }.goto c .store)
  | .store =>
      some ({ s with locked := false, inside := Function.update s.inside c false }.goto c .pop)
  | .pop =>
      match (s.cpu c).popIntDisable with
      | none => some (s.fail c .curCpuWithIf)
      | some x => some ((s.setCpu c x).goto c .client)

inductive Event
  | exec
  /-- Client code calls `acquire`, `release` or `holding`. -/
  | acquire
  | release
  | holding
  /-- Client code acquires or releases another lock. -/
  | pushOther
  | popOther
  /-- `sti` or `cli` -/
  | setInterrupt (on : Bool)
  /-- The CPU goes on with another thread. -/
  | switch (t : ThreadId)

/-- The other locks of a CPU. -/
def maxOthers : Nat := 2 ^ 27

/-- What client code may do: interrupts are switched by hand only outside every lock. -/
def client (s : State) (c : Nat) : Event → Option State
  | .acquire => some (s.goto c .push)
  | .release => some ({ s with owns := Function.update s.owns c false }.goto c (.hold .release .push))
  | .holding => some (s.goto c (.hold .client .push))
  | .pushOther =>
      if s.others c < maxOthers then
        some { s.setCpu c (s.cpu c).pushIntDisable with
          others := Function.update s.others c (s.others c + 1) }
      else none
  | .popOther =>
      if s.others c = 0 then none
      else
        match (s.cpu c).popIntDisable with
        | none => some (s.fail c .curCpuWithIf)
        | some x => some { s.setCpu c x with others := Function.update s.others c (s.others c - 1) }
  | .setInterrupt on =>
      if (s.cpu c).intDisableLayer = 0 then some (s.setCpu c { s.cpu c with intFlag := on }) else none
  | _ => none

/-- Preemption with interrupts on, else a switch between clients. -/
def mayLeave (s : State) (c : Nat) (t : ThreadId) : Bool :=
  (s.cpu c).intFlag || (s.now c = .client && s.pc t = .client)

inductive Step (s : State) (c : Nat) : Event → State → Prop
  | exec {s' : State} (hpanic : (s.cpu c).panicked = none) (hexec : exec s c (s.now c) = some s') :
      Step s c .exec s'
  | client {e : Event} {s' : State} (hpanic : (s.cpu c).panicked = none) (hpc : s.now c = .client)
      (hclient : client s c e = some s') : Step s c e s'
  | switch {t : ThreadId} (hpanic : (s.cpu c).panicked = none) (hfree : ∀ d, (s.cpu d).running ≠ t)
      (hmay : mayLeave s c t = true) :
      Step s c (.switch t) (s.setCpu c { s.cpu c with running := t })

/-- After `init_lock`, with every CPU in client code and no lock taken. -/
def State.init (intFlag : Nat → Bool) : State where
  locked := false
  holder := none
  cpu c :=
    { proc := none
      intDisableLayer := 0
      intEnabled := false
      intFlag := intFlag c
      running := .cpu c
      panicked := none }
  pc _ := .client
  inside _ := false
  owns _ := false
  others _ := 0

inductive Reachable : State → Prop
  | init (intFlag : Nat → Bool) : Reachable (State.init intFlag)
  | step {s s' : State} {c : Nat} {e : Event} (h : Reachable s) (hstep : Step s c e s') : Reachable s'

/-! ## The invariant -/

/-- How many pushes of a thread are to be undone, besides the one that goes with the
lock. -/
def Pc.pushes : Pc → Nat
  | .hold .acquire .push => 1
  | .hold .acquire _ => 2
  | .hold _ .push => 0
  | .hold _ _ => 1
  | .ret .acquire _ => 1
  | .exchange => 1
  | .pop => 1
  | _ => 0

/-- The history of a CPU whose thread is at `p`, and what `holding` has found. -/
def Pc.Fits (inside owns : Bool) : Pc → Prop
  | .hold .release (.pop r) => r = inside ∧ owns = false
  | .hold .release _ => owns = false
  | .hold _ (.pop r) => r = inside ∧ owns = inside
  | .ret .release r => r = inside ∧ owns = false
  | .ret _ r => r = inside ∧ owns = inside
  | .exchange => inside = false ∧ owns = false
  | .setCpu => inside = true ∧ owns = false
  | .clearCpu => inside = true ∧ owns = false
  | .store => inside = true ∧ owns = false
  | .pop => inside = false ∧ owns = false
  | _ => owns = inside

/-- Where a thread can be preempted. -/
def Pc.parks : Pc → Bool
  | .client => true
  | .push => true
  | .hold .acquire _ => false
  | .hold _ .push => true
  | .ret .acquire _ => false
  | .ret _ r => !r
  | _ => false

/-- `lk->cpu` is not the CPU that is inside. -/
def Pc.apart (p : Pc) : Prop := p = .setCpu ∨ p = .store

/-- A CPU panics in `acquire` only with the lock, and in `release` only without. -/
def PanicOk (inside owns : Bool) : Option Panic → Prop
  | none => True
  | some .acquire => owns = true
  | some .release => inside = false
  | some _ => False

structure CpuOk (s : State) (c : Nat) : Prop where
  layer : (s.cpu c).intDisableLayer.toNat =
    s.others c + (s.now c).pushes + if s.inside c then 1 else 0
  off : (s.cpu c).intDisableLayer ≠ 0 → (s.cpu c).intFlag = false
  others : s.others c ≤ maxOthers
  fits : (s.now c).Fits (s.inside c) (s.owns c)
  panic : PanicOk (s.inside c) (s.owns c) (s.cpu c).panicked

structure LockOk (s : State) : Prop where
  locked : s.locked = true ↔ ∃ c, s.inside c = true
  unique : ∀ c d, s.inside c = true → s.inside d = true → c = d
  holder : ∀ c, s.holder = some c ↔ s.inside c = true ∧ ¬(s.now c).apart

structure Inv (s : State) : Prop where
  cpus : ∀ c, CpuOk s c
  lock : LockOk s
  parked : ∀ t, (∀ c, (s.cpu c).running ≠ t) → (s.pc t).parks = true
  running : ∀ c d, (s.cpu c).running = (s.cpu d).running → c = d

section

variable {s s' : State} {c d : Nat}

namespace State

variable {x : Cpu} {p : Pc}

@[simp] theorem setCpu_self : (s.setCpu c x).cpu c = x := Function.update_self ..

@[simp] theorem setCpu_ne (h : d ≠ c) : (s.setCpu c x).cpu d = s.cpu d := Function.update_of_ne h ..

@[simp] theorem now_goto : (s.goto c p).now c = p := Function.update_self ..

theorem now_setCpu (hrun : x.running = (s.cpu c).running) : (s.setCpu c x).now c = s.now c := by
  rw [now, now, setCpu_self, hrun]
  rfl

end State

/-- A step of CPU `c` that leaves the other CPUs and threads. -/
structure Local (s : State) (c : Nat) (s' : State) : Prop where
  cpu : ∀ d ≠ c, s'.cpu d = s.cpu d
  running : (s'.cpu c).running = (s.cpu c).running
  pc : ∀ t, t ≠ (s.cpu c).running → s'.pc t = s.pc t
  inside : ∀ d ≠ c, s'.inside d = s.inside d
  owns : ∀ d ≠ c, s'.owns d = s.owns d
  others : ∀ d ≠ c, s'.others d = s.others d

theorem Local.run (l : Local s c s') (d : Nat) : (s'.cpu d).running = (s.cpu d).running := by
  by_cases hd : d = c
  · rw [hd, l.running]
  · rw [l.cpu d hd]

theorem Local.now (l : Local s c s') (h : Inv s) (hd : d ≠ c) : s'.now d = s.now d := by
  rw [State.now, State.now, l.run d]
  exact l.pc _ fun e => hd (h.running d c e)

/-- All is in order once the CPU that moved and the lock are. -/
theorem Inv.local (h : Inv s) (l : Local s c s') (hc : CpuOk s' c) (hlock : LockOk s') : Inv s' where
  cpus d := by
    by_cases hd : d = c
    · rw [hd]
      exact hc
    · obtain ⟨hlayer, hoff, hothers, hfits, hpanic⟩ := h.cpus d
      constructor
      · rw [l.cpu d hd, l.others d hd, l.now h hd, l.inside d hd]
        exact hlayer
      · rw [l.cpu d hd]
        exact hoff
      · rw [l.others d hd]
        exact hothers
      · rw [l.now h hd, l.inside d hd, l.owns d hd]
        exact hfits
      · rw [l.cpu d hd, l.inside d hd, l.owns d hd]
        exact hpanic
  lock := hlock
  parked t ht := by
    have hno : ∀ d, (s.cpu d).running ≠ t := fun d => by
      rw [← l.run d]
      exact ht d
    rw [l.pc t (Ne.symm (hno c))]
    exact h.parked t hno
  running a b hab := by
    rw [l.run, l.run] at hab
    exact h.running a b hab

/-- The lock and who is inside stay as they are. -/
theorem LockOk.same (h : Inv s) (l : Local s c s') (hlocked : s'.locked = s.locked)
    (hholder : s'.holder = s.holder) (hinside : s'.inside = s.inside)
    (hnow : ¬(s.now c).apart) (hnow' : ¬(s'.now c).apart) : LockOk s' where
  locked := by
    rw [hlocked, hinside]
    exact h.lock.locked
  unique := by
    rw [hinside]
    exact h.lock.unique
  holder d := by
    rw [hholder, hinside, h.lock.holder d]
    by_cases hd : d = c
    · rw [hd]
      exact and_congr_right fun _ => iff_of_true hnow hnow'
    · rw [l.now h hd]

theorem local_goto {n : State} (hcpu : ∀ d ≠ c, n.cpu d = s.cpu d)
    (hrun : (n.cpu c).running = (s.cpu c).running) (hpc : n.pc = s.pc)
    (hinside : ∀ d ≠ c, n.inside d = s.inside d) (howns : ∀ d ≠ c, n.owns d = s.owns d)
    (hothers : n.others = s.others) (p : Pc) : Local s c (n.goto c p) where
  cpu := hcpu
  running := hrun
  pc t ht := by
    show Function.update n.pc (n.cpu c).running p t = s.pc t
    rw [hrun, Function.update_of_ne ht, hpc]
  inside := hinside
  owns := howns
  others d _ := by
    show n.others d = s.others d
    rw [hothers]

theorem local_lock {locked : Bool} {holder : Option Nat} {inside owns : Nat → Bool}
    (hinside : ∀ d ≠ c, inside d = s.inside d) (howns : ∀ d ≠ c, owns d = s.owns d) (p : Pc) :
    Local s c ({ s with locked := locked, holder := holder, inside := inside, owns := owns }.goto c p) :=
  local_goto (fun _ _ => by rfl) (by rfl) (by rfl) hinside howns (by rfl) p

/-! ## Steps that leave the lock alone -/

/-- The thread goes on to `p`, and the CPU to `x`. -/
theorem Inv.advance (h : Inv s) {x : Cpu} {p : Pc} (hrun : x.running = (s.cpu c).running)
    (hlayer : x.intDisableLayer.toNat = s.others c + p.pushes + if s.inside c then 1 else 0)
    (hoff : x.intDisableLayer ≠ 0 → x.intFlag = false) (hfits : p.Fits (s.inside c) (s.owns c))
    (hpanic : PanicOk (s.inside c) (s.owns c) x.panicked) (hnow : ¬(s.now c).apart) (hp : ¬p.apart) :
    Inv ((s.setCpu c x).goto c p) := by
  have l : Local s c ((s.setCpu c x).goto c p) :=
    local_goto (fun d hd => State.setCpu_ne hd) (by rw [State.setCpu_self, hrun]) rfl (fun _ _ => rfl)
      (fun _ _ => rfl) rfl p
  have hcpu : ((s.setCpu c x).goto c p).cpu c = x := State.setCpu_self
  refine h.local l ⟨?_, ?_, (h.cpus c).others, ?_, ?_⟩
    (LockOk.same h l rfl rfl rfl hnow (by rw [State.now_goto]; exact hp))
  · rw [hcpu, State.now_goto]
    exact hlayer
  · rw [hcpu]
    exact hoff
  · rw [State.now_goto]
    exact hfits
  · rw [hcpu]
    exact hpanic

theorem State.setCpu_same (s : State) (c : Nat) : s.setCpu c (s.cpu c) = s := by
  rw [setCpu, Function.update_eq_self]

theorem State.goto_now {x : Cpu} (hrun : x.running = (s.cpu c).running) :
    (s.setCpu c x).goto c (s.now c) = s.setCpu c x := by
  have hpc : s.now c = (s.setCpu c x).pc ((s.setCpu c x).cpu c).running := by
    rw [now, setCpu_self, hrun]
    rfl
  rw [goto, hpc, Function.update_eq_self]

/-- The thread goes on to `p`, which has as many pushes. -/
theorem Inv.go (h : Inv s) {p : Pc} (hpushes : p.pushes = (s.now c).pushes)
    (hfits : p.Fits (s.inside c) (s.owns c)) (hnow : ¬(s.now c).apart) (hp : ¬p.apart) :
    Inv (s.goto c p) := by
  have hc := h.cpus c
  rw [← State.setCpu_same s c]
  exact h.advance rfl (by rw [hpushes]; exact hc.layer) hc.off hfits hc.panic hnow hp

theorem Inv.fail (h : Inv s) {e : Panic} (he : PanicOk (s.inside c) (s.owns c) (some e))
    (hnow : ¬(s.now c).apart) : Inv (s.fail c e) := by
  have hc := h.cpus c
  rw [State.fail, ← State.goto_now (by rfl)]
  exact h.advance rfl hc.layer (fun _ => rfl) hc.fits he hnow hnow

/-- With interrupts on the CPU is in no lock. -/
theorem CpuOk.unmasked (h : CpuOk s c) (hflag : (s.cpu c).intFlag = true) :
    (s.now c).pushes = 0 ∧ s.inside c = false := by
  have hzero : (s.cpu c).intDisableLayer = 0 := by
    by_contra hne
    rw [h.off hne] at hflag
    cases hflag
  have hlayer := h.layer
  rw [hzero] at hlayer
  cases hin : s.inside c with
  | false =>
      rw [hin] at hlayer
      exact ⟨by simp at hlayer; omega, rfl⟩
  | true =>
      rw [hin] at hlayer
      simp at hlayer

theorem CpuOk.masked (h : CpuOk s c) (hin : (s.now c).pushes ≠ 0 ∨ s.inside c = true) :
    (s.cpu c).intFlag = false := by
  refine Bool.eq_false_iff.mpr fun hflag => ?_
  obtain ⟨hpushes, hout⟩ := h.unmasked hflag
  rw [hout] at hin
  exact hin.elim (fun hne => hne hpushes) Bool.noConfusion

theorem Pc.pushes_le (p : Pc) : p.pushes ≤ 2 := by
  unfold pushes
  split <;> decide

theorem CpuOk.small (h : CpuOk s c) : (s.cpu c).intDisableLayer.toNat + 1 < 2 ^ 32 := by
  have hpushes := (s.now c).pushes_le
  have hone : (if s.inside c then 1 else 0) ≤ 1 := by
    split <;> decide
  have hlayer := h.layer
  have hothers := h.others
  rw [maxOthers] at hothers
  omega

/-- `push_int_disable`, on the way to `p`. -/
theorem Inv.push (h : Inv s) {p : Pc} (hpushes : p.pushes = (s.now c).pushes + 1)
    (hfits : p.Fits (s.inside c) (s.owns c)) (hnow : ¬(s.now c).apart) (hp : ¬p.apart) :
    Inv ((s.setCpu c (s.cpu c).pushIntDisable).goto c p) := by
  have hc := h.cpus c
  have hlayer := hc.layer
  refine h.advance rfl ?_ (fun _ => rfl) hfits hc.panic hnow hp
  show ((s.cpu c).intDisableLayer + 1).toNat = _
  rw [Sched.toNat_succ hc.small, hlayer, hpushes]
  omega

/-- `pop_int_disable` finds interrupts off. -/
theorem CpuOk.pop (h : CpuOk s c) (hpos : (s.cpu c).intDisableLayer.toNat ≠ 0) :
    (s.cpu c).popIntDisable = some (s.cpu c).popLayer ∧
      (s.cpu c).popLayer.intDisableLayer.toNat = (s.cpu c).intDisableLayer.toNat - 1 ∧
      ((s.cpu c).popLayer.intDisableLayer ≠ 0 → (s.cpu c).popLayer.intFlag = false) := by
  have hne : (s.cpu c).intDisableLayer ≠ 0 := fun e => hpos (by rw [e]; rfl)
  have hflag := h.off hne
  refine ⟨?_, Sched.toNat_pred hne, fun h0 => ?_⟩
  · rw [Cpu.popIntDisable, hflag]
    rfl
  · show (if (s.cpu c).intDisableLayer - 1 = 0 ∧ (s.cpu c).intEnabled = true then true
      else (s.cpu c).intFlag) = false
    rw [if_neg fun h => h0 h.1, hflag]

theorem Inv.pop (h : Inv s) {p : Pc} (hpushes : (s.now c).pushes = p.pushes + 1)
    (hfits : p.Fits (s.inside c) (s.owns c)) (hnow : ¬(s.now c).apart) (hp : ¬p.apart) :
    (s.cpu c).popIntDisable = some (s.cpu c).popLayer ∧
      Inv ((s.setCpu c (s.cpu c).popLayer).goto c p) := by
  have hlayer := (h.cpus c).layer
  rw [hpushes] at hlayer
  obtain ⟨hsome, hpred, hoff⟩ := (h.cpus c).pop (by omega)
  refine ⟨hsome, h.advance rfl ?_ hoff hfits (h.cpus c).panic hnow hp⟩
  rw [hpred, hlayer]
  omega

theorem not_apart {p : Pc} (h : p ≠ .setCpu) (h' : p ≠ .store) : ¬p.apart := fun e => e.elim h h'

theorem holding_inv (h : Inv s) {f : Caller} {x : Hold} (hnow : s.now c = .hold f x) :
    Inv (holding s c f x) := by
  have hc := h.cpus c
  have hfits := hc.fits
  have hapart : ¬(s.now c).apart := by
    rw [hnow]
    exact not_apart Pc.noConfusion Pc.noConfusion
  rw [hnow] at hfits
  cases x with
  | push =>
      refine h.push ?_ ?_ hapart (not_apart Pc.noConfusion Pc.noConfusion)
      · rw [hnow]
        cases f <;> rfl
      · cases f <;> exact hfits
  | readLocked =>
      refine h.go ?_ ?_ hapart (not_apart Pc.noConfusion Pc.noConfusion)
      · rw [hnow]
        cases f <;> split <;> rfl
      · split
        · cases f <;> exact hfits
        · -- The lock is free, so this CPU is not inside.
          rename_i hfree
          have hout : s.inside c = false := by
            rw [← Bool.not_eq_true]
            exact fun hin => hfree (h.lock.locked.mpr ⟨c, hin⟩)
          cases f <;> exact ⟨hout.symm, hfits⟩
  | readCpu =>
      have hoff := hc.masked (Or.inl (by rw [hnow]; cases f <;> exact Nat.noConfusion))
      have hread : decide (s.holder = some c) = s.inside c := by
        rw [Bool.eq_iff_iff, decide_eq_true_eq, h.lock.holder c]
        exact and_iff_left hapart
      rw [holding, hoff, if_neg Bool.false_ne_true, hread]
      refine h.go ?_ ?_ hapart (not_apart Pc.noConfusion Pc.noConfusion)
      · rw [hnow]
        cases f <;> rfl
      · cases f <;> exact ⟨rfl, hfits⟩
  | pop r =>
      obtain ⟨hsome, hinv⟩ := h.pop (c := c) (p := .ret f r) (by rw [hnow]; cases f <;> rfl)
        (by cases f <;> exact hfits) hapart (not_apart Pc.noConfusion Pc.noConfusion)
      rw [holding, hsome]
      exact hinv

/-! ## Steps on the lock -/

theorem panicOk_of_none {inside owns : Bool} (hpanic : (s.cpu c).panicked = none) :
    PanicOk inside owns (s.cpu c).panicked := by
  rw [hpanic]
  trivial

theorem exchange_inv (h : Inv s) (hpanic : (s.cpu c).panicked = none) (hnow : s.now c = .exchange)
    (hfree : s.locked = false) :
    Inv ({ s with locked := true, inside := Function.update s.inside c true }.goto c .setCpu) := by
  have hc := h.cpus c
  have hfits := hc.fits
  have hlayer := hc.layer
  rw [hnow] at hfits hlayer
  have hnobody : ∀ d, s.inside d = false := fun d => by
    refine Bool.eq_false_iff.mpr fun hd => ?_
    rw [h.lock.locked.mpr ⟨d, hd⟩] at hfree
    cases hfree
  have hself : Function.update s.inside c true c = true := Function.update_self ..
  have hother : ∀ d, Function.update s.inside c true d = true → d = c := fun d hd => by
    by_contra hne
    rw [Function.update_of_ne hne, hnobody] at hd
    cases hd
  refine h.local (local_lock (fun d hd => Function.update_of_ne hd ..) (fun _ _ => rfl) .setCpu)
    ⟨?_, hc.off, hc.others, ?_, panicOk_of_none hpanic⟩ ⟨?_, ?_, ?_⟩
  · rw [State.now_goto]
    show (s.cpu c).intDisableLayer.toNat =
      s.others c + 0 + if Function.update s.inside c true c then 1 else 0
    rw [hself, hlayer, hnobody]
    simp [Pc.pushes]
  · rw [State.now_goto]
    exact ⟨hself, hfits.2⟩
  · exact iff_of_true rfl ⟨c, hself⟩
  · intro a b ha hb
    rw [hother a ha, hother b hb]
  · intro d
    constructor
    · intro hd
      have hin := ((h.lock.holder d).mp hd).1
      rw [hnobody] at hin
      cases hin
    · rintro ⟨hin, hapart⟩
      rw [hother d hin, State.now_goto] at hapart
      exact absurd (Or.inl rfl) hapart

theorem setCpu_inv (h : Inv s) (hpanic : (s.cpu c).panicked = none) (hnow : s.now c = .setCpu) :
    Inv ({ s with holder := some c, owns := Function.update s.owns c true }.goto c .client) := by
  have hc := h.cpus c
  have hfits := hc.fits
  have hlayer := hc.layer
  rw [hnow] at hfits hlayer
  refine h.local (local_lock (fun _ _ => rfl) (fun d hd => Function.update_of_ne hd ..) .client)
    ⟨?_, hc.off, hc.others, ?_, panicOk_of_none hpanic⟩ ⟨h.lock.locked, h.lock.unique, fun d => ?_⟩
  · rw [State.now_goto]
    exact hlayer
  · rw [State.now_goto]
    show Function.update s.owns c true c = s.inside c
    rw [Function.update_self, hfits.1]
  · constructor
    · intro hd
      obtain rfl : c = d := Option.some.inj hd
      refine ⟨hfits.1, ?_⟩
      rw [State.now_goto]
      exact not_apart Pc.noConfusion Pc.noConfusion
    · rintro ⟨hin, _⟩
      rw [h.lock.unique d c hin hfits.1]
      rfl

theorem clearCpu_inv (h : Inv s) (hpanic : (s.cpu c).panicked = none) (hnow : s.now c = .clearCpu) :
    Inv ({ s with holder := none }.goto c .store) := by
  have hc := h.cpus c
  have hfits := hc.fits
  have hlayer := hc.layer
  rw [hnow] at hfits hlayer
  refine h.local (local_lock (fun _ _ => rfl) (fun _ _ => rfl) .store)
    ⟨?_, hc.off, hc.others, ?_, panicOk_of_none hpanic⟩ ⟨h.lock.locked, h.lock.unique, fun d => ?_⟩
  · rw [State.now_goto]
    exact hlayer
  · rw [State.now_goto]
    exact hfits
  · constructor
    · intro hd
      cases hd
    · rintro ⟨hin, hapart⟩
      rw [h.lock.unique d c hin hfits.1, State.now_goto] at hapart
      exact absurd (Or.inr rfl) hapart

theorem store_inv (h : Inv s) (hpanic : (s.cpu c).panicked = none) (hnow : s.now c = .store) :
    Inv ({ s with locked := false, inside := Function.update s.inside c false }.goto c .pop) := by
  have hc := h.cpus c
  have hfits := hc.fits
  have hlayer := hc.layer
  rw [hnow] at hfits hlayer
  have hself : Function.update s.inside c false c = false := Function.update_self ..
  have hnobody : ∀ d, Function.update s.inside c false d = false := fun d => by
    by_cases hd : d = c
    · rw [hd, hself]
    · rw [Function.update_of_ne hd]
      exact Bool.eq_false_iff.mpr fun hin => hd (h.lock.unique d c hin hfits.1)
  refine h.local (local_lock (fun d hd => Function.update_of_ne hd ..) (fun _ _ => rfl) .pop)
    ⟨?_, hc.off, hc.others, ?_, panicOk_of_none hpanic⟩ ⟨?_, ?_, ?_⟩
  · rw [State.now_goto]
    show (s.cpu c).intDisableLayer.toNat =
      s.others c + 1 + if Function.update s.inside c false c then 1 else 0
    rw [hself, hlayer, hfits.1]
    simp [Pc.pushes]
  · rw [State.now_goto]
    exact ⟨hself, hfits.2⟩
  · refine iff_of_false (fun e => by cases e) ?_
    rintro ⟨d, hd⟩
    exact Bool.noConfusion ((hnobody d).symm.trans hd)
  · intro a b ha _
    exact Bool.noConfusion ((hnobody a).symm.trans ha)
  · intro d
    constructor
    · intro hd
      have hheld := (h.lock.holder d).mp hd
      obtain rfl := h.lock.unique d c hheld.1 hfits.1
      rw [hnow] at hheld
      exact absurd (Or.inr rfl) hheld.2
    · rintro ⟨hin, _⟩
      exact Bool.noConfusion ((hnobody d).symm.trans hin)

/-! ## Steps -/

theorem exec_inv (h : Inv s) (hpanic : (s.cpu c).panicked = none)
    (hexec : exec s c (s.now c) = some s') : Inv s' := by
  have hc := h.cpus c
  have hfits := hc.fits
  cases hnow : s.now c with
  | client =>
      rw [hnow] at hexec
      cases hexec
  | push =>
      rw [hnow] at hexec hfits
      cases hexec
      exact h.push (by rw [hnow]; rfl) hfits (by rw [hnow]; exact not_apart Pc.noConfusion Pc.noConfusion)
        (not_apart Pc.noConfusion Pc.noConfusion)
  | hold f x =>
      rw [hnow] at hexec
      cases hexec
      exact holding_inv h hnow
  | ret f r =>
      have hapart : ¬(s.now c).apart := by
        rw [hnow]
        exact not_apart Pc.noConfusion Pc.noConfusion
      rw [hnow] at hexec hfits
      cases f with
      | acquire =>
          cases hexec
          cases r with
          | true => exact h.fail (hfits.2.trans hfits.1.symm) hapart
          | false =>
              refine h.go (by rw [hnow]; rfl) ?_ hapart (not_apart Pc.noConfusion Pc.noConfusion)
              exact ⟨hfits.1.symm, hfits.2.trans hfits.1.symm⟩
      | release =>
          cases hexec
          cases r with
          | true =>
              refine h.go (by rw [hnow]; rfl) ?_ hapart (not_apart Pc.noConfusion Pc.noConfusion)
              exact ⟨hfits.1.symm, hfits.2⟩
          | false => exact h.fail hfits.1.symm hapart
      | client =>
          cases hexec
          exact h.go (by rw [hnow]; rfl) hfits.2 hapart (not_apart Pc.noConfusion Pc.noConfusion)
  | exchange =>
      rw [hnow] at hexec
      simp only [exec] at hexec
      split at hexec
      · cases hexec
        exact h
      · rename_i hfree
        cases hexec
        exact exchange_inv h hpanic hnow (by simpa using hfree)
  | setCpu =>
      rw [hnow] at hexec hfits
      simp only [exec, hc.masked (Or.inr hfits.1), Bool.false_eq_true, if_false] at hexec
      cases hexec
      exact setCpu_inv h hpanic hnow
  | clearCpu =>
      rw [hnow] at hexec
      cases hexec
      exact clearCpu_inv h hpanic hnow
  | store =>
      rw [hnow] at hexec
      cases hexec
      exact store_inv h hpanic hnow
  | pop =>
      rw [hnow] at hexec hfits
      obtain ⟨hsome, hinv⟩ := h.pop (c := c) (p := .client) (by rw [hnow]; rfl)
        (hfits.2.trans hfits.1.symm) (by rw [hnow]; exact not_apart Pc.noConfusion Pc.noConfusion)
        (not_apart Pc.noConfusion Pc.noConfusion)
      simp only [exec, hsome] at hexec
      cases hexec
      exact hinv

/-- Client code takes or drops another lock. -/
theorem Inv.setOthers (h : Inv s) {x : Cpu} {n : Nat} (hrun : x.running = (s.cpu c).running)
    (hlayer : x.intDisableLayer.toNat = n + (s.now c).pushes + if s.inside c then 1 else 0)
    (hoff : x.intDisableLayer ≠ 0 → x.intFlag = false) (hn : n ≤ maxOthers)
    (hpanic : x.panicked = (s.cpu c).panicked) (hapart : ¬(s.now c).apart) :
    Inv { s.setCpu c x with others := Function.update s.others c n } := by
  have hcpu : (s.setCpu c x).cpu c = x := State.setCpu_self
  have hself : Function.update s.others c n c = n := Function.update_self ..
  have hnow : { s.setCpu c x with others := Function.update s.others c n }.now c = s.now c :=
    State.now_setCpu hrun
  have l : Local s c { s.setCpu c x with others := Function.update s.others c n } :=
    ⟨fun d hd => State.setCpu_ne hd, by rw [hcpu, hrun], fun _ _ => rfl, fun _ _ => rfl,
      fun _ _ => rfl, fun d hd => Function.update_of_ne hd ..⟩
  refine h.local l ⟨?_, ?_, ?_, ?_, ?_⟩
    (LockOk.same h l rfl rfl rfl hapart (by rw [hnow]; exact hapart))
  · rw [hnow, hcpu]
    show _ = Function.update s.others c n c + _ + _
    rw [hself]
    exact hlayer
  · rw [hcpu]
    exact hoff
  · show Function.update s.others c n c ≤ _
    rw [hself]
    exact hn
  · rw [hnow]
    exact (h.cpus c).fits
  · rw [hcpu, hpanic]
    exact (h.cpus c).panic

theorem client_inv (h : Inv s) (hpanic : (s.cpu c).panicked = none) (hnow : s.now c = .client) {e : Event}
    (hclient : client s c e = some s') : Inv s' := by
  have hc := h.cpus c
  have hfits := hc.fits
  have hlayer := hc.layer
  have hapart : ¬(s.now c).apart := by
    rw [hnow]
    exact not_apart Pc.noConfusion Pc.noConfusion
  rw [hnow] at hfits hlayer
  cases e with
  | acquire =>
      cases hclient
      exact h.go (by rw [hnow]; rfl) hfits hapart (not_apart Pc.noConfusion Pc.noConfusion)
  | release =>
      cases hclient
      have l : Local s c ({ s with owns := Function.update s.owns c false }.goto c
          (.hold .release .push)) :=
        local_lock (fun _ _ => rfl) (fun d hd => Function.update_of_ne hd ..) _
      refine h.local l ⟨?_, hc.off, hc.others, ?_, panicOk_of_none hpanic⟩
        (LockOk.same h l rfl rfl rfl hapart ?_)
      · rw [State.now_goto]
        exact hlayer
      · rw [State.now_goto]
        exact Function.update_self ..
      · rw [State.now_goto]
        exact not_apart Pc.noConfusion Pc.noConfusion
  | holding =>
      cases hclient
      exact h.go (by rw [hnow]; rfl) hfits hapart (not_apart Pc.noConfusion Pc.noConfusion)
  | pushOther =>
      simp only [client] at hclient
      split at hclient
      · rename_i hroom
        cases hclient
        refine h.setOthers rfl ?_ (fun _ => rfl) hroom rfl hapart
        show ((s.cpu c).intDisableLayer + 1).toNat = _
        rw [Sched.toNat_succ hc.small, hc.layer]
        omega
      · cases hclient
  | popOther =>
      simp only [client] at hclient
      split at hclient
      · cases hclient
      · rename_i hsome
        have hothers := hc.others
        obtain ⟨hpop, hpred, hoff⟩ := hc.pop (by omega)
        rw [hpop] at hclient
        cases hclient
        refine h.setOthers rfl ?_ hoff (by omega) rfl hapart
        rw [hpred, hc.layer]
        omega
  | setInterrupt on =>
      simp only [client] at hclient
      split at hclient
      · rename_i hzero
        cases hclient
        rw [← State.goto_now (by rfl)]
        exact h.advance rfl hc.layer (fun hne => absurd hzero hne) hc.fits hc.panic hapart hapart
      · cases hclient
  | exec => cases hclient
  | switch t => cases hclient

theorem Pc.parks_of_fits {p : Pc} {owns : Bool} (hfits : p.Fits false owns) (hpushes : p.pushes = 0) :
    p.parks = true ∧ owns = false := by
  cases p with
  | hold f x =>
      cases f with
      | acquire => cases x <;> cases hpushes
      | release =>
          cases x with
          | push => exact ⟨rfl, hfits⟩
          | _ => cases hpushes
      | client =>
          cases x with
          | push => exact ⟨rfl, hfits⟩
          | _ => cases hpushes
  | ret f r =>
      obtain ⟨rfl, howns⟩ : r = false ∧ owns = false := by cases f <;> exact hfits
      cases f with
      | acquire => cases hpushes
      | _ => exact ⟨rfl, howns⟩
  | client => exact ⟨rfl, hfits⟩
  | push => exact ⟨rfl, hfits⟩
  | exchange => cases hpushes
  | pop => cases hpushes
  | setCpu => exact Bool.noConfusion hfits.1
  | clearCpu => exact Bool.noConfusion hfits.1
  | store => exact Bool.noConfusion hfits.1

/-- A parked thread fits a CPU that is in no lock. -/
theorem Pc.fits_of_parks {p : Pc} (h : p.parks = true) :
    p.Fits false false ∧ p.pushes = 0 ∧ ¬p.apart := by
  cases p with
  | hold f x =>
      refine ⟨?_, ?_, not_apart Pc.noConfusion Pc.noConfusion⟩
      · cases f <;> cases x <;> first | rfl | cases h
      · cases f <;> cases x <;> first | rfl | cases h
  | ret f r =>
      refine ⟨?_, ?_, not_apart Pc.noConfusion Pc.noConfusion⟩
      · cases f <;> cases r <;> first | exact ⟨rfl, rfl⟩ | cases h
      · cases f <;> first | rfl | cases h
  | client => exact ⟨rfl, rfl, not_apart Pc.noConfusion Pc.noConfusion⟩
  | push => exact ⟨rfl, rfl, not_apart Pc.noConfusion Pc.noConfusion⟩
  | _ => cases h

/-- What a thread and its successor on the CPU have to agree on. -/
theorem switch_fits (h : Inv s) {t : ThreadId} (hfree : ∀ d, (s.cpu d).running ≠ t)
    (hmay : mayLeave s c t = true) :
    (s.now c).parks = true ∧ (s.pc t).Fits (s.inside c) (s.owns c) ∧
      (s.pc t).pushes = (s.now c).pushes ∧ ¬(s.now c).apart ∧ ¬(s.pc t).apart := by
  have hc := h.cpus c
  rw [mayLeave, Bool.or_eq_true] at hmay
  rcases hmay with hflag | hclient
  · obtain ⟨hpushes, hout⟩ := hc.unmasked hflag
    have hfits := hc.fits
    rw [hout] at hfits
    obtain ⟨hparks, howns⟩ := Pc.parks_of_fits hfits hpushes
    obtain ⟨hfits', hpushes', hapart'⟩ := Pc.fits_of_parks (h.parked t hfree)
    refine ⟨hparks, ?_, by rw [hpushes, hpushes'], (Pc.fits_of_parks hparks).2.2, hapart'⟩
    rw [hout, howns]
    exact hfits'
  · simp only [Bool.and_eq_true, decide_eq_true_eq] at hclient
    have hfits := hc.fits
    rw [hclient.1] at hfits
    rw [hclient.1, hclient.2]
    exact ⟨rfl, hfits, rfl, not_apart Pc.noConfusion Pc.noConfusion,
      not_apart Pc.noConfusion Pc.noConfusion⟩

theorem switch_inv (h : Inv s) {t : ThreadId} (hfree : ∀ d, (s.cpu d).running ≠ t)
    (hmay : mayLeave s c t = true) : Inv (s.setCpu c { s.cpu c with running := t }) := by
  obtain ⟨hparks, hfits, hpushes, hapart, hapart'⟩ := switch_fits h hfree hmay
  have hc := h.cpus c
  have hself : (s.setCpu c { s.cpu c with running := t }).cpu c = { s.cpu c with running := t } :=
    State.setCpu_self
  have hnow : (s.setCpu c { s.cpu c with running := t }).now c = s.pc t := by
    rw [State.now, hself]
    rfl
  have hother : ∀ d ≠ c, (s.setCpu c { s.cpu c with running := t }).cpu d = s.cpu d :=
    fun d hd => State.setCpu_ne hd
  have hnow' : ∀ d ≠ c, (s.setCpu c { s.cpu c with running := t }).now d = s.now d := fun d hd => by
    rw [State.now, hother d hd]
    rfl
  refine ⟨fun d => ?_, ⟨h.lock.locked, h.lock.unique, fun d => ?_⟩, fun u hu => ?_, fun a b hab => ?_⟩
  · by_cases hd : d = c
    · subst hd
      refine ⟨?_, ?_, hc.others, by rw [hnow]; exact hfits, ?_⟩
      · rw [hself, hnow, hpushes]
        exact hc.layer
      · rw [hself]
        exact hc.off
      · rw [hself]
        exact hc.panic
    · obtain ⟨hlayer, hoff, hothers, hf, hpanic⟩ := h.cpus d
      exact ⟨by rw [hother d hd, hnow' d hd]; exact hlayer, by rw [hother d hd]; exact hoff, hothers,
        by rw [hnow' d hd]; exact hf, by rw [hother d hd]; exact hpanic⟩
  · refine (h.lock.holder d).trans (and_congr_right fun _ => ?_)
    by_cases hd : d = c
    · rw [hd, hnow]
      exact iff_of_true hapart hapart'
    · rw [hnow' d hd]
  · show (s.pc u).parks = true
    by_cases hold : u = (s.cpu c).running
    · rw [hold]
      exact hparks
    · refine h.parked u fun d => ?_
      by_cases hd : d = c
      · rw [hd]
        exact Ne.symm hold
      · rw [← hother d hd]
        exact hu d
  · by_cases ha : a = c
    · by_cases hb : b = c
      · rw [ha, hb]
      · rw [ha, hself, hother b hb] at hab
        exact absurd hab.symm (hfree b)
    · by_cases hb : b = c
      · rw [hb, hself, hother a ha] at hab
        exact absurd hab (hfree a)
      · rw [hother a ha, hother b hb] at hab
        exact h.running a b hab

theorem step_inv (h : Inv s) {e : Event} (hstep : Step s c e s') : Inv s' := by
  cases hstep with
  | exec hpanic hexec => exact exec_inv h hpanic hexec
  | client hpanic hpc hclient => exact client_inv h hpanic hpc hclient
  | switch _ hfree hmay => exact switch_inv h hfree hmay

theorem init_inv (intFlag : Nat → Bool) : Inv (State.init intFlag) where
  cpus _ := ⟨rfl, fun hne => absurd rfl hne, Nat.zero_le _, rfl, trivial⟩
  lock := by
    refine ⟨iff_of_false (fun e => by cases e) ?_, fun _ _ ha => (by cases ha), fun d => ?_⟩
    · rintro ⟨_, hd⟩
      cases hd
    · refine iff_of_false (fun e => by cases e) ?_
      rintro ⟨hin, _⟩
      cases hin
  parked _ _ := rfl
  running _ _ hab := ThreadId.cpu.inj hab

theorem Reachable.inv (h : Reachable s) : Inv s := by
  induction h with
  | init intFlag => exact init_inv intFlag
  | step _ hstep ih => exact step_inv ih hstep

/-! ## Who holds the lock -/

/-- What a step does to those inside: the exchange on a free lock lets the CPU in, the
store lets it out. -/
theorem step_inside (h : Inv s) {e : Event} (hstep : Step s c e s') :
    s'.inside = s.inside ∨
      (s.locked = false ∧ s'.inside = Function.update s.inside c true) ∨
      (s.inside c = true ∧ s'.inside = Function.update s.inside c false) := by
  cases hstep with
  | exec _ hexec =>
      have hfits := (h.cpus c).fits
      cases hnow : s.now c with
      | exchange =>
          rw [hnow] at hexec
          simp only [exec] at hexec
          split at hexec <;> cases hexec
          · exact Or.inl rfl
          · rename_i hfree
            exact Or.inr (Or.inl ⟨by simpa using hfree, rfl⟩)
      | store =>
          rw [hnow] at hexec hfits
          cases hexec
          exact Or.inr (Or.inr ⟨hfits.1, rfl⟩)
      | hold f x =>
          rw [hnow] at hexec
          cases hexec
          left
          cases x with
          | push => rfl
          | readLocked => rfl
          | readCpu =>
              rw [holding]
              split <;> rfl
          | pop r =>
              rw [holding]
              split <;> rfl
      | ret f r =>
          rw [hnow] at hexec
          left
          cases f <;> cases hexec
          · cases r <;> rfl
          · cases r <;> rfl
          · rfl
      | client =>
          rw [hnow] at hexec
          cases hexec
      | _ =>
          rw [hnow] at hexec
          simp only [exec] at hexec
          left
          repeat' split at hexec
          all_goals
            cases hexec
            rfl
  | client _ _ hclient =>
      left
      cases e <;> simp only [client] at hclient
      all_goals repeat' split at hclient
      all_goals
        cases hclient
        try rfl
  | switch _ _ _ => exact Or.inl rfl

/-- The lock as its owner: what the scheduler model knows of a lock. -/
inductive OwnerStep (c : Nat) : Option Nat → Option Nat → Prop
  | stay (o : Option Nat) : OwnerStep c o o
  | take : OwnerStep c none (some c)
  | drop : OwnerStep c (some c) none

def Owner (s : State) (o : Option Nat) : Prop := ∀ c, s.inside c = true ↔ o = some c

/-- The two fields behave as one owner, which a CPU becomes only when there is none. -/
theorem step_owner (h : Inv s) {e : Event} (hstep : Step s c e s') {o : Option Nat} (ho : Owner s o) :
    ∃ o', Owner s' o' ∧ OwnerStep c o o' := by
  rcases step_inside h hstep with hsame | ⟨hfree, hin⟩ | ⟨hc, hout⟩
  · exact ⟨o, fun d => by rw [hsame]; exact ho d, .stay o⟩
  · have hnobody : ∀ d, s.inside d ≠ true := fun d hd => by
      rw [h.lock.locked.mpr ⟨d, hd⟩] at hfree
      cases hfree
    obtain rfl : o = none := by
      cases o with
      | none => rfl
      | some d => exact absurd ((ho d).mpr rfl) (hnobody d)
    refine ⟨some c, fun d => ?_, .take⟩
    rw [hin]
    by_cases hd : d = c
    · rw [hd, Function.update_self]
      exact iff_of_true rfl rfl
    · rw [Function.update_of_ne hd]
      exact iff_of_false (hnobody d) fun e => hd (Option.some.inj e).symm
  · obtain rfl : o = some c := (ho c).mp hc
    refine ⟨none, fun d => ?_, .drop⟩
    rw [hout]
    refine iff_of_false (fun hd => ?_) fun e => by cases e
    by_cases hdc : d = c
    · rw [hdc, Function.update_self] at hd
      cases hd
    · rw [Function.update_of_ne hdc] at hd
      exact hdc (h.lock.unique d c hd hc)

/-- What `holding` has found, by the time it returns. -/
theorem CpuOk.returned (h : CpuOk s c) {f : Caller} {r : Bool} (hnow : s.now c = .ret f r) :
    r = s.inside c ∧ (s.owns c = true → r = true) ∧ (f = .acquire → s.owns c = s.inside c) := by
  have hfits := h.fits
  rw [hnow] at hfits
  cases f with
  | release => exact ⟨hfits.1, fun ho => Bool.noConfusion (ho.symm.trans hfits.2), Caller.noConfusion⟩
  | acquire => exact ⟨hfits.1, fun ho => hfits.1.trans (hfits.2.symm.trans ho), fun _ => hfits.2⟩
  | client => exact ⟨hfits.1, fun ho => hfits.1.trans (hfits.2.symm.trans ho), fun _ => hfits.2⟩

/-- At most one CPU is between the exchange of `acquire` and the store of `release`.
`holding` returns true only there, and always between the two calls.  `acquire`
panics exactly on a CPU that holds the lock, `release` exactly on one that does not,
and nothing else panics. -/
theorem run_mutex (h : Reachable s) :
    (∀ c d, s.inside c = true → s.inside d = true → c = d) ∧
      (∀ c f r, s.now c = .ret f r →
        (r = true → s.inside c = true) ∧ (s.owns c = true → r = true)) ∧
      (∀ c r s', s.now c = .ret .acquire r → Step s c .exec s' →
        ((s'.cpu c).panicked = some .acquire ↔ s.owns c = true)) ∧
      (∀ c r s', s.now c = .ret .release r → Step s c .exec s' →
        ((s'.cpu c).panicked = some .release ↔ s.inside c = false)) ∧
      ∀ c, PanicOk (s.inside c) (s.owns c) (s.cpu c).panicked := by
  have hinv := h.inv
  refine ⟨hinv.lock.unique, fun c f r hnow => ?_, fun c r s' hnow hstep => ?_,
    fun c r s' hnow hstep => ?_, fun c => (hinv.cpus c).panic⟩
  · obtain ⟨hr, howns, _⟩ := (hinv.cpus c).returned hnow
    exact ⟨fun ht => hr.symm.trans ht, howns⟩
  · obtain ⟨hr, _, howns⟩ := (hinv.cpus c).returned hnow
    rw [howns rfl, ← hr]
    cases hstep with
    | client _ _ hclient => cases hclient
    | exec hpanic hexec =>
        rw [hnow] at hexec
        cases hexec
        cases r with
        | true => exact iff_of_true (congrArg Cpu.panicked State.setCpu_self) rfl
        | false =>
            refine iff_of_false (fun hx => ?_) Bool.noConfusion
            rw [show (s.cpu c).panicked = some .acquire from hx] at hpanic
            cases hpanic
  · obtain ⟨hr, _, _⟩ := (hinv.cpus c).returned hnow
    rw [← hr]
    cases hstep with
    | client _ _ hclient => cases hclient
    | exec hpanic hexec =>
        rw [hnow] at hexec
        cases hexec
        cases r with
        | false => exact iff_of_true (congrArg Cpu.panicked State.setCpu_self) rfl
        | true =>
            refine iff_of_false (fun hx => ?_) Bool.noConfusion
            rw [show (s.cpu c).panicked = some .release from hx] at hpanic
            cases hpanic

end

/-- CPU 0 has the lock, and CPU 1 is in the exchange loop. -/
theorem reachable_contended : ∃ s, Reachable s ∧ s.owns 0 = true ∧ s.inside 0 = true ∧
    s.now 1 = .exchange := by
  have h0 := Reachable.init fun _ => true
  have h1 := h0.step (c := 0) (.client (e := .acquire) rfl rfl rfl)
  have h2 := h1.step (c := 1) (.client (e := .acquire) rfl rfl rfl)
  have h3 := h2.step (c := 0) (.exec rfl rfl)
  have h4 := h3.step (c := 1) (.exec rfl rfl)
  have h5 := h4.step (c := 1) (.exec rfl rfl)
  have h6 := h5.step (c := 0) (.exec rfl rfl)
  have h7 := h6.step (c := 0) (.exec rfl rfl)
  have h8 := h7.step (c := 0) (.exec rfl rfl)
  have h9 := h8.step (c := 1) (.exec rfl rfl)
  have h10 := h9.step (c := 1) (.exec rfl rfl)
  have h11 := h10.step (c := 0) (.exec rfl rfl)
  have h12 := h11.step (c := 1) (.exec rfl rfl)
  have h13 := h12.step (c := 0) (.exec rfl rfl)
  have h14 := h13.step (c := 0) (.exec rfl rfl)
  exact ⟨_, h14, rfl, rfl, rfl⟩

theorem run_mutex_contended : ∃ s, Reachable s ∧ s.owns 0 = true ∧ s.now 1 = .exchange ∧
    ∀ d, s.inside d = true → 0 = d := by
  obtain ⟨s, h, howns, hin, hnow⟩ := reachable_contended
  exact ⟨s, h, howns, hnow, fun d hd => (run_mutex h).1 0 d hin hd⟩

end Spinlock
end GuideOS
