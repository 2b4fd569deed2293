import GuideOS.Proc.Sched.Inv

/-!
# Every step keeps the invariant

First the instructions that move no process and touch no lock, by one argument;
then the lock instructions, the queue moves and the context switches, each on its
own.
-/

namespace GuideOS
namespace Sched

/-- An update of the state of CPU `c` and of process records that leaves code,
locks and queues alone. -/
structure Soft (m : Machine) (c : Nat) (m' : Machine) : Prop where
  cpu : ∀ c' ≠ c, m'.cpu c' = m.cpu c'
  running : (m'.cpu c).running = (m.cpu c).running
  proc : (m'.cpu c).proc = (m.cpu c).proc
  layer : (m'.cpu c).intDisableLayer = (m.cpu c).intDisableLayer
  off : (m'.cpu c).intDisableLayer ≠ 0 → (m'.cpu c).intFlag = false
  owner : m'.owner = m.owner
  code : m'.code = m.code
  ready : m'.readyQueue = m.readyQueue
  waiting : m'.waitingQueue = m.waitingQueue
  added : m'.added = m.added
  passed : m'.passed = m.passed
  known : ∀ p, Known m' p ↔ Known m p

section

variable {m m' m'' : Machine} {c : Nat} {k k' : Code}

theorem Soft.goto (s : Soft m c m') : Quiet m c k' (m'.goto c k') where
  cpu := s.cpu
  running := s.running
  proc := s.proc
  layer := s.layer
  off := s.off
  owner := s.owner
  code := by
    show Function.update m'.code (m'.cpu c).running k' = _
    rw [s.code, s.running]
  ready := s.ready
  waiting := s.waiting
  added := s.added
  passed p hp := by
    show p ∈ m'.passed
    rw [s.passed]
    exact hp
  known := s.known

theorem Soft.stay (s : Soft m c m') : Quiet m c (m.next c) m' where
  cpu := s.cpu
  running := s.running
  proc := s.proc
  layer := s.layer
  off := s.off
  owner := s.owner
  code := by rw [s.code, Machine.next, Function.update_eq_self]
  ready := s.ready
  waiting := s.waiting
  added := s.added
  passed p hp := by rw [s.passed]; exact hp
  known := s.known

theorem Soft.trans (s : Soft m c m') (s' : Soft m' c m'') : Soft m c m'' where
  cpu c' h := (s'.cpu c' h).trans (s.cpu c' h)
  running := s'.running.trans s.running
  proc := s'.proc.trans s.proc
  layer := s'.layer.trans s.layer
  off := s'.off
  owner := s'.owner.trans s.owner
  code := s'.code.trans s.code
  ready := s'.ready.trans s.ready
  waiting := s'.waiting.trans s.waiting
  added := s'.added.trans s.added
  passed := s'.passed.trans s.passed
  known p := (s'.known p).trans (s.known p)

theorem soft_cpu {x : Cpu} (hrun : x.running = (m.cpu c).running) (hproc : x.proc = (m.cpu c).proc)
    (hlayer : x.intDisableLayer = (m.cpu c).intDisableLayer)
    (hoff : x.intDisableLayer ≠ 0 → x.intFlag = false) : Soft m c (m.setCpu c x) where
  cpu c' h := Machine.setCpu_cpu_ne h
  running := by rw [Machine.setCpu_cpu_self, hrun]
  proc := by rw [Machine.setCpu_cpu_self, hproc]
  layer := by rw [Machine.setCpu_cpu_self, hlayer]
  off := by rw [Machine.setCpu_cpu_self]; exact hoff
  owner := rfl
  code := rfl
  ready := rfl
  waiting := rfl
  added := rfl
  passed := rfl
  known _ := Iff.rfl

theorem soft_refl (h : Inv m) : Soft m c m :=
  ⟨fun _ _ => rfl, rfl, rfl, rfl, (h.cpus c).off, rfl, rfl, rfl, rfl, rfl, rfl, fun _ => Iff.rfl⟩

theorem soft_fifo (h : Inv m) (fifo : List (BitVec 8)) :
    Soft m c { m with consoleFifo := fifo } :=
  ⟨fun _ _ => rfl, rfl, rfl, rfl, (h.cpus c).off, rfl, rfl, rfl, rfl, rfl, rfl, fun _ => Iff.rfl⟩

theorem soft_fail (e : Panic) : Soft m c (m.fail c e) := soft_cpu rfl rfl rfl fun _ => rfl

theorem soft_callCurproc (h : Inv m) : Soft m c (m.callCurproc c) := by
  refine soft_cpu rfl rfl (Cpu.curproc_layer _) fun hlayer => ?_
  rw [Cpu.curproc_layer] at hlayer
  rw [Cpu.curproc_intFlag (h.cpus c).off]
  exact (h.cpus c).off hlayer

theorem soft_setProc (hoff : (m.cpu c).intDisableLayer ≠ 0 → (m.cpu c).intFlag = false)
    {p : ProcId} {x : Proc} (hp : Known m p) (hx : x.state ≠ .unused) :
    Soft m c (m.setProc p x) where
  cpu _ _ := rfl
  running := rfl
  proc := rfl
  layer := rfl
  off := hoff
  owner := rfl
  code := rfl
  ready := rfl
  waiting := rfl
  added := rfl
  passed := rfl
  known q := by
    rw [Known, Known]
    by_cases hq : q = p
    · subst hq
      rw [Machine.setProc_proc_self]
      exact iff_of_true hx hp
    · rw [Machine.setProc_proc_ne hq]

theorem soft_markRunnable (hoff : (m.cpu c).intDisableLayer ≠ 0 → (m.cpu c).intFlag = false)
    {p : ProcId} (hp : Known m p) : Soft m c (m.markRunnable p) := by
  rw [Machine.markRunnable]
  split
  · exact soft_setProc hoff hp ProcState.noConfusion
  · exact ⟨fun _ _ => rfl, rfl, rfl, rfl, hoff, rfl, rfl, rfl, rfl, rfl, rfl, fun _ => Iff.rfl⟩

/-! ## Plain instructions -/

/-- Instructions that may follow in the code of any thread. -/
def Instr.ordinary : Instr → Bool
  | .addReady _ => false
  | .startCpu => false
  | .pick => false
  | i => !i.headOnly

theorem headOnly_of_ordinary {i : Instr} (h : i.ordinary = true) : i.headOnly = false := by
  cases i <;> first | rfl | exact Bool.noConfusion h

theorem count_ordinary {f : Code} (hf : ∀ i ∈ f, i.ordinary = true) (p : ProcId) :
    f.count (.addReady p) = 0 :=
  List.count_eq_zero.mpr fun hp => Bool.noConfusion (hf _ hp)

theorem count_cons_ordinary {i : Instr} (hi : i.ordinary = true) (p : ProcId) :
    (i :: k).count (.addReady p) = k.count (.addReady p) :=
  List.count_cons_of_ne fun e => by
    rw [e] at hi
    cases hi

theorem inSched_append {f : Code} (hf : ∀ i ∈ f, i.ordinary = true) : InSched (f ++ k) ↔ InSched k := by
  have hno : ∀ {i : Instr}, i.ordinary = false → (i ∈ f ++ k ↔ i ∈ k) := fun hi => by
    rw [List.mem_append, or_iff_right fun hif => ?_]
    rw [hf _ hif] at hi
    cases hi
  simp only [InSched, hno (i := .startCpu) rfl, hno (i := .pick) rfl, hno (i := .requeue) rfl,
    hno (i := .clearProc) rfl]
  refine and_congr_right fun _ => or_congr_right (or_congr_right (or_congr_right ?_))
  exact exists_congr fun p => hno rfl

theorem inSched_cons {i : Instr} (hi : i.ordinary = true) : InSched (i :: k) ↔ InSched k :=
  inSched_append (f := [i]) fun j hj => by rw [List.mem_singleton.mp hj, hi]

/-- The next instruction is replaced by the code `f`. -/
theorem Inv.replace (h : Inv m) (hpanic : (m.cpu c).panicked = none) {i : Instr}
    (hnext : m.next c = i :: k) (hi : i.ordinary = true) (s : Soft m c m') {f : Code}
    (hf : ∀ j ∈ f, j.ordinary = true)
    (htyped : Typed (m.cpu c).running (f ++ k) (m.held c)) : Inv (m'.goto c (f ++ k)) := by
  have hstill : Still k := by
    have := (h.cpus c).tail
    rwa [hnext] at this
  refine h.quiet hpanic s.goto ?_ ?_ htyped ?_ s.passed ?_
  · rw [hnext]
    intro j hj
    rw [← Option.some.inj hj]
    exact headOnly_of_ordinary hi
  · intro j hj
    rcases List.mem_append.mp hj with hj | hj
    · exact headOnly_of_ordinary (hf j hj)
    · exact hstill j hj
  · intro p
    rw [hnext, List.count_append, count_ordinary hf, Nat.zero_add, count_cons_ordinary hi]
  · rw [hnext, inSched_append hf, inSched_cons hi]

theorem Inv.advance (h : Inv m) (hpanic : (m.cpu c).panicked = none) {i : Instr}
    (hnext : m.next c = i :: k) (hi : i.ordinary = true) (s : Soft m c m')
    (htyped : Typed (m.cpu c).running k (m.held c)) : Inv (m'.goto c k) :=
  h.replace hpanic hnext hi s (f := []) (fun _ hj => absurd hj List.not_mem_nil) htyped

/-- A panic before anything else has changed. -/
theorem Inv.stop (h : Inv m) (hpanic : (m.cpu c).panicked = none) (hplain : Plain (m.next c))
    (s : Soft m c m') : Inv m' := by
  have htail := (h.cpus c).tail
  refine h.quiet hpanic s.stay hplain ?_ (h.cpus c).typed (fun p => rfl) s.passed Iff.rfl
  cases hnext : m.next c with
  | nil => exact fun i hi => absurd hi List.not_mem_nil
  | cons i k =>
      rw [hnext] at htail hplain
      intro j hj
      rcases List.mem_cons.mp hj with rfl | hj
      · exact hplain j rfl
      · exact htail j hj

/-- Outside the scheduler the current process of a CPU is the one it runs. -/
theorem Inv.running_of_proc (h : Inv m) (hplain : Plain (m.next c)) {p : ProcId}
    (hproc : (m.cpu c).proc = some p) : (m.cpu c).running = .proc p ∧ Known m p := by
  refine ⟨?_, h.placed.known p (.cpu c) ((at_cpu_of_settled hplain.settled).mpr hproc)⟩
  cases (h.cpus c).thread with
  | sched _ hnone =>
      rw [hproc] at hnone
      cases hnone
  | back _ _ _ hback =>
      rcases hback with hback | hback
      · exact absurd hback (hplain.settled.ne_singleton rfl)
      · exact absurd hback (hplain.settled.ne_singleton rfl)
  | proc q hrun hq _ =>
      rw [hproc, Option.some.injEq] at hq
      rw [hq, hrun]

theorem plain_of_head {i : Instr} (hnext : m.next c = i :: k) (hi : i.headOnly = false) :
    Plain (m.next c) := by
  rw [hnext]
  intro j hj
  rw [← Option.some.inj hj]
  exact hi

theorem plain_of_ordinary {i : Instr} (hnext : m.next c = i :: k) (hi : i.ordinary = true) :
    Plain (m.next c) :=
  plain_of_head hnext (headOnly_of_ordinary hi)

theorem ordinary_schedYield : ∀ i ∈ schedYield, i.ordinary = true :=
  List.all_eq_true.mp rfl

theorem ordinary_sleepBody (p : ProcId) (chan : Chan) (lk : LockId) :
    ∀ i ∈ sleepBody p chan lk, i.ordinary = true := by
  rw [sleepBody]
  split <;> exact List.all_eq_true.mp rfl

/-- With no lock the interrupt counter is zero. -/
theorem Inv.layer_eq_zero (h : Inv m) (hpanic : (m.cpu c).panicked = none)
    (hplain : Plain (m.next c)) (hheld : m.held c = ∅) : (m.cpu c).intDisableLayer = 0 := by
  have hlayer := (h.cpus c).layer (by simp [hpanic])
  rw [hheld, hplain.spinning, Finset.card_empty] at hlayer
  exact BitVec.eq_of_toNat_eq hlayer

/-- With `sched.lock` alone the counter is one. -/
theorem Inv.layer_eq_one (h : Inv m) (hpanic : (m.cpu c).panicked = none)
    (hspin : spinning (m.next c) = 0) (hheld : m.held c = {.sched}) :
    (m.cpu c).intDisableLayer = 1 := by
  have hlayer := (h.cpus c).layer (by simp [hpanic])
  rw [hheld, hspin, Finset.card_singleton] at hlayer
  exact BitVec.eq_of_toNat_eq hlayer

/-- Instructions that mark the current process `RUNNABLE`, if there is one. -/
theorem Inv.mark (h : Inv m) (hpanic : (m.cpu c).panicked = none) {i : Instr}
    (hnext : m.next c = i :: k) (hi : i.ordinary = true) {p : ProcId}
    (hproc : (m.cpu c).proc = some p)
    (htyped : Typed (m.cpu c).running k (m.held c)) :
    Inv (((m.callCurproc c).markRunnable p).goto c k) := by
  have hs := soft_callCurproc (c := c) h
  have hp : Known (m.callCurproc c) p :=
    (hs.known p).mpr (h.running_of_proc (plain_of_ordinary hnext hi) hproc).2
  exact h.advance hpanic hnext hi (hs.trans (soft_markRunnable hs.off hp)) htyped

/-- The instructions that move no process and touch no lock. -/
theorem exec_plain (h : Inv m) (hpanic : (m.cpu c).panicked = none) {i : Instr}
    (hnext : m.next c = i :: k) (hi : i.ordinary = true) (hacq : ∀ l, i ≠ .acquire l)
    (hrel : ∀ l, i ≠ .release l) (hout : i ≠ .switchOut) (hwake : ∀ chan j, i ≠ .wakeLoop chan j)
    (hexec : exec m c k i = some m') : Inv m' := by
  have htyped := (h.cpus c).typed
  have hplain := plain_of_ordinary hnext hi
  have hcall := soft_callCurproc (c := c) h
  have hproc' : ((m.callCurproc c).cpu c).proc = (m.cpu c).proc := hcall.proc
  rw [hnext] at htyped
  cases i with
  | acquire l => exact absurd rfl (hacq l)
  | release l => exact absurd rfl (hrel l)
  | switchOut => exact absurd rfl hout
  | wakeLoop chan j => exact absurd rfl (hwake chan j)
  | spin l => cases hi
  | addReady p => cases hi
  | startCpu => cases hi
  | pick => cases hi
  | dispatch p => cases hi
  | requeue => cases hi
  | clearProc => cases hi
  | pushReady p => cases hi
  | addCheck p =>
      rw [exec] at hexec
      split at hexec <;> cases hexec
      · exact h.advance hpanic hnext hi (soft_refl h) htyped
      · exact h.stop hpanic hplain (soft_fail _)
  | yieldMark =>
      simp only [exec, hproc'] at hexec
      cases hproc : (m.cpu c).proc <;> rw [hproc] at hexec <;> cases hexec
      · exact h.stop hpanic hplain (hcall.trans (soft_fail _))
      · exact h.mark hpanic hnext hi hproc htyped.2
  | conRead =>
      simp only [exec, hproc'] at hexec
      cases hproc : (m.cpu c).proc <;> rw [hproc] at hexec <;> cases hexec
      · exact h.stop hpanic hplain (hcall.trans (soft_fail _))
      · exact h.mark hpanic hnext hi hproc htyped
  | tick =>
      simp only [exec, hproc'] at hexec
      cases hproc : (m.cpu c).proc <;> rw [hproc] at hexec <;> cases hexec
      · exact h.advance hpanic hnext hi hcall htyped
      · exact h.mark hpanic hnext hi hproc htyped
  | kentry =>
      simp only [exec, hproc'] at hexec
      cases hproc : (m.cpu c).proc <;> rw [hproc] at hexec <;> cases hexec
      · exact h.stop hpanic hplain (hcall.trans (soft_fail _))
      · exact h.advance hpanic hnext hi hcall htyped.2
  | maybeYield =>
      simp only [exec, hproc'] at hexec
      cases hproc : (m.cpu c).proc <;> rw [hproc] at hexec
      · cases hexec
        exact h.advance hpanic hnext hi hcall htyped
      · dsimp only at hexec
        split at hexec <;> cases hexec
        · exact h.advance hpanic hnext hi hcall htyped
        · exact h.replace hpanic hnext hi hcall ordinary_schedYield (typed_schedYield htyped)
  | sleepEnter chan lk =>
      simp only [exec, hproc'] at hexec
      cases hproc : (m.cpu c).proc with
      | none =>
          rw [hproc] at hexec
          cases hexec
          exact h.stop hpanic hplain (hcall.trans (soft_fail _))
      | some p =>
          rw [hproc] at hexec
          cases hexec
          have hrun := (h.running_of_proc hplain hproc).1
          refine h.replace hpanic hnext hi hcall (ordinary_sleepBody p chan lk) ?_
          rw [hrun] at htyped ⊢
          exact typed_sleepBody htyped
  | restoreInt intena =>
      cases hexec
      exact h.advance hpanic hnext hi (soft_cpu rfl rfl rfl (h.cpus c).off) htyped.2
  | setSleeping p chan =>
      cases hexec
      have hp := h.known_running htyped.1
      exact h.advance hpanic hnext hi (soft_setProc (h.cpus c).off hp ProcState.noConfusion) htyped.2
  | clearChan p =>
      cases hexec
      have hp := h.known_running htyped.1
      exact h.advance hpanic hnext hi (soft_setProc (h.cpus c).off hp hp) htyped.2.2
  | iret intFlag =>
      cases hexec
      refine h.advance hpanic hnext hi (soft_cpu rfl rfl rfl fun hlayer => ?_) htyped.2
      cases hflag : intFlag with
      | false => rfl
      | true => exact absurd (h.layer_eq_zero hpanic hplain (htyped.1 hflag)) hlayer
  | isrRead bytes =>
      simp only [exec] at hexec
      split at hexec <;> cases hexec
      · exact h.advance hpanic hnext hi (soft_fifo h _) htyped.2
      · exact h.stop hpanic hplain ((soft_fifo h _).trans (soft_fail _))
  | getcTry =>
      simp only [exec] at hexec
      cases hfifo : m.consoleFifo with
      | nil =>
          rw [hfifo] at hexec
          cases hexec
          exact h.replace hpanic hnext hi (soft_refl h)
            (f := [.sleepEnter .consoleFifo .consoleRead, .getcTry])
            (List.all_eq_true.mp rfl) htyped
      | cons val rest =>
          rw [hfifo] at hexec
          cases hexec
          exact h.replace hpanic hnext hi (soft_fifo h rest)
            (f := [.release .consoleRead, .ret (filterChar val)])
            (List.all_eq_true.mp rfl) fun _ => htyped.2
  | ret val =>
      cases hexec
      exact h.advance hpanic hnext hi (soft_refl h) htyped

/-! ## Locks -/

/-- A step that changes locks and the counter of its CPU, and no place. -/
theorem Inv.lock (h : Inv m) {f : Code} (q : Local m c f m') (hold : Settled (m.next c))
    (hnew : Settled f) (hproc : (m'.cpu c).proc = (m.cpu c).proc)
    (hready : m'.readyQueue = m.readyQueue) (hwaiting : m'.waitingQueue = m.waitingQueue)
    (hadded : m'.added = m.added) (hpassed : m'.passed = m.passed) {H : Finset LockId}
    (hheld : m'.held c = H)
    (hlayer : (m'.cpu c).panicked ≠ some .acquire →
      (m'.cpu c).intDisableLayer.toNat = H.card + spinning f)
    (hoff : (m'.cpu c).intDisableLayer ≠ 0 → (m'.cpu c).intFlag = false)
    (htyped : Typed (m.cpu c).running f H) (htail : Still f.tail)
    (hcount : ∀ p, f.count (.addReady p) = (m.next c).count (.addReady p))
    (hsched : InSched f ↔ InSched (m.next c)) : Inv m' := by
  have hknown : ∀ p, Known m p → Known m' p := fun p => (q.known p).mpr
  have hpass : ∀ p ∈ m.passed, p ∈ m'.passed := fun p hp => by rw [hpassed]; exact hp
  refine h.of_local q ⟨?_, hoff, ?_, ?_, ?_, (h.cpus c).thread.goto q hold hproc⟩
    (h.placed.congr (q.at_iff h hproc hready hwaiting hold hnew) hadded hpass hknown hready hwaiting)
    (h.adds.goto q.code hcount hadded hpassed hknown) hsched
  · rw [q.next_self, hheld]
    exact hlayer
  · rw [q.running, q.next_self, hheld]
    exact htyped
  · rw [q.next_self]
    exact htail
  · intro p hp
    rw [q.next_self] at hp
    exact absurd hp (hnew.head_ne rfl)

theorem Inv.still_tail (h : Inv m) {i : Instr} (hnext : m.next c = i :: k) : Still k := by
  have := (h.cpus c).tail
  rwa [hnext] at this

theorem exec_acquire (h : Inv m) (hpanic : (m.cpu c).panicked = none) {l : LockId}
    (hnext : m.next c = .acquire l :: k) (hexec : exec m c k (.acquire l) = some m') : Inv m' := by
  have htyped := (h.cpus c).typed
  have hlayer := (h.cpus c).layer (by simp [hpanic])
  have hplain : Plain (m.next c) := plain_of_ordinary hnext rfl
  have hcard := card_held_lt m c
  rw [hplain.spinning] at hlayer
  have hpush : (m.cpu c).pushIntDisable.intDisableLayer.toNat = (m.held c).card + 1 := by
    show ((m.cpu c).intDisableLayer + 1).toNat = _
    rw [toNat_succ (by omega)]
    omega
  simp only [exec] at hexec
  split at hexec <;> cases hexec
  · -- The CPU holds the lock already: it stops with the counter one too high.
    have hcpu : ∀ x : Cpu, ∀ c' ≠ c, ((m.setCpu c (m.cpu c).pushIntDisable).setCpu c x).cpu c' =
        m.cpu c' := fun x c' hne => by
      rw [Machine.setCpu_cpu_ne hne, Machine.setCpu_cpu_ne hne]
    refine h.lock (f := m.next c) ⟨⟨hcpu _, fun _ _ _ => Iff.rfl, fun _ _ _ => rfl⟩, ?_, ?_,
      fun _ => Iff.rfl⟩ hplain.settled hplain.settled ?_ rfl rfl rfl rfl rfl ?_ ?_ htyped
      (h.cpus c).tail (fun _ => rfl) Iff.rfl
    · simp [Machine.fail]
    · exact (Function.update_eq_self _ _).symm
    · simp [Machine.fail]
    · simp [Machine.fail]
    · simp [Machine.fail]
  · rename_i hown
    have hmem : l ∉ m.held c := fun hl => hown (Machine.mem_held.mp hl)
    rw [hnext] at htyped
    refine h.lock (f := .spin l :: k) ⟨⟨fun c' hne => Machine.setCpu_cpu_ne hne,
      fun _ _ _ => Iff.rfl, fun t ht _ => ?_⟩, ?_, ?_, fun _ => Iff.rfl⟩ hplain.settled ?_ ?_
      rfl rfl rfl rfl rfl ?_ ?_ ⟨hmem, htyped hmem⟩ (h.still_tail hnext) ?_ ?_
    · rw [Machine.goto_code_ne (by simpa using ht)]
      rfl
    · simp
    · simp [Machine.goto, Machine.setCpu]
    · intro i hi
      rw [← Option.some.inj hi]
      rfl
    · simp
    · intro _
      simp only [Machine.goto_cpu, Machine.setCpu_cpu_self]
      exact hpush
    · intro _
      simp
    · intro p
      rw [hnext]
      simp
    · rw [hnext]
      simp [InSched]

/-- What changes when CPU `c` takes or drops one lock. -/
theorem frame_owner {l : LockId} {o : Option Nat} (hold : m.owner l = none ∨ m.owner l = some c)
    (hnew : o = none ∨ o = some c) {c' : Nat} (hne : c' ≠ c) (l' : LockId) :
    (m.setOwner l o).owner l' = some c' ↔ m.owner l' = some c' := by
  rw [Machine.setOwner]
  by_cases hl : l' = l
  · subst hl
    have hc : (some c : Option Nat) ≠ some c' := fun e => hne (Option.some.inj e).symm
    rcases hold with hold | hold <;> rcases hnew with hnew | hnew <;> simp [hold, hnew, hne.symm]
  · simp [Function.update_of_ne hl]

theorem held_take {l : LockId} : (m.setOwner l (some c)).held c = insert l (m.held c) := by
  ext l'
  rw [Machine.mem_held, Finset.mem_insert, Machine.mem_held, Machine.setOwner]
  by_cases hl : l' = l
  · simp [hl]
  · simp [hl]

theorem held_drop {l : LockId} : (m.setOwner l none).held c = (m.held c).erase l := by
  ext l'
  rw [Machine.mem_held, Finset.mem_erase, Machine.mem_held, Machine.setOwner]
  by_cases hl : l' = l
  · simp [hl]
  · simp [hl]

theorem Still.settled {k : Code} (h : Still k) : Settled k := h.plain.settled

theorem exec_spin (h : Inv m) (hpanic : (m.cpu c).panicked = none) {l : LockId}
    (hnext : m.next c = .spin l :: k) (hexec : exec m c k (.spin l) = some m') : Inv m' := by
  have htyped := (h.cpus c).typed
  have hlayer := (h.cpus c).layer (by simp [hpanic])
  have hstill := h.still_tail hnext
  rw [hnext] at htyped hlayer
  simp only [exec] at hexec
  split at hexec
  · rename_i hown
    cases hexec
    have hheld : ((m.setOwner l (some c)).goto c k).held c = insert l (m.held c) := held_take
    refine h.lock (f := k) ⟨⟨fun _ _ => rfl, fun c' hne l' => ?_, fun t ht _ => ?_⟩, rfl, rfl,
      fun _ => Iff.rfl⟩ ?_ hstill.settled rfl rfl rfl rfl rfl hheld ?_
      (h.cpus c).off htyped.2 hstill.tail ?_ ?_
    · exact frame_owner (Or.inl hown) (Or.inr rfl) hne l'
    · exact Machine.goto_code_ne ht
    · rw [hnext]
      intro i hi
      rw [← Option.some.inj hi]
      rfl
    · intro _
      rw [Finset.card_insert_of_notMem htyped.1, hstill.plain.spinning]
      exact hlayer
    · intro p
      rw [hnext]
      simp
    · rw [hnext]
      simp [InSched]
  · cases hexec

theorem exec_release (h : Inv m) (hpanic : (m.cpu c).panicked = none) {l : LockId}
    (hnext : m.next c = .release l :: k) (hexec : exec m c k (.release l) = some m') : Inv m' := by
  have htyped := (h.cpus c).typed
  have hlayer := (h.cpus c).layer (by simp [hpanic])
  have hplain : Plain (m.next c) := plain_of_ordinary hnext rfl
  have hstill := h.still_tail hnext
  rw [hplain.spinning] at hlayer
  rw [hnext] at htyped
  simp only [exec] at hexec
  split at hexec
  · rename_i hown
    have hmem : l ∈ m.held c := Machine.mem_held.mpr hown
    have hpos := Finset.card_pos.mpr ⟨l, hmem⟩
    have hne0 : (m.cpu c).intDisableLayer ≠ 0 := fun e => by
      rw [e] at hlayer
      simp at hlayer
      omega
    have hpop : (m.cpu c).popIntDisable = some (m.cpu c).popLayer := by
      rw [Cpu.popIntDisable, (h.cpus c).off hne0]
      rfl
    rw [hpop] at hexec
    cases hexec
    refine h.lock (f := k) ⟨⟨fun c' hne => ?_, fun c' hne l' => ?_, fun t ht _ => ?_⟩, ?_, ?_,
      fun _ => Iff.rfl⟩ hplain.settled hstill.settled ?_ rfl rfl rfl rfl held_drop ?_
      ?_ (htyped hmem) hstill.tail ?_ ?_
    · exact Machine.setCpu_cpu_ne hne
    · exact frame_owner (Or.inr hown) (Or.inl rfl) hne l'
    · rw [Machine.goto_code_ne (by simpa using ht)]
      rfl
    · simp
    · simp [Machine.goto, Machine.setCpu, Machine.setOwner]
    · simp
    · intro _
      rw [Finset.card_erase_of_mem hmem, hstill.plain.spinning]
      simp only [Machine.goto_cpu, Machine.setCpu_cpu_self]
      show ((m.cpu c).intDisableLayer - 1).toNat = _
      rw [toNat_pred hne0]
      omega
    · simp only [Machine.goto_cpu, Machine.setCpu_cpu_self]
      intro hlayer'
      show (if (m.cpu c).intDisableLayer - 1 = 0 ∧ _ then true else (m.cpu c).intFlag) = false
      rw [if_neg fun e => hlayer' e.1]
      exact (h.cpus c).off hne0
    · intro p
      rw [hnext]
      simp
    · rw [hnext]
      simp [InSched]
  · cases hexec
    exact h.stop hpanic hplain (soft_fail _)

end

end Sched
end GuideOS
