import GuideOS.Proc.Sched.Effect

/-!
# The interrupt state of processes

`int_disable_layer` and `int_enabled` belong to a CPU, the interrupt flag to
restore belongs to the process that took its first lock.  Clients here keep to the
rules of `sched_yield` and `sched_sleep`; then the tests of `sched_switch_out`
never fail, and a process that drops its last lock has the flag from before its
first one, on whichever CPU it is by then.
-/

namespace GuideOS
namespace Sched

/-! ## The rules for clients -/

/-- `sched_yield` is called with no lock, `sched_sleep` with its lock alone; so a
system call, which may yield at its end, and `console_getc`, which sleeps, are
made with no lock. -/
def Rules (m : Machine) (c : Nat) : Event → Prop
  | .call .schedYield => m.held c = ∅
  | .call (.schedSleep _ lk) => m.held c = {lk}
  | .call .consoleGetc => m.held c = ∅
  | .call (.syscall _) => m.held c = ∅
  | _ => True

inductive Disciplined : Machine → Prop
  | boot (uartEnable : Bool) : Disciplined (Machine.boot uartEnable)
  | step {m m' : Machine} {c : Nat} {e : Event} (h : Disciplined m) (hlegal : Legal m c e)
      (hrules : Rules m c e) (hstep : step m c e = some m') : Disciplined m'

theorem Disciplined.reachable {m : Machine} (h : Disciplined m) : Reachable m := by
  induction h with
  | boot uartEnable => exact .boot uartEnable
  | step _ hlegal _ hstep ih => exact .step ih hlegal hstep

/-! ## Strict typing

What `Typed` leaves to the panics: the locks with which a switch is reached, that a
mark comes right before it, and that only the first instruction of a thread resumes
it. -/

def Instr.wants : Instr → Finset LockId → Prop
  | .switchOut, H => H = {.sched}
  | .sleepEnter _ lk, H => H = {lk}
  | .getcTry, H => H = {.consoleRead}
  | .maybeYield, H => H = ∅
  | _, _ => True

/-- The tests of `acquire` and `release`. -/
def Instr.passes : Instr → Finset LockId → Prop
  | .acquire l, H => l ∉ H
  | .release l, H => l ∈ H
  | _, _ => True

def Instr.after : Instr → Finset LockId → Finset LockId
  | .acquire l, H => insert l H
  | .spin l, H => insert l H
  | .release l, H => H.erase l
  | .getcTry, H => H.erase .consoleRead
  | _, H => H

/-- The current process is not `RUNNING` any more. -/
def Instr.marks : Instr → Bool
  | .yieldMark => true
  | .setSleeping _ _ => true
  | _ => false

/-- The first instruction after a switch to a process. -/
def Instr.resumes : Instr → Bool
  | .restoreInt _ => true
  | .kentry => true
  | _ => false

def Follows (i : Instr) (k : Code) : Prop :=
  ∀ j ∈ k.head?, j.resumes = false ∧ (j = .switchOut → i.marks = true)

def Strict : Code → Finset LockId → Prop
  | [], _ => True
  | i :: k, H => i.wants H ∧ Follows i k ∧ (i.passes H → Strict k (i.after H))

section

variable {i j : Instr} {k : Code} {H : Finset LockId}

theorem follows_nil : Follows i [] := fun _ hj => by cases hj

theorem follows_cons (hj : j.resumes = false) (hs : j = .switchOut → i.marks = true) :
    Follows i (j :: k) := by
  intro x hx
  rw [← Option.some.inj hx]
  exact ⟨hj, hs⟩

/-- After an instruction that marks nothing, any other may stand. -/
theorem Follows.any (h : Follows i k) (hi : i.marks = false) : Follows j k := by
  intro x hx
  obtain ⟨hr, hs⟩ := h x hx
  refine ⟨hr, fun e => ?_⟩
  rw [hs e] at hi
  cases hi

theorem strict_schedYield (hf : Follows (.release .sched) k) (h : Strict k ∅) :
    Strict (schedYield ++ k) ∅ := by
  refine ⟨trivial, follows_cons rfl Instr.noConfusion, fun _ => ?_⟩
  refine ⟨trivial, follows_cons rfl fun _ => rfl, fun _ => ?_⟩
  refine ⟨insert_empty_eq LockId.sched, follows_cons rfl Instr.noConfusion, fun _ => ?_⟩
  refine ⟨trivial, hf, fun _ => ?_⟩
  have hback := Finset.erase_insert (Finset.notMem_empty LockId.sched)
  show Strict k ((insert LockId.sched ∅ : Finset LockId).erase .sched)
  rw [hback]
  exact h

theorem strict_sleepBody {p : ProcId} {chan : Chan} {lk : LockId}
    (hf : Follows (.release .sched) k) (h : Strict k {lk}) :
    Strict (sleepBody p chan lk ++ k) {lk} := by
  rw [sleepBody]
  by_cases hlk : lk = .sched
  · rw [if_pos hlk]
    refine ⟨trivial, follows_cons rfl fun _ => rfl, fun _ => ?_⟩
    refine ⟨by rw [hlk]; rfl, follows_cons rfl Instr.noConfusion, fun _ => ?_⟩
    exact ⟨trivial, hf.any rfl, fun _ => h⟩
  · rw [if_neg hlk]
    have hdrop : (insert LockId.sched {lk} : Finset LockId).erase lk = {.sched} := by
      ext l
      simp only [Finset.mem_erase, Finset.mem_insert, Finset.mem_singleton]
      constructor
      · rintro ⟨hne, rfl | rfl⟩
        · rfl
        · exact absurd rfl hne
      · rintro rfl
        exact ⟨fun e => hlk e.symm, Or.inl rfl⟩
    have hback : (insert lk {LockId.sched} : Finset LockId).erase .sched = {lk} := by
      ext l
      simp only [Finset.mem_erase, Finset.mem_insert, Finset.mem_singleton]
      constructor
      · rintro ⟨hne, rfl | rfl⟩
        · rfl
        · exact absurd rfl hne
      · rintro rfl
        exact ⟨hlk, Or.inl rfl⟩
    refine ⟨trivial, follows_cons rfl Instr.noConfusion, fun _ => ?_⟩
    refine ⟨trivial, follows_cons rfl Instr.noConfusion, fun _ => ?_⟩
    show Strict _ ((insert LockId.sched {lk} : Finset LockId).erase lk)
    rw [hdrop]
    refine ⟨trivial, follows_cons rfl fun _ => rfl, fun _ => ?_⟩
    refine ⟨rfl, follows_cons rfl Instr.noConfusion, fun _ => ?_⟩
    refine ⟨trivial, follows_cons rfl Instr.noConfusion, fun _ => ?_⟩
    refine ⟨trivial, follows_cons rfl Instr.noConfusion, fun _ => ?_⟩
    refine ⟨trivial, hf, fun _ => ?_⟩
    show Strict k ((insert lk {LockId.sched} : Finset LockId).erase .sched)
    rw [hback]
    exact h

theorem strict_schedWakeup {chan : Chan} (hf : Follows (.release .sched) k) (h : Strict k H) :
    Strict (schedWakeup chan ++ k) H := by
  refine ⟨trivial, follows_cons rfl Instr.noConfusion, fun hs => ?_⟩
  refine ⟨trivial, follows_cons rfl Instr.noConfusion, fun _ => ?_⟩
  refine ⟨trivial, hf, fun _ => ?_⟩
  have hback : (insert LockId.sched H).erase .sched = H := Finset.erase_insert hs
  show Strict k ((insert LockId.sched H).erase .sched)
  rw [hback]
  exact h

/-- The instructions that keep the locks, replaced by what they expand to. -/
theorem strict_expand {f : Code} (hx : Expands i f) (hspin : ∀ l, i ≠ .spin l)
    (hrel : ∀ l, i ≠ .release l) (hacq : i.passes H) (h : Strict (i :: k) H) :
    Strict (f ++ k) H := by
  obtain ⟨hwants, hf, hk⟩ := h
  have hk' := hk hacq
  cases hx with
  | single hi =>
      cases i with
      | spin l => exact absurd rfl (hspin l)
      | release l => exact absurd rfl (hrel l)
      | acquire l => cases hi
      | getcTry => cases hi
      | _ => exact hk'
  | acquire l => exact ⟨trivial, hf.any rfl, fun _ => hk'⟩
  | pick p => exact ⟨trivial, hf.any rfl, fun _ => hk'⟩
  | requeue => exact ⟨trivial, hf.any rfl, fun _ => hk'⟩
  | clearProc => exact ⟨trivial, hf.any rfl, fun _ => hk'⟩
  | sleepEnter p chan lk =>
      have hH : H = {lk} := hwants
      rw [hH] at hk' ⊢
      exact strict_sleepBody (hf.any rfl) hk'
  | wakeSkip chan n => exact ⟨trivial, hf.any rfl, fun _ => hk'⟩
  | wakeTake chan n p =>
      exact ⟨trivial, follows_cons rfl Instr.noConfusion, fun _ => ⟨trivial, hf.any rfl, fun _ => hk'⟩⟩
  | maybeYield =>
      have hH : H = ∅ := hwants
      rw [hH] at hk' ⊢
      exact strict_schedYield (hf.any rfl) hk'
  | getcSleep =>
      exact ⟨hwants, follows_cons rfl Instr.noConfusion, fun _ => ⟨hwants, hf, fun _ => hk'⟩⟩
  | getcRead v =>
      exact ⟨trivial, follows_cons rfl Instr.noConfusion, fun _ => ⟨trivial, hf.any rfl, fun _ => hk'⟩⟩

theorem strict_procKentry : Strict procKentry {.sched} :=
  ⟨trivial, follows_cons rfl Instr.noConfusion, fun _ =>
    ⟨trivial, follows_cons rfl Instr.noConfusion, fun _ => ⟨trivial, follows_nil, fun _ => trivial⟩⟩⟩

theorem strict_handleInterrupt {uartEnable : Bool} {q : Irq} (hf : Follows (.iret true) k)
    (h : Strict k ∅) : Strict (handleInterrupt uartEnable q ++ .iret true :: k) ∅ := by
  have hend : Strict (.maybeYield :: .iret true :: k) ∅ :=
    ⟨rfl, follows_cons rfl Instr.noConfusion, fun _ => ⟨trivial, hf, fun _ => h⟩⟩
  cases q with
  | spurious => exact hend
  | timer => exact ⟨trivial, follows_cons rfl Instr.noConfusion, fun _ => hend⟩
  | com1 bytes =>
      cases uartEnable with
      | false => exact hend
      | true =>
          refine ⟨trivial, follows_cons rfl Instr.noConfusion, fun hr => ?_⟩
          refine ⟨trivial, follows_cons rfl Instr.noConfusion, fun _ => ?_⟩
          show Strict (schedWakeup .consoleFifo ++ (.release .consoleRead :: .maybeYield :: _)) _
          refine strict_schedWakeup (follows_cons rfl Instr.noConfusion) ?_
          refine ⟨trivial, follows_cons rfl Instr.noConfusion, fun _ => ?_⟩
          have hback := Finset.erase_insert (Finset.notMem_empty LockId.consoleRead)
          show Strict _ ((insert LockId.consoleRead ∅ : Finset LockId).erase .consoleRead)
          rw [hback]
          exact hend

theorem strict_handleSyscall {s : Syscall} {intFlag : Bool} :
    Strict (handleSyscall s ++ [.iret intFlag]) ∅ := by
  have hend : Strict (.maybeYield :: [.iret intFlag]) ∅ :=
    ⟨rfl, follows_cons rfl Instr.noConfusion, fun _ => ⟨trivial, follows_nil, fun _ => trivial⟩⟩
  cases s with
  | yield =>
      show Strict (schedYield ++ (.maybeYield :: [.iret intFlag])) ∅
      exact strict_schedYield (follows_cons rfl Instr.noConfusion) hend
  | conRead => exact ⟨trivial, follows_cons rfl Instr.noConfusion, fun _ => hend⟩
  | unknown => exact hend

end

/-! ## The flag of a process -/

/-- The flag from before the first lock of the process that a CPU runs, with the
code `k`: none without a lock, else in `int_enabled`, or saved by
`sched_switch_out` and about to be put back.  A new process drops the lock that the
scheduler took. -/
inductive FlagOk (x : Cpu) (k : Code) : Option Bool → Prop
  | free (hlayer : x.intDisableLayer = 0) : FlagOk x k none
  | kept (hlayer : x.intDisableLayer ≠ 0) (hk : ∀ i ∈ k.head?, i.resumes = false) :
      FlagOk x k (some x.intEnabled)
  | back {b : Bool} {rest : Code} (hlayer : x.intDisableLayer ≠ 0)
      (hk : k = .restoreInt b :: rest) : FlagOk x k (some b)
  | entry (hlayer : x.intDisableLayer = 1) (hk : k = procKentry ∨ k = procKentry.tail) :
      FlagOk x k none

/-- The flag of a process that runs nowhere. -/
inductive FlagOut (k : Code) : Option Bool → Prop
  | back {b : Bool} {rest : Code} (hk : k = .restoreInt b :: rest) : FlagOut k (some b)
  | entry (hk : k = procKentry) : FlagOut k none

/-- The interrupt state of one CPU, unless it has panicked. -/
structure IntCpu (m : Machine) (c : Nat) : Prop where
  strict : (m.cpu c).panicked = none → Strict (m.next c) (m.held c)
  flag : ∀ p, (m.cpu c).panicked = none → (m.cpu c).running = .proc p →
    FlagOk (m.cpu c) (m.next c) (m.flag (.proc p))
  marked : ∀ p k, (m.cpu c).panicked = none → m.next c = .switchOut :: k →
    (m.cpu c).proc = some p → (m.proc p).state ≠ .running
  sane : ∀ x, (m.cpu c).panicked = some x → x.ofSwitch = false

/-- A process that can be switched to. -/
structure IntOut (m : Machine) (p : ProcId) : Prop where
  strict : Strict (m.code (.proc p)) {.sched}
  flag : FlagOut (m.code (.proc p)) (m.flag (.proc p))

structure IntInv (m : Machine) : Prop where
  cpus : ∀ c, IntCpu m c
  out : ∀ p, Known m p → (∀ c, (m.cpu c).running ≠ .proc p) → IntOut m p
  fresh : ∀ p, ¬Known m p → m.flag (.proc p) = none

section

variable {m m' : Machine} {c : Nat} {k : Code} {i : Instr}

theorem Elsewhere.intCpu (e : Elsewhere m c m') (h : Inv m) {d : Nat} (hne : d ≠ c)
    (hd : IntCpu m d) : IntCpu m' d := by
  have hcpu := e.cpu d hne
  have hnext := e.frame.next h hne
  constructor
  · rw [hcpu, hnext, e.frame.held hne]
    exact hd.strict
  · intro p hpanic hrun
    rw [hcpu] at hpanic hrun
    rw [hcpu, hnext, e.flag _ (by rw [← hrun]; exact h.running_ne hne)]
    exact hd.flag p hpanic hrun
  · intro p k hpanic hk hproc
    rw [hcpu] at hpanic hproc
    rw [hnext] at hk
    have hat : At m (.cpu d) p := at_of_proc hk rfl hproc
    rw [e.proc p (h.placed.known p _ hat) (h.placed.not_at hat fun e => hne (Place.cpu.inj e).symm)]
    exact hd.marked p k hpanic hk hproc
  · rw [hcpu]
    exact hd.sane

/-- The rest of the machine is in order once CPU `c` and the thread it may have
left are. -/
theorem IntInv.of_elsewhere (hi : IntInv m) (h : Inv m) (e : Elsewhere m c m') (hc : IntCpu m' c)
    (hleft : ∀ p, (m.cpu c).running = .proc p → (m'.cpu c).running ≠ .proc p → IntOut m' p) :
    IntInv m' where
  cpus d := by
    by_cases hne : d = c
    · rw [hne]
      exact hc
    · exact e.intCpu h hne (hi.cpus d)
  out p hp hno := by
    by_cases hrun : (m.cpu c).running = .proc p
    · exact hleft p hrun (hno c)
    · have hflag := e.flag (.proc p) (Ne.symm hrun)
      by_cases hp' : Known m p
      · have hcode := e.code (.proc p) (Ne.symm hrun) fun q hq => by
          rw [← ThreadId.proc.inj hq]
          exact hp'
        have hout := hi.out p hp' fun d => by
          by_cases hd : d = c
          · rw [hd]
            exact hrun
          · rw [← e.cpu d hd]
            exact hno d
        exact ⟨by rw [hcode]; exact hout.strict, by rw [hcode, hflag]; exact hout.flag⟩
      · have hcode := e.new p hp' hp
        refine ⟨by rw [hcode]; exact strict_procKentry, ?_⟩
        rw [hflag, hi.fresh p hp']
        exact .entry hcode
  fresh p hp := by
    have hp' : ¬Known m p := fun hk => hp (e.known p hk)
    rw [e.flag _ fun hrun => hp' (h.known_running hrun.symm)]
    exact hi.fresh p hp'

theorem Stops.intCpu (s : Stops m c m') : IntCpu m' c := by
  obtain ⟨x, hx, hsw⟩ := s.panicked
  have hno : (m'.cpu c).panicked ≠ none := by simp [hx]
  refine ⟨fun hn => absurd hn hno, fun _ hn => absurd hn hno, fun _ _ hn => absurd hn hno, ?_⟩
  intro y hy
  rw [hx, Option.some.injEq] at hy
  rw [← hy]
  exact hsw

theorem Goes.sane {f : Code} (g : Goes m c f m') (x : Panic) (hx : (m'.cpu c).panicked = some x) :
    x.ofSwitch = false := by
  rw [g.panicked] at hx
  cases hx

/-! ## Instructions that are no context switch -/

theorem exec_strict (hi : IntCpu m c) (hpanic : (m.cpu c).panicked = none)
    (hnext : m.next c = i :: k) (hexec : exec m c k i = some m') {f : Code} (hx : Expands i f)
    (g : Goes m c (f ++ k) m') : Strict (m'.next c) (m'.held c) := by
  have hs := hi.strict hpanic
  rw [hnext] at hs
  rw [g.next]
  have hsame : (∀ l, i ≠ .spin l) → (∀ l, i ≠ .release l) → m'.held c = m.held c :=
    fun h1 h2 => Machine.held_congr fun l => by rw [(exec_untouched hexec).owner h1 h2]
  cases i with
  | spin l =>
      cases hx
      simp only [exec] at hexec
      split at hexec <;> cases hexec
      have hheld : ((m.setOwner l (some c)).goto c k).held c = insert l (m.held c) := held_take
      rw [hheld]
      exact hs.2.2 trivial
  | release l =>
      cases hx
      simp only [exec] at hexec
      split at hexec
      · rename_i hown
        split at hexec <;> cases hexec
        · have := g.panicked
          simp [Machine.fail] at this
        · refine (?_ : Strict k _)
          have hdrop := held_drop (m := m) (c := c) (l := l)
          have := hs.2.2 (Machine.mem_held.mpr hown)
          rw [show Instr.after (.release l) (m.held c) = (m.setOwner l none).held c from hdrop.symm] at this
          exact this
      · cases hexec
        have := g.panicked
        simp [Machine.fail] at this
  | acquire l =>
      rw [hsame (fun _ => Instr.noConfusion) fun _ => Instr.noConfusion]
      refine strict_expand hx (fun _ => Instr.noConfusion) (fun _ => Instr.noConfusion) ?_ hs
      intro hl
      simp only [exec, Machine.mem_held.mp hl, if_true] at hexec
      cases hexec
      have := g.panicked
      simp [Machine.fail] at this
  | _ =>
      rw [hsame (fun _ => Instr.noConfusion) fun _ => Instr.noConfusion]
      exact strict_expand hx (fun _ => Instr.noConfusion) (fun _ => Instr.noConfusion) trivial hs

/-- What follows an instruction resumes no thread. -/
theorem expands_head {f : Code} (hx : Expands i f) (hf : Follows i k) :
    ∀ j ∈ (f ++ k).head?, j.resumes = false := by
  cases hx with
  | single _ => exact fun j hj => (hf j hj).1
  | sleepEnter p chan lk =>
      rw [sleepBody]
      intro j hj
      split at hj <;> rw [← Option.some.inj hj] <;> rfl
  | _ =>
      intro j hj
      rw [← Option.some.inj hj]
      rfl

theorem exec_flag (h : Inv m) (h' : Inv m') (hi : IntCpu m c) (hpanic : (m.cpu c).panicked = none)
    (hnext : m.next c = i :: k) (hexec : exec m c k i = some m') {f : Code} (hx : Expands i f)
    (g : Goes m c (f ++ k) m') {p : ProcId} (hrun : (m.cpu c).running = .proc p) :
    FlagOk (m'.cpu c) (m'.next c) (m'.flag (.proc p)) := by
  have hflag := hi.flag p hpanic hrun
  have hs := hi.strict hpanic
  have htyped := (h.cpus c).typed
  rw [hnext] at hflag hs htyped
  have hhead := expands_head hx hs.2.1
  rw [g.next]
  have hlayer := (h.cpus c).layer (by simp [hpanic])
  rw [hnext] at hlayer
  generalize hfl : m.flag (.proc p) = fl at hflag
  cases i with
  | acquire l =>
      have hlayer' : (m'.cpu c).intDisableLayer ≠ 0 := by
        have hl := (h'.cpus c).layer (by simp [g.panicked])
        have hspin : spinning (m'.next c) = 1 := by
          rw [g.next]
          cases hx with
          | single hs => cases hs
          | acquire _ => rfl
        rw [hspin] at hl
        intro e
        rw [e] at hl
        exact absurd hl (by simp)
      simp only [exec] at hexec
      split at hexec <;> cases hexec
      · have := g.panicked
        simp [Machine.fail] at this
      have hcpu : ∀ x k', ({ m.setCpu c (m.cpu c).pushIntDisable with flag := x }.goto c k').cpu c =
          (m.cpu c).pushIntDisable := fun x k' => Machine.setCpu_cpu_self
      have hkept := FlagOk.kept hlayer' hhead
      rw [hcpu] at hkept ⊢
      refine Eq.mp (congrArg (FlagOk _ _) ?_) hkept
      show some (if (m.cpu c).intDisableLayer = 0 then (m.cpu c).intFlag else (m.cpu c).intEnabled) =
        (if (m.cpu c).intDisableLayer = 0 then Function.update m.flag (m.cpu c).running
          (some (m.cpu c).intFlag) else m.flag) (.proc p)
      by_cases h0 : (m.cpu c).intDisableLayer = 0
      · rw [if_pos h0, if_pos h0, hrun, Function.update_self]
      · rw [if_neg h0, if_neg h0, hfl]
        cases hflag with
        | free hl => exact absurd hl h0
        | kept _ _ => rfl
        | back _ hk => cases hk
        | entry _ hk => rcases hk with hk | hk <;> cases hk
  | release l =>
      cases hx
      simp only [exec] at hexec
      split at hexec
      · rename_i hown
        have hne0 : (m.cpu c).intDisableLayer ≠ 0 := fun e => by
          have := Finset.card_pos.mpr ⟨l, Machine.mem_held.mpr hown⟩
          rw [e] at hlayer
          simp [spinning] at hlayer
          omega
        split at hexec
        · cases hexec
          have := g.panicked
          simp [Machine.fail] at this
        · rename_i x hx'
          have hx : x = (m.cpu c).popLayer := by
            rw [Cpu.popIntDisable] at hx'
            split at hx' <;> cases hx'
            rfl
          subst hx
          cases hexec
          have hcpu : ∀ y k', ({ (m.setOwner l none).setCpu c (m.cpu c).popLayer with
              flag := y }.goto c k').cpu c = (m.cpu c).popLayer := fun y k' => Machine.setCpu_cpu_self
          rw [hcpu]
          show FlagOk _ _ ((if (m.cpu c).popLayer.intDisableLayer = 0 then
            Function.update m.flag (m.cpu c).running none else m.flag) (.proc p))
          by_cases h0 : (m.cpu c).popLayer.intDisableLayer = 0
          · rw [if_pos h0, hrun, Function.update_self]
            exact .free h0
          · rw [if_neg h0, hfl]
            cases hflag with
            | free hl => exact absurd hl hne0
            | kept _ _ => exact FlagOk.kept (x := (m.cpu c).popLayer) h0 hhead
            | back _ hk => cases hk
            | entry hl _ =>
                refine absurd ?_ h0
                show (m.cpu c).intDisableLayer - 1 = 0
                rw [hl]
                rfl
      · cases hexec
        have := g.panicked
        simp [Machine.fail] at this
  | restoreInt b =>
      cases hx
      cases hexec
      have hcpu : ∀ k', ((m.setCpu c { m.cpu c with intEnabled := b }).goto c k').cpu c =
          { m.cpu c with intEnabled := b } := fun k' => Machine.setCpu_cpu_self
      rw [hcpu]
      show FlagOk _ _ (m.flag (.proc p))
      rw [hfl]
      cases hflag with
      | free hl =>
          rw [htyped.1, hl] at hlayer
          cases hlayer
      | kept _ hk => exact absurd (hk _ rfl) (by simp [Instr.resumes])
      | back hl hk =>
          cases hk
          exact FlagOk.kept (x := { m.cpu c with intEnabled := b }) hl hhead
      | entry _ hk => rcases hk with hk | hk <;> cases hk
  | kentry =>
      have sc := exec_counter (fun _ => Instr.noConfusion) (fun _ => Instr.noConfusion)
        (fun _ => Instr.noConfusion) hexec
      cases hx
      rw [sc.flag, hfl]
      cases hflag with
      | free hl => exact .free (by rw [sc.layer, hl])
      | kept hl hk => exact absurd (hk _ rfl) (by simp [Instr.resumes])
      | back _ hk => cases hk
      | entry hl hk =>
          refine .entry (by rw [sc.layer, hl]) (Or.inr ?_)
          rcases hk with hk | hk
          · cases hk
            rfl
          · cases hk
  | _ =>
      have sc := exec_counter (fun _ => Instr.noConfusion) (fun _ => Instr.noConfusion)
        (fun _ => Instr.noConfusion) hexec
      rw [sc.flag, hfl]
      cases hflag with
      | free hl => exact .free (by rw [sc.layer, hl])
      | kept hl hk =>
          rw [← sc.enabled hl]
          exact .kept (by rw [sc.layer]; exact hl) hhead
      | back _ hk => cases hk
      | entry hl hk => rcases hk with hk | hk <;> cases hk

/-- A switch comes right after the mark of the current process. -/
theorem exec_marked (h : Inv m) (hi : IntCpu m c) (hpanic : (m.cpu c).panicked = none)
    (hnext : m.next c = i :: k) (hexec : exec m c k i = some m') {f : Code} (hx : Expands i f)
    (g : Goes m c (f ++ k) m') {p : ProcId} {rest : Code} (hout : m'.next c = .switchOut :: rest)
    (hproc : (m'.cpu c).proc = some p) : (m'.proc p).state ≠ .running := by
  have hs := hi.strict hpanic
  have htyped := (h.cpus c).typed
  rw [hnext] at hs htyped
  rw [g.next] at hout
  have hmarks : i.marks = true := by
    cases hx with
    | single _ => exact (hs.2.1 .switchOut (by rw [show k = _ from hout]; rfl)).2 rfl
    | sleepEnter q chan lk =>
        rw [sleepBody] at hout
        split at hout <;> cases hout
    | _ => cases hout
  cases i with
  | yieldMark =>
      simp only [exec] at hexec
      split at hexec <;> cases hexec
      · have := g.panicked
        simp [Machine.fail] at this
      · rename_i q hq
        have hpq : p = q := by
          have : (((m.callCurproc c).markRunnable q).cpu c).proc = some p := hproc
          rw [Machine.markRunnable_cpu, hq, Option.some.injEq] at this
          exact this.symm
        subst hpq
        show (((m.callCurproc c).markRunnable p).proc p).state ≠ .running
        rw [Machine.markRunnable]
        split
        · rw [Machine.setProc_proc_self]
          exact ProcState.noConfusion
        · assumption
  | setSleeping q chan =>
      cases hexec
      have hrun := (h.running_of_proc (plain_of_ordinary hnext rfl) hproc).1
      rw [htyped.1, ThreadId.proc.injEq] at hrun
      rw [hrun]
      show ((m.setProc p { state := .sleeping, chan := chan }).proc p).state ≠ .running
      rw [Machine.setProc_proc_self]
      exact ProcState.noConfusion
  | _ => cases hmarks

/-! ## Context switches -/

theorem owner_of_held (hheld : m.held c = {.sched}) : m.owner .sched = some c :=
  Machine.mem_held.mp (by rw [hheld]; exact Finset.mem_singleton_self _)

theorem exec_dispatch_int (h : Inv m) (hi : IntInv m) (hpanic : (m.cpu c).panicked = none)
    {p : ProcId} (hnext : m.next c = .dispatch p :: k)
    (hexec : exec m c k (.dispatch p) = some m') : IntCpu m' c := by
  obtain ⟨_, hheld, hkp, hno, hnext', hcpu⟩ := dispatch_cases h hnext hexec
  obtain ⟨hstrict, hflag⟩ := hi.out p hkp hno
  have hlayer := h.layer_eq_one hpanic (by rw [hnext]; rfl) hheld
  have hsc := exec_counter (fun _ => Instr.noConfusion) (fun _ => Instr.noConfusion)
    (fun _ => Instr.noConfusion) hexec
  have hheld' : m'.held c = {.sched} := by
    rw [← hheld]
    refine Machine.held_congr fun l => ?_
    rw [(exec_untouched hexec).owner (fun _ => Instr.noConfusion) (fun _ => Instr.noConfusion)]
  refine ⟨fun _ => by rw [hnext', hheld']; exact hstrict, ?_, ?_, ?_⟩
  · intro q _ hq
    rw [hcpu, ThreadId.proc.injEq] at hq
    subst hq
    rw [hnext', hsc.flag]
    generalize m.flag (.proc p) = fl at hflag ⊢
    cases hflag with
    | back hk =>
        refine .back ?_ hk
        rw [hsc.layer, hlayer]
        decide
    | entry hk => exact .entry (by rw [hsc.layer, hlayer]) (Or.inl hk)
  · intro q rest _ hq _
    rw [hnext'] at hq
    rw [hq] at hflag
    generalize m.flag (.proc p) = fl at hflag
    cases hflag with
    | back hk => cases hk
    | entry hk => cases hk
  · intro x hx
    rw [hcpu] at hx
    rw [show (m.cpu c).panicked = some x from hx] at hpanic
    cases hpanic

/-- The tests of `sched_switch_out` pass. -/
theorem exec_switchOut_panicked (h : Inv m) (hi : IntCpu m c) (hpanic : (m.cpu c).panicked = none)
    (hnext : m.next c = .switchOut :: k) (hexec : exec m c k .switchOut = some m') {x : Panic}
    (hx : (m'.cpu c).panicked = some x) : x.ofSwitch = false := by
  have hs := hi.strict hpanic
  rw [hnext] at hs
  have hlayer := h.layer_eq_one hpanic (by rw [hnext]; rfl) hs.1
  have hcall := soft_callCurproc (c := c) h
  have hown : (m.callCurproc c).owner .sched = some c := owner_of_held hs.1
  simp only [exec, hown, hcall.layer, hcall.proc, hlayer, ne_eq, not_true_eq_false, if_false] at hexec
  cases hproc : (m.cpu c).proc with
  | none =>
      rw [hproc] at hexec
      cases hexec
      have hnull : x = .nullProc := by simpa [Machine.fail] using hx.symm
      rw [hnull]
      rfl
  | some p =>
      rw [hproc] at hexec
      dsimp only at hexec
      split at hexec
      · exact absurd ‹_› (hi.marked p k hpanic hnext hproc)
      · cases hexec
        rw [Machine.setCpu_cpu_self] at hx
        have : (m.cpu c).panicked = some x := by simpa using hx
        rw [hpanic] at this
        cases this

theorem exec_switchOut_int (h : Inv m) (hi : IntCpu m c) (hpanic : (m.cpu c).panicked = none)
    (hnext : m.next c = .switchOut :: k) (hexec : exec m c k .switchOut = some m') :
    IntCpu m' c ∧ ∀ p, (m.cpu c).running = .proc p → (m'.cpu c).running ≠ .proc p → IntOut m' p := by
  have hsane : ∀ x, (m'.cpu c).panicked = some x → x.ofSwitch = false := fun x =>
    exec_switchOut_panicked h hi hpanic hnext hexec
  have hs := hi.strict hpanic
  rw [hnext] at hs
  have hlayer := h.layer_eq_one hpanic (by rw [hnext]; rfl) hs.1
  have hflag := (exec_counter (fun _ => Instr.noConfusion) (fun _ => Instr.noConfusion)
    (fun _ => Instr.noConfusion) hexec).flag
  rcases switchOut_cases h hnext hexec with ⟨hrun, _, hstop⟩ | ⟨p, hrun, _, hrun', hcode, hnext', hp⟩
  · refine ⟨⟨fun hn => absurd hn hstop, fun _ hn => absurd hn hstop, fun _ _ hn => absurd hn hstop,
      hsane⟩, fun p hp hne => absurd (by rw [hrun, hp]) hne⟩
  · refine ⟨⟨fun _ => ?_, fun q _ hq => ?_, fun q rest _ hq _ => ?_, hsane⟩, fun q hq _ => ?_⟩
    · rw [hnext']
      exact ⟨trivial, follows_nil, fun _ => trivial⟩
    · rw [hrun'] at hq
      cases hq
    · rw [hnext'] at hq
      cases hq
    · rw [hrun, ThreadId.proc.injEq] at hq
      subst hq
      have hen : ((m.callCurproc c).cpu c).intEnabled = (m.cpu c).intEnabled := by
        rw [Machine.callCurproc_cpu]
        exact Cpu.curproc_intEnabled (by rw [hlayer]; decide)
      have hself : m'.code (.proc p) = .restoreInt (m.cpu c).intEnabled :: k := by
        rw [hcode, Function.update_self, hen]
      have hfl := hi.flag p hpanic hrun
      rw [hnext] at hfl
      refine ⟨?_, ?_⟩
      · rw [hself]
        refine ⟨trivial, hs.2.1.any rfl, fun _ => ?_⟩
        have := hs.2.2 trivial
        rw [hs.1] at this
        exact this
      · rw [hself, hflag]
        generalize m.flag (.proc p) = fl at hfl ⊢
        cases hfl with
        | free hl =>
            rw [hlayer] at hl
            exact absurd hl (by decide)
        | kept _ _ => exact .back rfl
        | back _ hk => cases hk
        | entry _ hk => rcases hk with hk | hk <;> cases hk

/-! ## Runs -/

theorem exec_int (h : Inv m) (h' : Inv m') (hi : IntInv m) (hpanic : (m.cpu c).panicked = none)
    (hnext : m.next c = i :: k) (hexec : exec m c k i = some m') : IntInv m' := by
  have e := exec_elsewhere h hnext hexec
  by_cases hsw : i = .switchOut
  · subst hsw
    obtain ⟨hc, hleft⟩ := exec_switchOut_int h (hi.cpus c) hpanic hnext hexec
    exact hi.of_elsewhere h e hc hleft
  by_cases hd : ∃ p, i = .dispatch p
  · obtain ⟨p, rfl⟩ := hd
    refine hi.of_elsewhere h e (exec_dispatch_int h hi hpanic hnext hexec) fun q hq => ?_
    have hin := (h.cpus c).typed
    rw [hnext] at hin
    rw [h.running_cpu hin] at hq
    cases hq
  rcases exec_code h hpanic hnext hsw (fun p hp => hd ⟨p, hp⟩) hexec with hstop | ⟨f, hx, g⟩
  · exact hi.of_elsewhere h e hstop.intCpu fun p hp hne => absurd (by rw [hstop.running, hp]) hne
  · refine hi.of_elsewhere h e ⟨fun _ => ?_, fun p _ hrun => ?_, fun p rest _ hout hproc => ?_, g.sane⟩
      fun p hp hne => absurd (by rw [g.running, hp]) hne
    · exact exec_strict (hi.cpus c) hpanic hnext hexec hx g
    · rw [g.running] at hrun
      exact exec_flag h h' (hi.cpus c) hpanic hnext hexec hx g hrun
    · exact exec_marked h (hi.cpus c) hpanic hnext hexec hx g hout hproc

/-- A client enters the kernel with code that fits its locks. -/
theorem IntInv.enter (hi : IntInv m) (h : Inv m) (hpanic : (m.cpu c).panicked = none)
    (hnext : m.next c = []) (e : Elsewhere m c m') {f : Code} (g : Goes m c f m')
    (hsc : SameCounter m c m') (howner : m'.owner = m.owner) (hs : Strict f (m.held c))
    (hhead : ∀ j ∈ f.head?, j.resumes = false ∧ j ≠ .switchOut) : IntInv m' := by
  refine hi.of_elsewhere h e ⟨fun _ => ?_, fun p _ hrun => ?_, fun p rest _ hout _ => ?_, g.sane⟩
    fun p hp hne => absurd (by rw [g.running, hp]) hne
  · rw [g.next, Machine.held_congr (m := m) fun l => by rw [howner]]
    exact hs
  · rw [g.running] at hrun
    have hflag := (hi.cpus c).flag p hpanic hrun
    rw [hnext] at hflag
    rw [g.next, hsc.flag]
    generalize m.flag (.proc p) = fl at hflag ⊢
    cases hflag with
    | free hl => exact .free (by rw [hsc.layer, hl])
    | kept hl _ =>
        rw [← hsc.enabled hl]
        exact .kept (by rw [hsc.layer]; exact hl) fun j hj => (hhead j hj).1
    | back _ hk => cases hk
    | entry _ hk => rcases hk with hk | hk <;> cases hk
  · rw [g.next] at hout
    rw [hout] at hhead
    exact absurd rfl (hhead .switchOut rfl).2

theorem sameCounter_goto {f : Code} : SameCounter m c (m.goto c f) := ⟨rfl, fun _ => rfl, rfl⟩

theorem head_cons {P : Instr → Prop} (hi : P i) : ∀ j ∈ (i :: k).head?, P j := fun j hj => by
  rw [← Option.some.inj hj]
  exact hi

theorem call_int (h : Inv m) (hi : IntInv m) (hpanic : (m.cpu c).panicked = none)
    (hnext : m.next c = []) {a : Call} (hlegal : Legal m c (.call a))
    (hrules : Rules m c (.call a)) : IntInv (call m c a) := by
  have e := call_elsewhere h hlegal
  have hgo : ∀ f : Code, Goes m c f (m.goto c f) := fun f => goes_soft hpanic rfl f
  cases a with
  | acquire l =>
      exact hi.enter h hpanic hnext e (hgo _) sameCounter_goto rfl
        ⟨trivial, follows_nil, fun _ => trivial⟩ (head_cons ⟨rfl, Instr.noConfusion⟩)
  | release l =>
      exact hi.enter h hpanic hnext e (hgo _) sameCounter_goto rfl
        ⟨trivial, follows_nil, fun _ => trivial⟩ (head_cons ⟨rfl, Instr.noConfusion⟩)
  | curproc =>
      refine hi.enter h hpanic hnext e (f := []) ⟨by simp [call], ?_, by simp [call, hpanic]⟩ ?_ rfl
        trivial fun j hj => by cases hj
      · rw [← hnext]
        exact Machine.next_eq (by simp [call]) rfl
      · refine ⟨?_, fun hl => ?_, rfl⟩
        · simp [call, Cpu.curproc_layer]
        · simp [call, Cpu.curproc_intEnabled hl]
  | setInterrupt on =>
      refine hi.enter h hpanic hnext e (f := []) ⟨by simp [call], ?_, by simp [call, hpanic]⟩ ?_ rfl
        trivial fun j hj => by cases hj
      · rw [← hnext]
        exact Machine.next_eq (by simp [call]) rfl
      · exact ⟨by simp [call], fun _ => by simp [call], rfl⟩
  | schedCreateKproc p =>
      refine hi.enter h hpanic hnext e (f := []) ⟨rfl, ?_, hpanic⟩ ⟨rfl, fun _ => rfl, rfl⟩ rfl trivial
        fun j hj => by cases hj
      rw [← hnext]
      refine Machine.next_eq rfl (Function.update_of_ne (fun hrun => ?_) ..)
      exact absurd (h.known_running hrun) (not_not.mpr hlegal.2)
  | schedAdd p =>
      refine hi.enter h hpanic hnext e (f := schedAdd p) ⟨rfl, Machine.next_goto, hpanic⟩
        ⟨rfl, fun _ => rfl, rfl⟩ rfl ?_ (head_cons ⟨rfl, Instr.noConfusion⟩)
      refine ⟨trivial, follows_cons rfl Instr.noConfusion, fun _ => ?_⟩
      refine ⟨trivial, follows_cons rfl Instr.noConfusion, fun _ => ?_⟩
      refine ⟨trivial, follows_cons rfl Instr.noConfusion, fun _ => ?_⟩
      exact ⟨trivial, follows_nil, fun _ => trivial⟩
  | schedStart =>
      refine hi.enter h hpanic hnext e (hgo _) sameCounter_goto rfl ?_
        (head_cons ⟨rfl, Instr.noConfusion⟩)
      refine ⟨trivial, follows_cons rfl Instr.noConfusion, fun _ => ?_⟩
      refine ⟨trivial, follows_cons rfl Instr.noConfusion, fun _ => ?_⟩
      exact ⟨trivial, follows_nil, fun _ => trivial⟩
  | schedYield =>
      refine hi.enter h hpanic hnext e (hgo _) sameCounter_goto rfl ?_
        (head_cons ⟨rfl, Instr.noConfusion⟩)
      rw [show m.held c = ∅ from hrules, ← List.append_nil schedYield]
      exact strict_schedYield follows_nil trivial
  | schedSleep chan lk =>
      exact hi.enter h hpanic hnext e (hgo _) sameCounter_goto rfl
        ⟨hrules, follows_nil, fun _ => trivial⟩ (head_cons ⟨rfl, Instr.noConfusion⟩)
  | schedWakeup chan =>
      refine hi.enter h hpanic hnext e (hgo _) sameCounter_goto rfl ?_
        (head_cons ⟨rfl, Instr.noConfusion⟩)
      rw [← List.append_nil (schedWakeup _)]
      exact strict_schedWakeup follows_nil trivial
  | consoleGetc =>
      refine hi.enter h hpanic hnext e (hgo _) sameCounter_goto rfl ?_
        (head_cons ⟨rfl, Instr.noConfusion⟩)
      rw [show m.held c = ∅ from hrules]
      refine ⟨trivial, follows_cons rfl Instr.noConfusion, fun _ => ?_⟩
      exact ⟨insert_empty_eq _, follows_nil, fun _ => trivial⟩
  | syscall s =>
      refine hi.enter h hpanic hnext e (hgo _) sameCounter_goto rfl ?_ ?_
      · rw [show m.held c = ∅ from hrules]
        exact strict_handleSyscall
      · cases s <;> exact head_cons ⟨rfl, Instr.noConfusion⟩

theorem irq_int (h : Inv m) (hi : IntInv m) (hpanic : (m.cpu c).panicked = none)
    (hflag : (m.cpu c).intFlag = true) (q : Irq)
    (hm' : m' = (m.setCpu c { m.cpu c with intFlag := false }).goto c
      (handleInterrupt m.uartEnable q ++ .iret true :: m.next c)) : IntInv m' := by
  obtain ⟨hzero, hheld, _⟩ := h.held_of_intFlag hpanic hflag
  have e : Elsewhere m c m' := by
    rw [hm']
    exact (Elsewhere.refl.setCpu _).goto h (by simp) _
  have hcpu : m'.cpu c = { m.cpu c with intFlag := false } := by
    rw [hm']
    exact Machine.setCpu_cpu_self
  have hnext' : m'.next c = handleInterrupt m.uartEnable q ++ .iret true :: m.next c := by
    rw [hm']
    exact Machine.next_goto
  have hs := (hi.cpus c).strict hpanic
  have htyped := (h.cpus c).typed
  rw [hheld] at hs htyped
  -- The interrupted code is at no switch: there the CPU would hold `sched.lock`.
  have hfollows : Follows (.iret true) (m.next c) := by
    intro j hj
    cases hnext : m.next c with
    | nil =>
        rw [hnext] at hj
        cases hj
    | cons x rest =>
        rw [hnext] at hj hs htyped
        rw [← Option.some.inj hj]
        cases x with
        | switchOut => exact absurd hs.1 (by simp [Instr.wants])
        | restoreInt b => exact absurd htyped.1 (by simp)
        | kentry => exact absurd htyped.1 (by simp)
        | _ => exact ⟨rfl, Instr.noConfusion⟩
  refine hi.of_elsewhere h e ⟨fun _ => ?_, fun p _ hrun => ?_, fun p rest _ hout _ => ?_, fun x hx => ?_⟩
    fun p hp hne => absurd (by rw [hcpu, ← hp]) hne
  · have hheld' : m'.held c = ∅ := by
      rw [← hheld]
      exact Machine.held_congr fun l => by rw [hm']; rfl
    rw [hnext', hheld']
    exact strict_handleInterrupt hfollows hs
  · rw [hcpu] at hrun
    have hfl := (hi.cpus c).flag p hpanic hrun
    rw [show m'.flag = m.flag by rw [hm']; rfl, hcpu]
    generalize m.flag (.proc p) = fl at hfl ⊢
    cases hfl with
    | free hl => exact .free hl
    | kept hl _ => exact absurd hzero hl
    | back hl _ => exact absurd hzero hl
    | entry hl _ =>
        rw [hzero] at hl
        exact absurd hl (by decide)
  · rw [hnext'] at hout
    cases q with
    | spurious => cases hout
    | timer => cases hout
    | com1 bytes => cases hu : m.uartEnable <;> rw [hu] at hout <;> cases hout
  · rw [hcpu] at hx
    rw [show (m.cpu c).panicked = some x from hx] at hpanic
    cases hpanic

theorem boot_int (uartEnable : Bool) : IntInv (Machine.boot uartEnable) := by
  refine ⟨fun _ => ⟨fun _ => trivial, ?_, ?_, ?_⟩, fun _ hp => absurd rfl hp, fun _ _ => rfl⟩
  · intro p _ hrun
    cases hrun
  · intro p k _ hk
    cases hk
  · intro x hx
    cases hx

theorem step_int (h : Inv m) (hi : IntInv m) {e : Event} (hlegal : Legal m c e)
    (hrules : Rules m c e) (hstep : step m c e = some m') : IntInv m' := by
  have h' := step_inv h hlegal hstep
  obtain ⟨hpanic, ⟨i, k, _, hnext, hexec⟩ | ⟨a, rfl, hnext, _, rfl⟩ | ⟨q, _, hflag, hm'⟩⟩ :=
    step_cases hstep
  · exact exec_int h h' hi hpanic hnext hexec
  · exact call_int h hi hpanic hnext hlegal hrules
  · exact irq_int h hi hpanic hflag q hm'

theorem Disciplined.int (h : Disciplined m) : IntInv m := by
  induction h with
  | boot uartEnable => exact boot_int uartEnable
  | step hm hlegal hrules hstep ih => exact step_int hm.reachable.inv ih hlegal hrules hstep

/-! ## Interrupt state survives locking and context switches -/

/-- A context switch happens with `sched.lock` and nothing else. -/
theorem step_switch (h : Inv m) (hi : IntInv m) {e : Event} (hstep : step m c e = some m')
    (hrun : (m'.cpu c).running ≠ (m.cpu c).running) :
    (m.cpu c).intDisableLayer = 1 ∧ m.owner .sched = some c := by
  obtain ⟨hpanic, ⟨i, k, _, hnext, hexec⟩ | ⟨a, rfl, _, _, rfl⟩ | ⟨q, _, _, rfl⟩⟩ := step_cases hstep
  · have htyped := (h.cpus c).typed
    rw [hnext] at htyped
    by_cases hsw : i = .switchOut
    · have hs := (hi.cpus c).strict hpanic
      rw [hnext, hsw] at hs
      rw [hsw] at hnext
      exact ⟨h.layer_eq_one hpanic (by rw [hnext]; rfl) hs.1, owner_of_held hs.1⟩
    by_cases hd : ∃ p, i = .dispatch p
    · obtain ⟨p, rfl⟩ := hd
      exact ⟨h.layer_eq_one hpanic (by rw [hnext]; rfl) htyped.2.1, owner_of_held htyped.2.1⟩
    rcases exec_code h hpanic hnext hsw (fun p hp => hd ⟨p, hp⟩) hexec with hstop | ⟨f, _, g⟩
    · exact absurd hstop.running hrun
    · exact absurd g.running hrun
  · refine absurd ?_ hrun
    cases a <;> simp [call, Machine.setProc]
  · exact absurd (by simp) hrun

/-- The flag recorded by the first `acquire` stays until the last `release`, which
puts it back. -/
theorem step_keeps_flag (h : Inv m) (hi : IntInv m) {e : Event} (hlegal : Legal m c e)
    (hstep : step m c e = some m') {p : ProcId} {f : Bool} (hf : m.flag (.proc p) = some f) :
    m'.flag (.proc p) = some f ∨
      ((m.cpu c).running = .proc p ∧ (∃ l k, m.next c = .release l :: k) ∧
        (m'.cpu c).intDisableLayer = 0 ∧ (m'.cpu c).intFlag = f) := by
  by_cases hrun : (m.cpu c).running = .proc p
  swap
  · left
    rw [(step_elsewhere h hlegal hstep).flag _ (Ne.symm hrun), hf]
  obtain ⟨hpanic, ⟨i, k, _, hnext, hexec⟩ | ⟨a, rfl, _, _, rfl⟩ | ⟨q, _, _, rfl⟩⟩ := step_cases hstep
  · have hflag := (hi.cpus c).flag p hpanic hrun
    rw [hf, hnext] at hflag
    cases i with
    | acquire l =>
        have h0 : (m.cpu c).intDisableLayer ≠ 0 := by
          cases hflag with
          | kept hl _ => exact hl
          | back hl _ => exact hl
        left
        rw [← hf]
        simp only [exec, if_neg h0] at hexec
        split at hexec <;> cases hexec <;> rfl
    | release l =>
        simp only [exec] at hexec
        split at hexec
        · split at hexec <;> cases hexec
          · exact Or.inl hf
          · rename_i x hx'
            have hoff : (m.cpu c).intFlag = false := by
              rw [Cpu.popIntDisable] at hx'
              split at hx'
              · cases hx'
              · rename_i hoff
                simpa using hoff
            have hx : x = (m.cpu c).popLayer := by
              rw [Cpu.popIntDisable, hoff] at hx'
              exact (Option.some.inj hx').symm
            subst hx
            have hen : (m.cpu c).intEnabled = f := by
              cases hflag with
              | kept _ _ => rfl
              | back _ hk => cases hk
            by_cases h0 : (m.cpu c).popLayer.intDisableLayer = 0
            · refine Or.inr ⟨hrun, ⟨l, k, hnext⟩, ?_, ?_⟩
              · exact (congrArg Cpu.intDisableLayer Machine.setCpu_cpu_self).trans h0
              · refine (congrArg Cpu.intFlag Machine.setCpu_cpu_self).trans ?_
                show (if (m.cpu c).intDisableLayer - 1 = 0 ∧ (m.cpu c).intEnabled = true then true
                  else (m.cpu c).intFlag) = f
                rw [hen, hoff]
                cases f with
                | false => rw [if_neg fun e => Bool.noConfusion e.2]
                | true => rw [if_pos ⟨h0, rfl⟩]
            · left
              show (if (m.cpu c).popLayer.intDisableLayer = 0 then _ else m.flag) (.proc p) = some f
              rw [if_neg h0, hf]
        · cases hexec
          exact Or.inl hf
    | restoreInt b =>
        cases hexec
        exact Or.inl hf
    | _ =>
        left
        rw [(exec_counter (fun _ => Instr.noConfusion) (fun _ => Instr.noConfusion)
          (fun _ => Instr.noConfusion) hexec).flag, hf]
  · left
    cases a <;> exact hf
  · exact Or.inl hf

/-- On every CPU the counter is the number of its locks (and the one it waits for),
interrupts are off while it is not zero, and it is one with `sched.lock` at every
switch.  The flag a process had at its first `acquire` is kept through every step of
every CPU until the process drops its last lock, and is its interrupt flag then.  The
tests of `sched_switch_out` never fail. -/
theorem run_intState (h : Disciplined m) :
    (∀ d, (m.cpu d).panicked ≠ some .acquire →
      (m.cpu d).intDisableLayer.toNat = (m.held d).card + spinning (m.next d)) ∧
      (∀ d, (m.cpu d).intDisableLayer ≠ 0 → (m.cpu d).intFlag = false) ∧
      (∀ d e m', step m d e = some m' → (m'.cpu d).running ≠ (m.cpu d).running →
        (m.cpu d).intDisableLayer = 1 ∧ m.owner .sched = some d) ∧
      (∀ d p l k m', (m.cpu d).running = .proc p → m.next d = .acquire l :: k →
        (m.cpu d).intDisableLayer = 0 → step m d .exec = some m' →
        m'.flag (.proc p) = some (m.cpu d).intFlag) ∧
      (∀ d e m' p f, Legal m d e → step m d e = some m' → m.flag (.proc p) = some f →
        m'.flag (.proc p) = some f ∨
          ((m.cpu d).running = .proc p ∧ (∃ l k, m.next d = .release l :: k) ∧
            (m'.cpu d).intDisableLayer = 0 ∧ (m'.cpu d).intFlag = f)) ∧
      ∀ d, (m.cpu d).panicked ≠ some .switchOutLock ∧
        (m.cpu d).panicked ≠ some .switchOutLockCount ∧
        (m.cpu d).panicked ≠ some .switchingOutRunning := by
  have hinv := h.reachable.inv
  have hint := h.int
  refine ⟨fun d => (hinv.cpus d).layer, fun d => (hinv.cpus d).off, ?_, ?_, ?_, ?_⟩
  · intro d e m' hstep hrun
    exact step_switch hinv hint hstep hrun
  · intro d p l k m' hrun hnext h0 hstep
    obtain ⟨_, ⟨i, k', _, hnext', hexec⟩ | ⟨a, he, _⟩ | ⟨q, he, _⟩⟩ := step_cases hstep
    · rw [hnext] at hnext'
      cases hnext'
      simp only [exec, if_pos h0] at hexec
      split at hexec <;> cases hexec
      · exact (congrArg _ hrun.symm).trans (Function.update_self ..)
      · exact (congrArg _ hrun.symm).trans (Function.update_self ..)
    · cases he
    · cases he
  · intro d e m' p f hlegal hstep hf
    exact step_keeps_flag hinv hint hlegal hstep hf
  · intro d
    have hsane := (hint.cpus d).sane
    exact ⟨fun hx => Bool.noConfusion (hsane _ hx), fun hx => Bool.noConfusion (hsane _ hx),
      fun hx => Bool.noConfusion (hsane _ hx)⟩

end

/-- A process enters, enables interrupts and yields. -/
theorem disciplined_yield : ∃ m, Disciplined m ∧ (m.cpu 0).running = .proc (.user 0) ∧
    m.flag (.proc (.user 0)) = some true ∧ (m.cpu 0).panicked = none := by
  have h0 := Disciplined.boot true
  have h1 := h0.step (c := 0) (e := .call (.schedCreateKproc (.user 0))) ⟨⟨0, rfl⟩, rfl⟩ trivial rfl
  have h2 := h1.step (c := 0) (e := .call (.schedAdd (.user 0)))
    ⟨⟨0, rfl⟩, by exact ProcState.noConfusion, List.not_mem_nil⟩ trivial rfl
  have h3 := h2.step (c := 0) (e := .exec) trivial trivial rfl
  have h4 := h3.step (c := 0) (e := .exec) trivial trivial rfl
  have h5 := h4.step (c := 0) (e := .exec) trivial trivial rfl
  have h6 := h5.step (c := 0) (e := .exec) trivial trivial rfl
  have h7 := h6.step (c := 0) (e := .exec) trivial trivial rfl
  have h8 := h7.step (c := 0) (e := .call .schedStart)
    ⟨rfl, h7.reachable.inv.held_eq_empty rfl rfl⟩ trivial rfl
  have h9 := h8.step (c := 0) (e := .exec) trivial trivial rfl
  have h10 := h9.step (c := 0) (e := .exec) trivial trivial rfl
  have h11 := h10.step (c := 0) (e := .exec) trivial trivial rfl
  have h12 := h11.step (c := 0) (e := .exec) trivial trivial rfl
  have h13 := h12.step (c := 0) (e := .exec) trivial trivial rfl
  have h14 := h13.step (c := 0) (e := .exec) trivial trivial rfl
  have h15 := h14.step (c := 0) (e := .exec) trivial trivial rfl
  have h16 := h15.step (c := 0) (e := .exec) trivial trivial rfl
  have h17 := h16.step (c := 0) (e := .call .schedYield) trivial
    (h16.reachable.inv.held_eq_empty rfl rfl) rfl
  have h18 := h17.step (c := 0) (e := .exec) trivial trivial rfl
  exact ⟨_, h18, rfl, rfl, rfl⟩

theorem run_intState_yield : ∃ m, Disciplined m ∧ (m.cpu 0).running = .proc (.user 0) ∧
    m.flag (.proc (.user 0)) = some true ∧
    (m.cpu 0).intDisableLayer.toNat = (m.held 0).card + spinning (m.next 0) := by
  obtain ⟨m, h, hrun, hflag, hpanic⟩ := disciplined_yield
  exact ⟨m, h, hrun, hflag, (run_intState h).1 0 (by simp [hpanic])⟩

end Sched
end GuideOS
