import GuideOS.Proc.Sched.Replay

/-!
# Process states and queues

`sched_add` checks the state of a process, the timer and `sched_yield` mark it
`RUNNABLE`, `sched_sleep` marks it `SLEEPING`, and the scheduler sorts the process
it gets back by that mark.  `sched_wakeup` moves a process between the queues and
leaves its state alone, so a woken process is `SLEEPING` in the ready queue.  As
long as `sched_wakeup` finds nobody, queue and state agree.
-/

namespace GuideOS
namespace Sched

/-- `sched_sleep` on `sched.lock` itself is called with that lock. -/
def SleepsLocked (m : Machine) (c : Nat) : Event → Prop
  | .call (.schedSleep _ lk) => lk = .sched → m.owner .sched = some c
  | _ => True

/-- The loop of `sched_wakeup` stands at no process that waits on its channel. -/
def WakesNobody (m : Machine) (c : Nat) : Event → Prop
  | .exec => ∀ chan j k p, m.next c = .wakeLoop chan j :: k → m.waitingQueue[j]? = some p →
      (m.proc p).chan ≠ chan
  | _ => True

/-- Each process has the state of the place it is in. -/
structure StatesAgree (m : Machine) : Prop where
  ready : ∀ p ∈ m.readyQueue, (m.proc p).state = .runnable
  waiting : ∀ p ∈ m.waitingQueue, (m.proc p).state = .sleeping
  current : ∀ c n, (m.cpu c).proc = some (.user n) →
    (m.proc (.user n)).state = .running ∨ (m.proc (.user n)).state = .runnable

section

variable {m m' : Machine} {c : Nat} {k : Code} {i : Instr} {e : Event}

/-- A process comes into being `RUNNABLE`. -/
theorem step_new_state (h : Inv m) (hstep : step m c e = some m') {n : Nat}
    (hnew : ¬Known m (.user n)) (hp : Known m' (.user n)) :
    (m'.proc (.user n)).state = .runnable := by
  have hunused : (m.proc (.user n)).state = .unused := not_not.mp hnew
  obtain ⟨_, ⟨i, k, _, hnext, hexec⟩ | ⟨a, _, _, _, rfl⟩ | ⟨q, _, _, rfl⟩⟩ := step_cases hstep
  · have htyped := (h.cpus c).typed
    rw [hnext] at htyped
    cases i with
    | setSleeping q x =>
        have hq : .user n ≠ q := fun hq => hnew (by rw [hq]; exact h.known_running htyped.1)
        cases hexec
        refine absurd ?_ hp
        show ((m.setProc q _).proc (.user n)).state = .unused
        rw [Machine.setProc_proc_ne hq, hunused]
    | dispatch q =>
        have hq : .user n ≠ q := fun hq => hnew (by rw [hq]; exact (dispatch_cases h hnext hexec).2.2.1)
        cases hexec
        refine absurd ?_ hp
        show ((m.setProc q { m.proc q with state := .running }).proc (.user n)).state = .unused
        rw [Machine.setProc_proc_ne hq, hunused]
    | startCpu =>
        simp only [exec] at hexec
        split at hexec <;> cases hexec
        · exact absurd hunused hp
        refine absurd ?_ hp
        show ((m.setProc (.idle c) { m.proc (.idle c) with state := .runnable }).proc
          (.user n)).state = .unused
        rw [Machine.setProc_proc_ne ProcId.noConfusion, hunused]
    | _ =>
        rcases exec_state (fun _ _ => Instr.noConfusion) (fun _ => Instr.noConfusion)
          Instr.noConfusion hexec (.user n) with hsame | ⟨_, hrun⟩
        · exact absurd (hsame.trans hunused) hp
        · exact hrun
  · cases a with
    | schedCreateKproc q =>
        by_cases hq : .user n = q
        · rw [← hq]
          show ((m.setProc (.user n) { state := .runnable, chan := .null }).proc
            (.user n)).state = .runnable
          rw [Machine.setProc_proc_self]
        · refine absurd ?_ hp
          show ((m.setProc q { state := .runnable, chan := .null }).proc (.user n)).state = .unused
          rw [Machine.setProc_proc_ne hq, hunused]
    | _ => exact absurd hunused hp
  · exact absurd hunused hp

/-! ## `sched_sleep` marks its process with `sched.lock` -/

/-- Instructions of `sched_sleep` that count on `sched.lock`. -/
def Instr.sleeps : Instr → Bool
  | .setSleeping _ _ => true
  | .sleepEnter _ lk => lk = .sched
  | _ => false

/-- Code that takes `sched.lock` before it marks a process, and switches right
after. -/
inductive Careful : Code → Prop
  | nil : Careful []
  | cons {i : Instr} {k : Code} (hi : i.sleeps = false) (hk : Careful k) : Careful (i :: k)
  | sleep {p : ProcId} {chan : Chan} {lk : LockId} {k : Code} (hlk : lk ≠ .sched) (hk : Careful k) :
      Careful (.acquire .sched :: .release lk :: .setSleeping p chan :: .switchOut :: k)

/-- How far a CPU is in `sched_sleep`. -/
inductive SleepOk (m : Machine) (c : Nat) : Code → Prop
  | careful {k : Code} (hk : Careful k) : SleepOk m c k
  | spin {p : ProcId} {chan : Chan} {lk : LockId} {k : Code} (hlk : lk ≠ .sched) (hk : Careful k) :
      SleepOk m c (.spin .sched :: .release lk :: .setSleeping p chan :: .switchOut :: k)
  | drop {p : ProcId} {chan : Chan} {lk : LockId} {k : Code} (hown : m.owner .sched = some c)
      (hlk : lk ≠ .sched) (hk : Careful k) :
      SleepOk m c (.release lk :: .setSleeping p chan :: .switchOut :: k)
  | mark {p : ProcId} {chan : Chan} {k : Code} (hown : m.owner .sched = some c) (hk : Careful k) :
      SleepOk m c (.setSleeping p chan :: .switchOut :: k)
  | enter {chan : Chan} {k : Code} (hown : m.owner .sched = some c) (hk : Careful k) :
      SleepOk m c (.sleepEnter chan .sched :: k)

structure SleepInv (m : Machine) : Prop where
  cpus : ∀ c, SleepOk m c (m.next c)
  out : ∀ p, Known m p → (∀ c, (m.cpu c).running ≠ .proc p) → Careful (m.code (.proc p))

theorem careful_of_all {f : Code} (hf : f.all (fun i => !i.sleeps) = true) (hk : Careful k) :
    Careful (f ++ k) := by
  induction f with
  | nil => exact hk
  | cons i f ih =>
      rw [List.all_cons, Bool.and_eq_true] at hf
      exact .cons (by simpa using hf.1) (ih hf.2)

theorem Careful.tail_of_switchOut (h : Careful (.switchOut :: k)) : Careful k := by
  cases h with
  | cons _ hk => exact hk

theorem careful_sleepBody {p : ProcId} {chan : Chan} {lk : LockId} (hlk : lk ≠ .sched)
    (hk : Careful k) : Careful (sleepBody p chan lk ++ k) := by
  rw [sleepBody, if_neg hlk]
  exact .sleep hlk (.cons rfl (.cons rfl (.cons rfl hk)))

theorem careful_expand {f : Code} (hx : Expands i f) (hi : i.sleeps = false) (hk : Careful k) :
    Careful (f ++ k) := by
  cases hx with
  | sleepEnter p chan lk => exact careful_sleepBody (of_decide_eq_false hi) hk
  | _ => exact careful_of_all rfl hk

theorem careful_handleInterrupt {uartEnable : Bool} {q : Irq} (hk : Careful k) :
    Careful (handleInterrupt uartEnable q ++ .iret true :: k) := by
  refine careful_of_all ?_ (.cons rfl hk)
  cases q with
  | com1 bytes => cases uartEnable <;> rfl
  | _ => rfl

/-- `sched.lock` changes hands by its own exchange and release. -/
theorem exec_schedOwner (hspin : i ≠ .spin .sched) (hrel : i ≠ .release .sched)
    (hexec : exec m c k i = some m') : m'.owner .sched = m.owner .sched := by
  cases i with
  | spin l =>
      simp only [exec] at hexec
      split at hexec <;> cases hexec
      exact Function.update_of_ne (fun e => hspin (by rw [e])) ..
  | release l =>
      have hne : LockId.sched ≠ l := fun e => hrel (by rw [e])
      simp only [exec] at hexec
      split at hexec
      · split at hexec <;> cases hexec <;> exact Function.update_of_ne hne ..
      · cases hexec
        rfl
  | _ => rw [(exec_untouched hexec).owner (fun _ => Instr.noConfusion) (fun _ => Instr.noConfusion)]

theorem SleepOk.congr (h : SleepOk m c k) (howner : m.owner .sched = some c → m'.owner .sched = some c) :
    SleepOk m' c k := by
  cases h with
  | careful hk => exact .careful hk
  | spin hlk hk => exact .spin hlk hk
  | drop hown hlk hk => exact .drop (howner hown) hlk hk
  | mark hown hk => exact .mark (howner hown) hk
  | enter hown hk => exact .enter (howner hown) hk

theorem SleepInv.of_elsewhere (hs : SleepInv m) (h : Inv m) (e : Elsewhere m c m')
    (hc : SleepOk m' c (m'.next c))
    (hleft : ∀ p, (m.cpu c).running = .proc p → (m'.cpu c).running ≠ .proc p →
      Careful (m'.code (.proc p))) : SleepInv m' where
  cpus d := by
    by_cases hne : d = c
    · rw [hne]
      exact hc
    · rw [e.frame.next h hne]
      exact (hs.cpus d).congr (e.owner d hne .sched).mpr
  out p hp hno := by
    by_cases hrun : (m.cpu c).running = .proc p
    · exact hleft p hrun (hno c)
    by_cases hp' : Known m p
    · rw [e.code (.proc p) (Ne.symm hrun) fun q hq => by rw [← ThreadId.proc.inj hq]; exact hp']
      refine hs.out p hp' fun d => ?_
      by_cases hd : d = c
      · rw [hd]
        exact hrun
      · rw [← e.cpu d hd]
        exact hno d
    · rw [e.new p hp' hp]
      exact careful_of_all (f := procKentry) rfl .nil

theorem exec_sleepOk (hs : SleepOk m c (i :: k)) (hexec : exec m c k i = some m') {f : Code}
    (hx : Expands i f) : SleepOk m' c (f ++ k) := by
  cases hs with
  | careful hk =>
      cases hk with
      | cons hi hk => exact .careful (careful_expand hx hi hk)
      | sleep hlk hk =>
          cases hx with
          | single hi => cases hi
          | acquire _ => exact .spin hlk hk
  | spin hlk hk =>
      cases hx
      simp only [exec] at hexec
      split at hexec <;> cases hexec
      have hown : Function.update m.owner .sched (some c) .sched = some c := Function.update_self ..
      exact .drop hown hlk hk
  | drop hown hlk hk =>
      cases hx
      refine .mark ?_ hk
      rw [exec_schedOwner Instr.noConfusion (fun e => hlk (Instr.release.inj e)) hexec]
      exact hown
  | mark hown hk =>
      cases hx
      exact .careful (.cons rfl hk)
  | enter hown hk =>
      cases hx with
      | single hi => cases hi
      | sleepEnter p chan _ =>
          refine .mark ?_ (.cons rfl hk)
          rw [exec_schedOwner Instr.noConfusion Instr.noConfusion hexec]
          exact hown

theorem exec_sleepInv (h : Inv m) (hs : SleepInv m) (hpanic : (m.cpu c).panicked = none)
    (hnext : m.next c = i :: k) (hexec : exec m c k i = some m') : SleepInv m' := by
  have helse := exec_elsewhere h hnext hexec
  have hok := hs.cpus c
  rw [hnext] at hok
  by_cases hsw : i = .switchOut
  · subst hsw
    have hk : Careful (.switchOut :: k) := by
      cases hok with
      | careful hk => exact hk
    rcases switchOut_cases h hnext hexec with ⟨hrun, hcode, _⟩ | ⟨p, hrun, _, _, hcode, hback, _⟩
    · refine hs.of_elsewhere h helse ?_ fun p hp hne => absurd (by rw [hrun, hp]) hne
      rw [Machine.next_eq hrun (by rw [hcode]), hnext]
      exact .careful hk
    · refine hs.of_elsewhere h helse (by rw [hback]; exact .careful (.cons rfl .nil)) fun q hq _ => ?_
      rw [hrun, ThreadId.proc.injEq] at hq
      rw [← hq, hcode, Function.update_self]
      exact .cons rfl hk.tail_of_switchOut
  by_cases hd : ∃ p, i = .dispatch p
  · obtain ⟨p, rfl⟩ := hd
    obtain ⟨hrun, _, hknown, hno, hnext', _⟩ := dispatch_cases h hnext hexec
    refine hs.of_elsewhere h helse (by rw [hnext']; exact .careful (hs.out p hknown hno)) ?_
    intro q hq _
    rw [hrun] at hq
    cases hq
  rcases exec_code h hpanic hnext hsw (fun p hp => hd ⟨p, hp⟩) hexec with hstop | ⟨f, hx, g⟩
  · refine hs.of_elsewhere h helse ?_ fun p hp hne => absurd (by rw [hstop.running, hp]) hne
    rw [hstop.next, hnext]
    cases hok with
    | careful hk => exact .careful hk
    | spin hlk hk => exact .spin hlk hk
    | drop hown hlk hk =>
        refine .drop ?_ hlk hk
        rw [exec_schedOwner Instr.noConfusion (fun e => hlk (Instr.release.inj e)) hexec]
        exact hown
    | mark hown hk =>
        refine .mark ?_ hk
        rw [exec_schedOwner Instr.noConfusion Instr.noConfusion hexec]
        exact hown
    | enter hown hk =>
        refine .enter ?_ hk
        rw [exec_schedOwner Instr.noConfusion Instr.noConfusion hexec]
        exact hown
  · refine hs.of_elsewhere h helse ?_ fun p hp hne => absurd (by rw [g.running, hp]) hne
    rw [g.next]
    exact exec_sleepOk hok hexec hx

theorem call_sleepOk {a : Call} (hrule : SleepsLocked m c (.call a)) (intFlag : Bool) :
    SleepOk (call m c a) c (callCode intFlag a) := by
  cases a with
  | schedSleep chan lk =>
      by_cases hlk : lk = .sched
      · subst hlk
        exact .enter (hrule rfl) .nil
      · exact .careful (.cons (decide_eq_false hlk) .nil)
  | syscall s =>
      refine .careful (careful_of_all ?_ (.cons rfl .nil))
      cases s <;> rfl
  | _ =>
      refine .careful ?_
      rw [← List.append_nil (callCode intFlag _)]
      exact careful_of_all rfl .nil

theorem step_sleepInv (h : Inv m) (hs : SleepInv m) (hlegal : Legal m c e)
    (hrule : SleepsLocked m c e) (hstep : step m c e = some m') : SleepInv m' := by
  have helse := step_elsewhere h hlegal hstep
  obtain ⟨hpanic, ⟨i, k, rfl, hnext, hexec⟩ | ⟨a, rfl, hnext, _, rfl⟩ | ⟨q, _, hflag, rfl⟩⟩ :=
    step_cases hstep
  · exact exec_sleepInv h hs hpanic hnext hexec
  · have g := call_code h hpanic hnext hlegal
    refine hs.of_elsewhere h helse ?_ fun p hp hne => absurd (by rw [g.running, hp]) hne
    rw [g.next]
    exact call_sleepOk hrule _
  · refine hs.of_elsewhere h helse ?_ fun p hp hne => absurd (by simpa using hp) hne
    rw [Machine.next_goto]
    -- With interrupts on the CPU has no lock and waits for none.
    obtain ⟨hzero, hheld, _⟩ := h.held_of_intFlag hpanic hflag
    have hfree : m.owner .sched ≠ some c := fun hown => by
      have := Machine.mem_held.mpr hown
      rw [hheld] at this
      cases this
    have hok := hs.cpus c
    have hlayer := (h.cpus c).layer (by simp [hpanic])
    rw [hzero, hheld] at hlayer
    generalize m.next c = code at hok hlayer ⊢
    cases hok with
    | careful hk => exact .careful (careful_handleInterrupt hk)
    | spin _ _ => cases hlayer
    | drop hown _ _ => exact absurd hown hfree
    | mark hown _ => exact absurd hown hfree
    | enter hown _ => exact absurd hown hfree

/-! ## States -/

/-- The current process `p` of a CPU: it runs, or is marked and on its way out, or
the scheduler has it back and sorts it. -/
inductive Current (m : Machine) (c : Nat) (p : ProcId) : Prop
  | live (hstate : (m.proc p).state = .running ∨ (m.proc p).state = .runnable)
      (hnext : m.next c ≠ [.requeue])
  | leaving {k : Code} (hstate : (m.proc p).state = .sleeping) (hnext : m.next c = .switchOut :: k)
      (hown : m.owner .sched = some c)
  | back (hstate : (m.proc p).state = .runnable ∨ (m.proc p).state = .sleeping)
      (hnext : m.next c = [.requeue])
  | queued (hnext : m.next c = [.clearProc])

structure StateInv (m : Machine) : Prop where
  ready : ∀ p ∈ m.readyQueue, (m.proc p).state = .runnable
  waiting : ∀ p ∈ m.waitingQueue, (m.proc p).state = .sleeping
  fresh : ∀ n, Known m (.user n) → .user n ∉ m.added → (m.proc (.user n)).state = .runnable
  current : ∀ c n, (m.cpu c).proc = some (.user n) → Current m c (.user n)
  hand : ∀ c p, (m.next c).head? ≠ some (.pushReady p)

/-- A process in a queue keeps its record. -/
theorem Elsewhere.queued (e : Elsewhere m c m') (h : Inv m) {x : Place} {p : ProcId} (hat : At m x p)
    (hx : x ≠ .cpu c) : m'.proc p = m.proc p :=
  e.proc p (h.placed.known p x hat) (h.placed.not_at hat (Ne.symm hx))

theorem Elsewhere.current (e : Elsewhere m c m') (h : Inv m) {d : Nat} (hne : d ≠ c) {p : ProcId}
    (hproc : (m.cpu d).proc = some p) (hcur : Current m d p) : Current m' d p := by
  have hnext := e.frame.next h hne
  have hsame : m.next d ≠ [.clearProc] → m'.proc p = m.proc p := fun hn =>
    e.queued h (x := .cpu d) (Or.inl ⟨hproc, hn⟩) fun e => hne (Place.cpu.inj e)
  cases hcur with
  | live hstate hn =>
      by_cases hclear : m.next d = [.clearProc]
      · exact .queued (by rw [hnext, hclear])
      · exact .live (by rw [hsame hclear]; exact hstate) (by rw [hnext]; exact hn)
  | leaving hstate hn hown =>
      refine .leaving ?_ (by rw [hnext, hn]) ((e.owner d hne .sched).mpr hown)
      rw [hsame (by rw [hn]; exact fun e => by cases e), hstate]
  | back hstate hn =>
      refine .back ?_ (by rw [hnext, hn])
      rw [hsame (by rw [hn]; exact fun e => by cases e)]
      exact hstate
  | queued hn => exact .queued (by rw [hnext, hn])

/-- The rest of the machine is in order once the queues and CPU `c` are. -/
theorem StateInv.of_elsewhere (hs : StateInv m) (h : Inv m) (hlegal : Legal m c e)
    (hstep : step m c e = some m') (hadded : ∀ p ∈ m.added, p ∈ m'.added)
    (hready : ∀ p ∈ m'.readyQueue, p ∈ m.readyQueue ∨ (m'.proc p).state = .runnable)
    (hwaiting : ∀ p ∈ m'.waitingQueue, p ∈ m.waitingQueue ∨ (m'.proc p).state = .sleeping)
    (hcur : ∀ n, (m'.cpu c).proc = some (.user n) → Current m' c (.user n))
    (hhand : ∀ p, (m'.next c).head? ≠ some (.pushReady p)) : StateInv m' := by
  have helse := step_elsewhere h hlegal hstep
  refine ⟨fun p hp => ?_, fun p hp => ?_, fun n hknown hnot => ?_, fun d n hproc => ?_, fun d p => ?_⟩
  · rcases hready p hp with hold | hnew
    · rw [helse.queued h (x := .ready) hold fun e => by cases e]
      exact hs.ready p hold
    · exact hnew
  · rcases hwaiting p hp with hold | hnew
    · rw [helse.queued h (x := .waiting) hold fun e => by cases e]
      exact hs.waiting p hold
    · exact hnew
  · by_cases hk : Known m (.user n)
    · have hout : .user n ∉ m.added := fun ha => hnot (hadded _ ha)
      rw [helse.proc _ hk fun hat => ?_]
      · exact hs.fresh n hk hout
      · rcases h.placed.origin _ _ hat with ha | ⟨d, hd, _⟩
        · exact hout ha
        · cases hd
    · exact step_new_state h hstep hk hknown
  · by_cases hne : d = c
    · subst hne
      exact hcur n hproc
    · rw [helse.cpu d hne] at hproc
      exact helse.current h hne hproc (hs.current d n hproc)
  · by_cases hne : d = c
    · subst hne
      exact hhand p
    · rw [helse.frame.next h hne]
      exact hs.hand d p

/-! ### Instructions -/

theorem exec_added (hexec : exec m c k i = some m') : ∀ p ∈ m.added, p ∈ m'.added := by
  intro p hp
  cases i with
  | addReady q =>
      cases hexec
      exact List.mem_cons_of_mem q hp
  | _ =>
      rw [(exec_untouched hexec).added fun _ => Instr.noConfusion]
      exact hp

/-- The process that is sorted is a user process. -/
theorem Inv.user_of_requeue (h : Inv m) (hnext : m.next c = [.requeue]) {p : ProcId}
    (hproc : (m.cpu c).proc = some p) (hidle : p ≠ .idle c) : ∃ n, p = .user n := by
  have hat : At m (.cpu c) p := Or.inl ⟨hproc, by rw [hnext]; exact fun e => by cases e⟩
  rcases h.placed.origin p _ hat with ha | ⟨d, hd, hx⟩
  · exact (h.placed.user p ha).1
  · rw [Place.cpu.inj hx] at hidle
    exact absurd hd hidle

theorem exec_ready (h : Inv m) (hs : StateInv m) (hnext : m.next c = i :: k)
    (hexec : exec m c k i = some m') (p : ProcId) (hp : p ∈ m'.readyQueue) :
    p ∈ m.readyQueue ∨ (m'.proc p).state = .runnable := by
  cases i with
  | addReady q =>
      cases hexec
      rcases List.mem_append.mp hp with hold | hq
      · exact Or.inl hold
      · rw [List.mem_singleton] at hq
        subst hq
        have hmem : .addReady p ∈ m.code (m.cpu c).running := by
          rw [show m.code (m.cpu c).running = _ from hnext]
          exact List.mem_cons_self
        obtain ⟨⟨n, rfl⟩, hknown, _, hnot⟩ := h.adds.pending _ _ hmem
        exact Or.inr (hs.fresh n hknown hnot)
  | pick =>
      simp only [exec] at hexec
      split at hexec <;> cases hexec
      · rename_i q qs hq
        rw [hq]
        exact Or.inl (List.mem_cons_of_mem q hp)
      · exact Or.inl hp
  | requeue =>
      simp only [exec] at hexec
      split at hexec
      · cases hexec
        exact Or.inl hp
      · split at hexec
        · cases hexec
          exact Or.inl hp
        · split at hexec <;> cases hexec
          · rename_i q _ _ hrun
            rcases List.mem_append.mp hp with hold | hq
            · exact Or.inl hold
            · rw [List.mem_singleton] at hq
              rw [hq]
              exact Or.inr hrun
          · exact Or.inl hp
  | pushReady q => exact absurd (by rw [hnext]; rfl) (hs.hand c q)
  | _ =>
      rw [(exec_untouched hexec).readyQueue (fun _ => Instr.noConfusion) Instr.noConfusion
        Instr.noConfusion (fun _ => Instr.noConfusion)] at hp
      exact Or.inl hp

theorem exec_waiting (h : Inv m) (hs : StateInv m) (hnext : m.next c = i :: k)
    (hexec : exec m c k i = some m') (p : ProcId) (hp : p ∈ m'.waitingQueue) :
    p ∈ m.waitingQueue ∨ (m'.proc p).state = .sleeping := by
  cases i with
  | wakeLoop chan j =>
      simp only [exec] at hexec
      split at hexec
      · cases hexec
        exact Or.inl hp
      · split at hexec <;> cases hexec
        · exact Or.inl (List.mem_of_mem_eraseIdx hp)
        · exact Or.inl hp
  | requeue =>
      have htyped := (h.cpus c).typed
      rw [hnext] at htyped
      have hback : m.next c = [.requeue] := by rw [hnext, htyped.2.2]
      simp only [exec] at hexec
      split at hexec
      · cases hexec
        exact Or.inl hp
      · rename_i q hq
        split at hexec
        · cases hexec
          exact Or.inl hp
        · rename_i hidle
          split at hexec <;> cases hexec
          · exact Or.inl hp
          · rename_i hnot
            rcases List.mem_append.mp hp with hold | hpq
            · exact Or.inl hold
            · rw [List.mem_singleton] at hpq
              subst hpq
              obtain ⟨n, rfl⟩ := h.user_of_requeue hback hq hidle
              refine Or.inr ?_
              show (m.proc (.user n)).state = .sleeping
              cases hs.current c n hq with
              | live _ hne => exact absurd hback hne
              | leaving _ hn _ =>
                  rw [hback] at hn
                  cases hn
              | back hstate _ => exact hstate.resolve_left hnot
              | queued hn =>
                  rw [hback] at hn
                  cases hn
  | _ =>
      rw [(exec_untouched hexec).waitingQueue Instr.noConfusion (fun _ _ => Instr.noConfusion)] at hp
      exact Or.inl hp

/-- Past its tests `sched_switch_out` leaves a process that is not `RUNNING`. -/
theorem switchOut_state (hexec : exec m c k .switchOut = some m') {p : ProcId}
    (hproc : (m.cpu c).proc = some p) (hpanic : (m'.cpu c).panicked = none) :
    (m.proc p).state ≠ .running := by
  intro hrun
  have hcall : ((m.callCurproc c).cpu c).proc = some p := by simpa using hproc
  have hstate : ((m.callCurproc c).proc p).state = .running := hrun
  simp only [exec, hcall, hstate, if_true] at hexec
  split at hexec
  · cases hexec
    simp [Machine.fail] at hpanic
  · split at hexec <;> cases hexec <;> simp [Machine.fail] at hpanic

theorem exec_switchOut_current (h : Inv m) (hs : StateInv m) (hpanic : (m.cpu c).panicked = none)
    (hnext : m.next c = .switchOut :: k) (hexec : exec m c k .switchOut = some m') {n : Nat}
    (hproc : (m'.cpu c).proc = some (.user n)) : Current m' c (.user n) := by
  have hsame : (m'.cpu c).proc = (m.cpu c).proc :=
    exec_cpuProc (fun _ => Instr.noConfusion) Instr.noConfusion Instr.noConfusion hexec
  have howner := (exec_untouched hexec).owner (fun _ => Instr.noConfusion) (fun _ => Instr.noConfusion)
  have hcur := hs.current c n (hsame.symm.trans hproc)
  have hstate : m'.proc = m.proc := by
    simp only [exec] at hexec
    repeat' split at hexec
    all_goals
      cases hexec
      rfl
  rcases switchOut_cases h hnext hexec with ⟨hrun, hcode, _⟩ | ⟨q, _, _, _, _, hback, hpanic'⟩
  · have hnext' : m'.next c = m.next c := Machine.next_eq hrun (by rw [hcode])
    cases hcur with
    | live hst hn => exact .live (by rw [hstate]; exact hst) (by rw [hnext']; exact hn)
    | leaving hst hn hown =>
        exact .leaving (by rw [hstate]; exact hst) (by rw [hnext', hn]) (by rw [howner]; exact hown)
    | back _ hn =>
        rw [hnext] at hn
        cases hn
    | queued hn =>
        rw [hnext] at hn
        cases hn
  · have hnot := switchOut_state hexec (hsame.symm.trans hproc) (hpanic'.trans hpanic)
    refine .back ?_ hback
    rw [hstate]
    cases hcur with
    | live hst _ => exact Or.inl (hst.resolve_left hnot)
    | leaving hst _ _ => exact Or.inr hst
    | back hst _ => exact hst
    | queued hn =>
        rw [hnext] at hn
        cases hn

theorem exec_current (h : Inv m) (hsl : SleepInv m) (hs : StateInv m)
    (hpanic : (m.cpu c).panicked = none) (hnext : m.next c = i :: k)
    (hexec : exec m c k i = some m') {n : Nat} (hproc : (m'.cpu c).proc = some (.user n)) :
    Current m' c (.user n) := by
  have hok := hsl.cpus c
  have htyped := (h.cpus c).typed
  rw [hnext] at hok htyped
  cases i with
  | switchOut => exact exec_switchOut_current h hs hpanic hnext hexec hproc
  | dispatch p =>
      obtain ⟨_, _, hknown, hno, hnext', hcpu⟩ := dispatch_cases h hnext hexec
      rw [hcpu] at hproc
      obtain rfl : p = .user n := Option.some.inj hproc
      refine .live (Or.inl ?_) ?_
      · cases hexec
        show ((Machine.setProc _ (.user n) _).proc (.user n)).state = .running
        rw [Machine.setProc_proc_self]
      · rw [hnext']
        rcases (h.resume _ hknown hno).entry with ⟨b, k', hk'⟩ | ⟨k', hk'⟩
        · rw [hk']
          exact fun e => by cases e
        · rw [hk']
          exact fun e => by cases e
  | clearProc =>
      cases hexec
      have : ((m.setCpu c { m.cpu c with proc := none }).cpu c).proc = some (.user n) := hproc
      rw [Machine.setCpu_cpu_self] at this
      cases this
  | startCpu =>
      simp only [exec] at hexec
      split at hexec <;> cases hexec
      · -- Before it starts a scheduler has no current process.
        rw [show ((m.fail c .curCpuWithIf).cpu c).proc = (m.cpu c).proc by simp [Machine.fail]] at hproc
        obtain ⟨⟨c', hc'⟩, _⟩ := htyped
        rw [(h.running_of_proc (plain_of_head hnext rfl) hproc).1] at hc'
        cases hc'
      have : ((m.setCpu c { m.cpu c with proc := none, intFlag := true }).cpu c).proc =
        some (.user n) := hproc
      rw [Machine.setCpu_cpu_self] at this
      cases this
  | requeue =>
      have hclear : (m.goto c [.clearProc]).next c = [.clearProc] := Machine.next_goto
      refine .queued ?_
      simp only [exec] at hexec
      repeat' split at hexec
      all_goals
        cases hexec
        exact hclear
  | setSleeping p chan =>
      cases hok with
      | careful hk =>
          cases hk with
          | cons hi _ => cases hi
      | mark hown _ =>
          cases hexec
          have hrun := (h.running_of_proc (plain_of_ordinary hnext rfl) hproc).1
          rw [htyped.1, ThreadId.proc.injEq] at hrun
          rw [hrun]
          refine .leaving ?_ Machine.next_goto hown
          show ((m.setProc (.user n) { state := .sleeping, chan := chan }).proc (.user n)).state = _
          rw [Machine.setProc_proc_self]
  | _ =>
      rw [exec_cpuProc (fun _ => Instr.noConfusion) Instr.noConfusion Instr.noConfusion hexec] at hproc
      have hstill := h.still_tail hnext
      have hcode := exec_code h hpanic hnext Instr.noConfusion (fun _ => Instr.noConfusion) hexec
      cases hs.current c n hproc with
      | live hst hn =>
          refine .live ?_ ?_
          · rcases exec_state (fun _ _ => Instr.noConfusion) (fun _ => Instr.noConfusion)
              Instr.noConfusion hexec (.user n) with hsame | ⟨_, hrun⟩
            · rw [hsame]
              exact hst
            · exact Or.inr hrun
          · rcases hcode with hstop | ⟨f, hx, g⟩
            · rw [hstop.next]
              exact hn
            · rw [g.next]
              exact expands_ne_requeue hx hstill
      | leaving _ hn _ =>
          rw [hnext] at hn
          cases hn
      | back _ hn =>
          rw [hnext] at hn
          cases hn
      | queued hn =>
          rw [hnext] at hn
          cases hn

/-- While nobody is woken, no process is in the hands of `sched_wakeup`. -/
theorem step_hand (h : Inv m) (hlegal : Legal m c e) (hrule : WakesNobody m c e)
    (hstep : step m c e = some m') (p : ProcId) : (m'.next c).head? ≠ some (.pushReady p) := by
  intro hhead
  obtain ⟨rfl, i, k, hnext, hexec, ⟨_, _, hj⟩ | ⟨_, _, hj⟩ | ⟨_, hj⟩ | ⟨chan, n, q, rfl, _⟩ |
    ⟨_, hj⟩⟩ := step_headOnly h hlegal hstep hhead rfl
  · cases hj
  · cases hj
  · cases hj
  · simp only [exec] at hexec
    split at hexec
    · cases hexec
      rw [Machine.next_goto] at hhead
      obtain ⟨k', hk'⟩ := List.head?_eq_some_iff.mp hhead
      exact Bool.noConfusion (h.still_tail hnext (.pushReady p) (by rw [hk']; exact List.mem_cons_self))
    · rename_i x hx
      rw [if_neg (hrule chan n k x hnext hx), Option.some.injEq] at hexec
      rw [← hexec, Machine.next_goto] at hhead
      cases hhead
  · cases hj

/-! ### Runs -/

theorem call_added (a : Call) : (call m c a).added = m.added := by
  cases a <;> rfl

theorem call_cpuProc (a : Call) : ((call m c a).cpu c).proc = (m.cpu c).proc := by
  cases a with
  | curproc => simp [call]
  | setInterrupt on => simp [call]
  | _ => rfl

theorem call_proc {a : Call} (hlegal : Legal m c (.call a)) {p : ProcId} (hp : Known m p) :
    (call m c a).proc p = m.proc p := by
  cases a with
  | schedCreateKproc q =>
      show (m.setProc q { state := .runnable, chan := .null }).proc p = m.proc p
      exact Machine.setProc_proc_ne fun e => hp (by rw [e]; exact hlegal.2)
  | _ => rfl

theorem ne_requeue_of_head {f : Code} (hf : ∀ j, f.head? = some j → j.headOnly = false) :
    f ≠ [.requeue] := by
  rintro rfl
  exact Bool.noConfusion (hf .requeue rfl)

/-- Between two instructions of the kernel the current process is not being
switched. -/
theorem StateInv.live_of_not_held (hs : StateInv m) (h : Inv m) (hown : m.owner .sched ≠ some c)
    {n : Nat} (hproc : (m.cpu c).proc = some (.user n)) :
    (m.proc (.user n)).state = .running ∨ (m.proc (.user n)).state = .runnable := by
  have htyped := (h.cpus c).typed
  have hsched : ∀ i, InScheduler (m.cpu c).running i (m.held c) → False := fun i hin =>
    hown (Machine.mem_held.mp (by rw [hin.2.1]; exact Finset.mem_singleton_self _))
  cases hs.current c n hproc with
  | live hst _ => exact hst
  | leaving _ _ ho => exact absurd ho hown
  | back _ hn =>
      rw [hn] at htyped
      exact (hsched _ htyped).elim
  | queued hn =>
      rw [hn] at htyped
      exact (hsched _ htyped).elim

theorem step_state (h : Inv m) (hsl : SleepInv m) (hs : StateInv m) (hlegal : Legal m c e)
    (hrule : WakesNobody m c e) (hstep : step m c e = some m') : StateInv m' := by
  obtain ⟨hpanic, ⟨i, k, rfl, hnext, hexec⟩ | ⟨a, rfl, hnext, _, rfl⟩ | ⟨q, _, hflag, rfl⟩⟩ :=
    step_cases hstep
  · exact hs.of_elsewhere h hlegal hstep (exec_added hexec) (exec_ready h hs hnext hexec)
      (exec_waiting h hs hnext hexec) (fun _ => exec_current h hsl hs hpanic hnext hexec)
      (step_hand h hlegal hrule hstep)
  · have g := call_code h hpanic hnext hlegal
    refine hs.of_elsewhere h hlegal hstep ?_ ?_ ?_ (fun n hproc => ?_) fun p => ?_
    · rw [call_added]
      exact fun _ => id
    · rw [(call_queues a).1]
      exact fun _ => Or.inl
    · rw [(call_queues a).2]
      exact fun _ => Or.inl
    · rw [call_cpuProc] at hproc
      have hknown := h.placed.known (.user n) (.cpu c) (Or.inl ⟨hproc, by rw [hnext]; simp⟩)
      refine .live ?_ (by rw [g.next]; exact ne_requeue_of_head fun _ => callCode_head)
      rw [call_proc hlegal hknown]
      cases hs.current c n hproc with
      | live hst _ => exact hst
      | leaving _ hn _ =>
          rw [hnext] at hn
          cases hn
      | back _ hn =>
          rw [hnext] at hn
          cases hn
      | queued hn =>
          rw [hnext] at hn
          cases hn
    · exact step_hand h hlegal hrule hstep p
  · have hown : m.owner .sched ≠ some c := fun hown => by
      have := Machine.mem_held.mpr hown
      rw [(h.held_of_intFlag hpanic hflag).2.1] at this
      cases this
    refine hs.of_elsewhere h hlegal hstep (fun _ => id) (fun _ => Or.inl) (fun _ => Or.inl)
      (fun n hproc => ?_) fun p => ?_
    · have hproc' : (m.cpu c).proc = some (.user n) := by simpa using hproc
      refine .live (hs.live_of_not_held h hown hproc') ?_
      rw [Machine.next_goto]
      exact ne_requeue_of_head fun _ => handleInterrupt_head
    · exact step_hand h hlegal hrule hstep p

theorem boot_sleepInv (uartEnable : Bool) : SleepInv (Machine.boot uartEnable) :=
  ⟨fun _ => .careful .nil, fun _ hp => absurd rfl hp⟩

theorem boot_state (uartEnable : Bool) : StateInv (Machine.boot uartEnable) := by
  refine ⟨fun _ hp => ?_, fun _ hp => ?_, fun _ hp => absurd rfl hp, fun _ _ hp => ?_, fun _ _ hp => ?_⟩
  · cases hp
  · cases hp
  · cases hp
  · cases hp

/-- While nobody is woken, the queue of a process agrees with its state whenever
`sched.lock` is free. -/
theorem run_statesAgree (h : Keeps (fun m c e => SleepsLocked m c e ∧ WakesNobody m c e) m)
    (hfree : m.owner .sched = none) : StatesAgree m := by
  have hinv := h.reachable.inv
  have hboth := h.invariant (P := fun m => SleepInv m ∧ StateInv m)
    (fun u => ⟨boot_sleepInv u, boot_state u⟩)
    fun hm _ hp hlegal hrule he =>
      ⟨step_sleepInv hm hp.1 hlegal hrule.1 he, step_state hm hp.1 hp.2 hlegal hrule.2 he⟩
  refine ⟨hboth.2.ready, hboth.2.waiting, fun c n hproc => ?_⟩
  exact hboth.2.live_of_not_held hinv (by rw [hfree]; exact fun e => by cases e) hproc

end

/-! ## Two runs -/

/-- A process sleeps in `console_getc` on CPU 0, which then idles; CPU 1 is in its
boot code. -/
def sleepRun : List (Nat × Event) :=
  [(0, .call (.schedCreateKproc (.user 0))), (0, .call (.schedAdd (.user 0)))] ++ execs 0 5 ++
  (0, .call .schedStart) :: execs 0 8 ++
  (0, .call .consoleGetc) :: execs 0 16

/-- Client code that sleeps in `console_getc` only. -/
def Event.noSleep : Event → Bool
  | .call (.schedSleep _ _) => false
  | _ => true

theorem sleepsLocked_of_noSleep {m : Machine} {c : Nat} {e : Event} (h : e.noSleep = true) :
    SleepsLocked m c e := by
  cases e with
  | call a =>
      cases a with
      | schedSleep chan lk => cases h
      | _ => trivial
  | _ => trivial

def checkWakes (m : Machine) (c : Nat) : Event → Bool
  | .exec =>
      match m.next c with
      | .wakeLoop chan j :: _ =>
          match m.waitingQueue[j]? with
          | some p => (m.proc p).chan ≠ chan
          | none => true
      | _ => true
  | _ => true

theorem wakesNobody_of_check {m : Machine} {c : Nat} {e : Event} (h : checkWakes m c e = true) :
    WakesNobody m c e := by
  cases e with
  | exec =>
      intro chan j k p hk hp
      simpa [checkWakes, hk, hp] using h
  | _ => trivial

/-- CPU 1 wakes another channel than the one the process sleeps on. -/
theorem run_statesAgree_asleep :
    ∃ m, Keeps (fun m c e => SleepsLocked m c e ∧ WakesNobody m c e) m ∧ m.owner .sched = none ∧
      .user 0 ∈ m.waitingQueue ∧ StatesAgree m := by
  obtain ⟨m, hm, htest⟩ := exists_keeps_of_replay
    (A := fun m c e => SleepsLocked m c e ∧ WakesNobody m c e)
    (fun m c e => e.noSleep && checkWakes m c e)
    (fun _ _ _ _ h => (Bool.and_eq_true_iff.mp h).imp sleepsLocked_of_noSleep wakesNobody_of_check)
    (fun m => m.owner .sched = none && .user 0 ∈ m.waitingQueue)
    (sleepRun ++ (1, .call (.schedWakeup 7)) :: execs 1 5) (by decide +kernel)
  simp only [Bool.and_eq_true, decide_eq_true_eq] at htest
  exact ⟨m, hm, htest.1, htest.2, run_statesAgree hm htest.1⟩

/-- An interrupt on CPU 1 wakes the process, which is in the ready queue as
`SLEEPING` then. -/
theorem exists_ready_sleeping : ∃ m, Keeps SleepsLocked m ∧ m.owner .sched = none ∧
    .user 0 ∈ m.readyQueue ∧ (m.proc (.user 0)).state = .sleeping ∧ ¬StatesAgree m := by
  obtain ⟨m, hm, htest⟩ := exists_keeps_of_replay (A := SleepsLocked)
    (fun _ _ e => e.noSleep) (fun _ _ _ _ => sleepsLocked_of_noSleep)
    (fun m => m.owner .sched = none && .user 0 ∈ m.readyQueue && (m.proc (.user 0)).state = .sleeping)
    (sleepRun ++ [(1, .call (.setInterrupt true)), (1, .irq (.com1 [65]))] ++ execs 1 9)
    (by decide +kernel)
  simp only [Bool.and_eq_true, decide_eq_true_eq] at htest
  obtain ⟨⟨hfree, hready⟩, hstate⟩ := htest
  refine ⟨m, hm, hfree, hready, hstate, fun hagree => ?_⟩
  rw [hagree.ready _ hready] at hstate
  cases hstate

end Sched
end GuideOS
