import GuideOS.Proc.Sched.Effect

/-!
# No lost wakeup on the console

A reader of the console that finds the buffer empty gives up `console_read_lock` only
after it has taken `sched.lock`, and keeps that until its process is in the waiting
queue.  The interrupt handler fills the buffer with `console_read_lock` and goes
through the waiting queue with `sched.lock`.  So a process that sleeps on the console,
or is about to, finds the buffer empty, or a handler that has still to pass it.
-/

namespace GuideOS
namespace Sched

/-- Instructions of the console that stand only at certain points of its code. -/
def Instr.console : Instr → Bool
  | .sleepEnter .consoleFifo _ => true
  | .setSleeping _ .consoleFifo => true
  | .wakeLoop .consoleFifo _ => true
  | .isrRead _ => true
  | _ => false

def Calm (k : Code) : Prop := ∀ i ∈ k, i.console = false

/-- `console_isr_handler` with `console_read_lock`, up to the end of the loop of
`sched_wakeup`. -/
inductive IsrCode : Code → Prop
  | read (bytes : List (BitVec 8)) (k : Code) : IsrCode (.isrRead bytes :: k)
  | acquire (k : Code) : IsrCode (.acquire .sched :: .wakeLoop .consoleFifo 0 :: k)
  | spin (k : Code) : IsrCode (.spin .sched :: .wakeLoop .consoleFifo 0 :: k)
  | loop (j : Nat) (k : Code) : IsrCode (.wakeLoop .consoleFifo j :: k)
  | push (p : ProcId) (j : Nat) (k : Code) :
      IsrCode (.pushReady p :: .wakeLoop .consoleFifo j :: k)

/-- The CPU is inside `console_isr_handler`, between its `acquire` of
`console_read_lock` and the end of its `sched_wakeup(&console_fifo)`. -/
def InIsr (m : Machine) (c : Nat) : Prop := m.owner .consoleRead = some c ∧ IsrCode (m.next c)

/-- There is nothing to read, or the sleepers will be woken. -/
def Attended (m : Machine) : Prop := m.consoleFifo = [] ∨ ∃ c, InIsr m c

/-- Where the code of a CPU is in the functions of the console, and what holds
there. -/
inductive ConsoleOk (m : Machine) (c : Nat) : Code → Prop
  | calm {k : Code} (hk : Calm k) : ConsoleOk m c k
  | enter {k : Code} (hk : Calm k) (hread : .consoleRead ∈ m.held c) (hfifo : m.consoleFifo = []) :
      ConsoleOk m c (.sleepEnter .consoleFifo .consoleRead :: k)
  | lock {i : Instr} {p : ProcId} {k : Code} (hi : i = .acquire .sched ∨ i = .spin .sched)
      (hk : Calm k) (hread : .consoleRead ∈ m.held c) (hfifo : m.consoleFifo = []) :
      ConsoleOk m c (i :: .release .consoleRead :: .setSleeping p .consoleFifo :: .switchOut ::
        .clearChan p :: k)
  | drop {p : ProcId} {k : Code} (hk : Calm k) (hsched : .sched ∈ m.held c)
      (hread : .consoleRead ∈ m.held c) (hfifo : m.consoleFifo = []) :
      ConsoleOk m c (.release .consoleRead :: .setSleeping p .consoleFifo :: .switchOut ::
        .clearChan p :: k)
  | mark {p : ProcId} {k : Code} (hk : Calm k) (hsched : .sched ∈ m.held c) (hatt : Attended m) :
      ConsoleOk m c (.setSleeping p .consoleFifo :: .switchOut :: .clearChan p :: k)
  | isrLock {i : Instr} {bytes : List (BitVec 8)} {k : Code}
      (hi : i = .acquire .consoleRead ∨ i = .spin .consoleRead) (hk : Calm k)
      (hoff : (m.cpu c).intFlag = false) :
      ConsoleOk m c (i :: .isrRead bytes :: .acquire .sched :: .wakeLoop .consoleFifo 0 ::
        .release .sched :: k)
  | isrRead {bytes : List (BitVec 8)} {k : Code} (hk : Calm k)
      (hread : .consoleRead ∈ m.held c) :
      ConsoleOk m c (.isrRead bytes :: .acquire .sched :: .wakeLoop .consoleFifo 0 ::
        .release .sched :: k)
  | wakeLock {i : Instr} {k : Code} (hi : i = .acquire .sched ∨ i = .spin .sched) (hk : Calm k)
      (hread : .consoleRead ∈ m.held c) :
      ConsoleOk m c (i :: .wakeLoop .consoleFifo 0 :: .release .sched :: k)
  | loop {j : Nat} {k : Code} (hk : Calm k) (hread : .consoleRead ∈ m.held c)
      (hsched : .sched ∈ m.held c)
      (hpast : ∀ x < j, ∀ p, m.waitingQueue[x]? = some p → (m.proc p).chan ≠ .consoleFifo) :
      ConsoleOk m c (.wakeLoop .consoleFifo j :: .release .sched :: k)
  | push {p : ProcId} {j : Nat} {k : Code} (hk : Calm k) (hread : .consoleRead ∈ m.held c)
      (hsched : .sched ∈ m.held c)
      (hpast : ∀ x < j, ∀ p, m.waitingQueue[x]? = some p → (m.proc p).chan ≠ .consoleFifo) :
      ConsoleOk m c (.pushReady p :: .wakeLoop .consoleFifo j :: .release .sched :: k)

/-- The code of a process from `p->chan = chan` to `p->chan = NULL`. -/
inductive Asleep (p : ProcId) : Code → Prop
  | going (k : Code) : Asleep p (.switchOut :: .clearChan p :: k)
  | out (b : Bool) (k : Code) : Asleep p (.restoreInt b :: .clearChan p :: k)
  | woken (k : Code) : Asleep p (.clearChan p :: k)

/-- The process is in the waiting queue or on its way there. -/
inductive Sleeper (m : Machine) (p : ProcId) : Prop
  | waiting (h : p ∈ m.waitingQueue)
  | back (c : Nat) (hproc : (m.cpu c).proc = some p) (hnext : m.next c = [.requeue])
  | going (c : Nat) (k : Code) (hrun : (m.cpu c).running = .proc p)
      (hnext : m.next c = .switchOut :: k)

structure ConInv (m : Machine) : Prop where
  cpus : ∀ c, ConsoleOk m c (m.next c)
  out : ∀ p, Known m p → (∀ c, (m.cpu c).running ≠ .proc p) → Calm (m.code (.proc p))
  asleep : ∀ p, (m.proc p).chan = .consoleFifo → Asleep p (m.code (.proc p))
  locked : ∀ c p k, (m.cpu c).running = .proc p → (m.proc p).chan = .consoleFifo →
    m.next c = .switchOut :: k → .sched ∈ m.held c
  attended : ∀ p, (m.proc p).chan = .consoleFifo → Sleeper m p → Attended m
  fresh : ∀ p, ¬Known m p → (m.proc p).chan ≠ .consoleFifo

section

variable {m m' : Machine} {c : Nat} {k : Code} {i : Instr}

theorem calm_cons (hi : i.console = false) (hk : Calm k) : Calm (i :: k) := fun j hj => by
  rcases List.mem_cons.mp hj with rfl | hj
  · exact hi
  · exact hk j hj

theorem Calm.tail (h : Calm (i :: k)) : Calm k := fun j hj => h j (List.mem_cons_of_mem i hj)

theorem Calm.append {f : Code} (hf : Calm f) (hk : Calm k) : Calm (f ++ k) := fun j hj => by
  rcases List.mem_append.mp hj with hj | hj
  · exact hf j hj
  · exact hk j hj

theorem calm_of_all {f : Code} (h : f.all (fun i => !i.console) = true) : Calm f := fun i hi => by
  simpa using List.all_eq_true.mp h i hi

theorem owner_unique {d : Nat} {l : LockId} (hd : l ∈ m.held d) (hc : m.owner l = some c) : d = c := by
  rw [Machine.mem_held, hc] at hd
  exact (Option.some.inj hd).symm

/-! ## Points of the console code -/

theorem ConsoleOk.isrRead_inv {bytes : List (BitVec 8)} (h : ConsoleOk m c (.isrRead bytes :: k)) :
    ∃ rest, k = .acquire .sched :: .wakeLoop .consoleFifo 0 :: .release .sched :: rest ∧ Calm rest ∧
      .consoleRead ∈ m.held c := by
  cases h with
  | calm hk => exact Bool.noConfusion (hk _ List.mem_cons_self)
  | isrRead hk hr => exact ⟨_, rfl, hk, hr⟩
  | lock hi => rcases hi with hi | hi <;> cases hi
  | isrLock hi => rcases hi with hi | hi <;> cases hi
  | wakeLock hi => rcases hi with hi | hi <;> cases hi

theorem ConsoleOk.mark_inv {p : ProcId}
    (h : ConsoleOk m c (.setSleeping p .consoleFifo :: k)) :
    ∃ rest, k = .switchOut :: .clearChan p :: rest ∧ Calm rest ∧ .sched ∈ m.held c ∧ Attended m := by
  cases h with
  | calm hk => exact Bool.noConfusion (hk _ List.mem_cons_self)
  | mark hk hs hatt => exact ⟨_, rfl, hk, hs, hatt⟩
  | lock hi => rcases hi with hi | hi <;> cases hi
  | isrLock hi => rcases hi with hi | hi <;> cases hi
  | wakeLock hi => rcases hi with hi | hi <;> cases hi

theorem ConsoleOk.loop_inv {j : Nat} (h : ConsoleOk m c (.wakeLoop .consoleFifo j :: k)) :
    ∃ rest, k = .release .sched :: rest ∧ Calm rest ∧ .consoleRead ∈ m.held c ∧
      .sched ∈ m.held c ∧
      ∀ x < j, ∀ p, m.waitingQueue[x]? = some p → (m.proc p).chan ≠ .consoleFifo := by
  cases h with
  | calm hk => exact Bool.noConfusion (hk _ List.mem_cons_self)
  | loop hk hr hs hpast => exact ⟨_, rfl, hk, hr, hs, hpast⟩
  | lock hi => rcases hi with hi | hi <;> cases hi
  | isrLock hi => rcases hi with hi | hi <;> cases hi
  | wakeLock hi => rcases hi with hi | hi <;> cases hi

/-! ## The other CPUs -/

/-- What a step of CPU `c` does to the shared state of the console. -/
structure Shared (m : Machine) (c : Nat) (m' : Machine) : Prop where
  fifo : m.owner .consoleRead ≠ some c → m'.consoleFifo = m.consoleFifo
  waiting : m.owner .sched ≠ some c → m'.waitingQueue = m.waitingQueue
  chan : ∀ p, m.owner .sched ≠ some c → (m'.proc p).chan = .consoleFifo →
    (m.proc p).chan = .consoleFifo
  attended : m.owner .sched ≠ some c → Attended m → Attended m'

/-- A step of another CPU keeps what holds at a point of the console code. -/
theorem ConsoleOk.other {d : Nat} (h : ConsoleOk m d k) (s : Shared m c m') (hne : d ≠ c)
    (hheld : m'.held d = m.held d) (hcpu : m'.cpu d = m.cpu d) : ConsoleOk m' d k := by
  have hread : .consoleRead ∈ m.held d → m'.consoleFifo = m.consoleFifo := fun hd =>
    s.fifo fun hc => hne (owner_unique hd hc)
  have hsched : .sched ∈ m.held d → m.owner .sched ≠ some c := fun hd hc =>
    hne (owner_unique hd hc)
  have hpast : .sched ∈ m.held d → ∀ {j : Nat},
      (∀ x < j, ∀ p, m.waitingQueue[x]? = some p → (m.proc p).chan ≠ .consoleFifo) →
      ∀ x < j, ∀ p, m'.waitingQueue[x]? = some p → (m'.proc p).chan ≠ .consoleFifo := by
    intro hd j hj x hx p hp hchan
    rw [s.waiting (hsched hd)] at hp
    exact hj x hx p hp (s.chan p (hsched hd) hchan)
  cases h with
  | calm hk => exact .calm hk
  | enter hk hr hf => exact .enter hk (by rw [hheld]; exact hr) (by rw [hread hr]; exact hf)
  | lock hi hk hr hf => exact .lock hi hk (by rw [hheld]; exact hr) (by rw [hread hr]; exact hf)
  | drop hk hs hr hf =>
      exact .drop hk (by rw [hheld]; exact hs) (by rw [hheld]; exact hr) (by rw [hread hr]; exact hf)
  | mark hk hs hatt => exact .mark hk (by rw [hheld]; exact hs) (s.attended (hsched hs) hatt)
  | isrLock hi hk hoff => exact .isrLock hi hk (by rw [hcpu]; exact hoff)
  | isrRead hk hr => exact .isrRead hk (by rw [hheld]; exact hr)
  | wakeLock hi hk hr => exact .wakeLock hi hk (by rw [hheld]; exact hr)
  | loop hk hr hs hj =>
      exact .loop hk (by rw [hheld]; exact hr) (by rw [hheld]; exact hs) (hpast hs hj)
  | push hk hr hs hj =>
      exact .push hk (by rw [hheld]; exact hr) (by rw [hheld]; exact hs) (hpast hs hj)

/-- The console is in order once CPU `c` and the process it runs or has left are. -/
theorem ConInv.of_elsewhere (con : ConInv m) (h : Inv m) (e : Elsewhere m c m') (s : Shared m c m')
    (hchan : ∀ p, (m.cpu c).running ≠ .proc p → (m'.proc p).chan = .consoleFifo →
      (m.proc p).chan = .consoleFifo)
    (hc : ConsoleOk m' c (m'.next c))
    (hleft : ∀ p, (m.cpu c).running = .proc p → (m'.cpu c).running ≠ .proc p →
      Calm (m'.code (.proc p)))
    (hasleep : ∀ p, (m.cpu c).running = .proc p → (m'.proc p).chan = .consoleFifo →
      Asleep p (m'.code (.proc p)))
    (hlocked : ∀ p k, (m'.cpu c).running = .proc p → (m'.proc p).chan = .consoleFifo →
      m'.next c = .switchOut :: k → .sched ∈ m'.held c)
    (hatt : ∀ p, (m'.proc p).chan = .consoleFifo → Sleeper m' p → Attended m') : ConInv m' := by
  have hcode : ∀ p, (m.cpu c).running ≠ .proc p → Known m p →
      m'.code (.proc p) = m.code (.proc p) := by
    intro p hrun hp
    refine e.code (.proc p) (Ne.symm hrun) fun q hq => ?_
    rw [← ThreadId.proc.inj hq]
    exact hp
  have hknown : ∀ p, (m.proc p).chan = .consoleFifo → Known m p := fun p hF => by
    by_contra hp
    exact con.fresh p hp hF
  refine ⟨fun d => ?_, fun p hp hno => ?_, fun p hF => ?_, fun d p k hrun hF hk => ?_, hatt,
    fun p hp hF => ?_⟩
  · by_cases hne : d = c
    · rw [hne]
      exact hc
    · rw [e.frame.next h hne]
      exact (con.cpus d).other s hne (e.frame.held hne) (e.cpu d hne)
  · by_cases hrun : (m.cpu c).running = .proc p
    · exact hleft p hrun (hno c)
    · by_cases hp' : Known m p
      · rw [hcode p hrun hp']
        refine con.out p hp' fun d => ?_
        by_cases hd : d = c
        · rw [hd]
          exact hrun
        · rw [← e.cpu d hd]
          exact hno d
      · rw [e.new p hp' hp]
        exact calm_of_all rfl
  · by_cases hrun : (m.cpu c).running = .proc p
    · exact hasleep p hrun hF
    · have hF' := hchan p hrun hF
      rw [hcode p hrun (hknown p hF')]
      exact con.asleep p hF'
  · by_cases hd : d = c
    · subst hd
      exact hlocked p k hrun hF hk
    · rw [e.cpu d hd] at hrun
      rw [e.frame.next h hd] at hk
      rw [e.frame.held hd]
      refine con.locked d p k hrun (hchan p (fun hc' => ?_) hF) hk
      exact h.running_ne hd (hrun.trans hc'.symm)
  · have hp' : ¬Known m p := fun hk => hp (e.known p hk)
    have hrun : (m.cpu c).running ≠ .proc p := fun hrun => hp' (h.known_running hrun)
    exact con.fresh p hp' (hchan p hrun hF)

/-! ## One instruction -/

theorem calm_sleepBody {p : ProcId} {chan : Chan} {lk : LockId} (hchan : chan ≠ .consoleFifo) :
    Calm (sleepBody p chan lk) := by
  have hset : (Instr.setSleeping p chan).console = false := by
    cases chan with
    | consoleFifo => exact absurd rfl hchan
    | _ => rfl
  rw [sleepBody]
  split
  · exact calm_cons hset (calm_of_all rfl)
  · exact calm_cons rfl (calm_cons rfl (calm_cons hset (calm_of_all rfl)))

theorem calm_expand {f : Code} (hx : Expands i f) (hi : i.console = false) (hget : i ≠ .getcTry) :
    Calm f := by
  cases hx with
  | sleepEnter p chan lk =>
      refine calm_sleepBody ?_
      rintro rfl
      cases hi
  | wakeSkip chan j =>
      refine calm_cons ?_ (calm_of_all rfl)
      cases chan with
      | consoleFifo => cases hi
      | _ => rfl
  | wakeTake chan j p =>
      refine calm_cons rfl (calm_cons ?_ (calm_of_all rfl))
      cases chan with
      | consoleFifo => cases hi
      | _ => rfl
  | getcSleep => exact absurd rfl hget
  | getcRead v => exact absurd rfl hget
  | _ => exact calm_of_all rfl

/-- A handler stays in its code until its loop is through. -/
theorem exec_attended (h : Inv m) (con : ConInv m) (hpanic : (m.cpu c).panicked = none)
    (hnext : m.next c = i :: k) (hexec : exec m c k i = some m') (hatt : Attended m) :
    Attended m' ∨ ∃ j, i = .wakeLoop .consoleFifo j ∧ m.waitingQueue[j]? = none := by
  have e := exec_elsewhere h hnext hexec
  have hok := con.cpus c
  have htyped := (h.cpus c).typed
  rw [hnext] at hok htyped
  -- A handler on another CPU is where it was.
  have hother : ∀ d ≠ c, InIsr m d → InIsr m' d := fun d hd hin =>
    ⟨(e.owner d hd _).mpr hin.1, by rw [e.frame.next h hd]; exact hin.2⟩
  by_cases hread : ∃ b, i = .isrRead b
  · obtain ⟨b, rfl⟩ := hread
    have howner := (exec_untouched hexec).owner (fun _ => Instr.noConfusion)
      (fun _ => Instr.noConfusion)
    refine Or.inl (Or.inr ⟨c, ?_, ?_⟩)
    · rw [howner]
      exact Machine.mem_held.mp htyped.1
    · rcases exec_code h hpanic hnext Instr.noConfusion (fun _ => Instr.noConfusion) hexec with
        hstop | ⟨f, hx, g⟩
      · rw [hstop.next, hnext]
        exact .read b k
      · cases hx
        rw [g.next]
        obtain ⟨rest, hk, _, _⟩ := hok.isrRead_inv
        rw [hk]
        exact .acquire _
  by_cases hget : i = .getcTry
  · subst hget
    rcases hatt with hfifo | ⟨d, hd⟩
    · simp only [exec, hfifo] at hexec
      cases hexec
      exact Or.inl (Or.inl hfifo)
    · by_cases hdc : d = c
      · subst hdc
        have := hd.2
        rw [hnext] at this
        cases this
      · exact absurd (owner_unique htyped.1 hd.1).symm hdc
  have hfifo := (exec_untouched hexec).consoleFifo (fun b hb => hread ⟨b, hb⟩) hget
  rcases hatt with hempty | ⟨d, hd⟩
  · exact Or.inl (Or.inl (by rw [hfifo, hempty]))
  by_cases hdc : d = c
  swap
  · exact Or.inl (Or.inr ⟨d, hother d hdc hd⟩)
  subst hdc
  obtain ⟨hown, hcode⟩ := hd
  rw [hnext] at hcode
  cases hcode with
  | read b k => exact absurd ⟨b, rfl⟩ hread
  | acquire k =>
      have howner := (exec_untouched hexec).owner (fun _ => Instr.noConfusion)
        (fun _ => Instr.noConfusion)
      refine Or.inl (Or.inr ⟨d, by rw [howner]; exact hown, ?_⟩)
      rcases exec_code h hpanic hnext Instr.noConfusion (fun _ => Instr.noConfusion) hexec with
        hstop | ⟨f, hx, g⟩
      · rw [hstop.next, hnext]
        exact .acquire k
      · rw [g.next]
        cases hx with
        | single hs => cases hs
        | acquire _ => exact .spin k
  | spin k =>
      simp only [exec] at hexec
      split at hexec <;> cases hexec
      refine Or.inl (Or.inr ⟨d, ?_, ?_⟩)
      · show Function.update m.owner .sched (some d) .consoleRead = some d
        rw [Function.update_of_ne LockId.noConfusion]
        exact hown
      · rw [Machine.next_goto]
        exact .loop 0 k
  | loop j k =>
      simp only [exec] at hexec
      split at hexec
      · exact Or.inr ⟨j, rfl, by assumption⟩
      · split at hexec <;> cases hexec
        · refine Or.inl (Or.inr ⟨d, hown, ?_⟩)
          rw [Machine.next_goto]
          exact .push _ j k
        · refine Or.inl (Or.inr ⟨d, hown, ?_⟩)
          rw [Machine.next_goto]
          exact .loop (j + 1) k
  | push p j k =>
      cases hexec
      refine Or.inl (Or.inr ⟨d, hown, ?_⟩)
      rw [Machine.next_goto]
      exact .loop j k

theorem exec_shared (h : Inv m) (con : ConInv m) (hpanic : (m.cpu c).panicked = none)
    (hnext : m.next c = i :: k) (hexec : exec m c k i = some m') : Shared m c m' := by
  have hok := con.cpus c
  have htyped := (h.cpus c).typed
  rw [hnext] at hok htyped
  constructor
  · intro hno
    refine (exec_untouched hexec).consoleFifo ?_ ?_
    · rintro b rfl
      exact hno (Machine.mem_held.mp htyped.1)
    · rintro rfl
      exact hno (Machine.mem_held.mp htyped.1)
  · intro hno
    refine (exec_untouched hexec).waitingQueue ?_ ?_
    · rintro rfl
      exact hno (Machine.mem_held.mp (by rw [htyped.2.1]; simp))
    · rintro x j rfl
      exact hno (Machine.mem_held.mp htyped.1)
  · intro p hno hF
    by_cases hset : ∃ q x, i = .setSleeping q x
    · obtain ⟨q, x, rfl⟩ := hset
      cases hexec
      by_cases hpq : p = q
      · subst hpq
        have hx : x = .consoleFifo := by
          have : ((m.setProc p { state := .sleeping, chan := x }).proc p).chan = .consoleFifo := hF
          rwa [Machine.setProc_proc_self] at this
        subst hx
        obtain ⟨rest, _, _, hs, _⟩ := hok.mark_inv
        exact absurd (Machine.mem_held.mp hs) hno
      · have : ((m.setProc q { state := .sleeping, chan := x }).proc p).chan = .consoleFifo := hF
        rwa [Machine.setProc_proc_ne hpq] at this
    by_cases hclear : ∃ q, i = .clearChan q
    · obtain ⟨q, rfl⟩ := hclear
      cases hexec
      have : ((m.setProc q { m.proc q with chan := .null }).proc p).chan = .consoleFifo := hF
      by_cases hpq : p = q
      · rw [hpq, Machine.setProc_proc_self] at this
        cases this
      · rwa [Machine.setProc_proc_ne hpq] at this
    rw [← (exec_untouched hexec).chan (fun q x hq => hset ⟨q, x, hq⟩) (fun q hq => hclear ⟨q, hq⟩) p]
    exact hF
  · intro hno hatt
    rcases exec_attended h con hpanic hnext hexec hatt with hatt' | ⟨j, rfl, _⟩
    · exact hatt'
    · exact absurd (Machine.mem_held.mp htyped.1) hno

theorem sleepBody_console (p : ProcId) : sleepBody p .consoleFifo .consoleRead =
    [.acquire .sched, .release .consoleRead, .setSleeping p .consoleFifo, .switchOut, .clearChan p,
      .acquire .consoleRead, .release .sched] :=
  if_neg LockId.noConfusion

/-- A CPU that holds a lock has interrupts off. -/
theorem Inv.intFlag_of_held (h : Inv m) (hpanic : (m.cpu c).panicked = none) {l : LockId}
    (hl : l ∈ m.held c) : (m.cpu c).intFlag = false := by
  by_contra hflag
  have hempty := (h.held_of_intFlag hpanic (by simpa using hflag)).2.1
  rw [hempty] at hl
  exact absurd hl (Finset.notMem_empty l)

theorem mem_held_take {l l' : LockId} (hl : l ∈ m.held c) : l ∈ (m.setOwner l' (some c)).held c := by
  rw [held_take]
  exact Finset.mem_insert_of_mem hl

theorem self_mem_held_take {l : LockId} : l ∈ (m.setOwner l (some c)).held c := by
  rw [held_take]
  exact Finset.mem_insert_self ..

/-- The point of the console code CPU `c` gets to. -/
theorem exec_consoleOk (h : Inv m) (con : ConInv m) (hpanic : (m.cpu c).panicked = none)
    (hnext : m.next c = i :: k) (hswitch : i ≠ .switchOut) (hdispatch : ∀ p, i ≠ .dispatch p)
    (hexec : exec m c k i = some m') : ConsoleOk m' c (m'.next c) := by
  have hok := con.cpus c
  have htyped := (h.cpus c).typed
  rw [hnext] at hok htyped
  have hcode := exec_code h hpanic hnext hswitch hdispatch hexec
  have hheld : (∀ l, i ≠ .spin l) → (∀ l, i ≠ .release l) → m'.held c = m.held c :=
    fun h1 h2 => Machine.held_congr fun l => by rw [(exec_untouched hexec).owner h1 h2]
  cases hok with
  | calm hk =>
      by_cases hget : i = .getcTry
      · subst hget
        simp only [exec] at hexec
        split at hexec <;> cases hexec
        · rename_i hempty
          rw [Machine.next_goto]
          exact .enter (calm_cons rfl hk.tail) htyped.1 hempty
        · rw [Machine.next_goto]
          exact .calm (calm_cons rfl (calm_cons rfl hk.tail))
      · rcases hcode with hstop | ⟨f, hx, g⟩
        · rw [hstop.next, hnext]
          exact .calm hk
        · rw [g.next]
          exact .calm ((calm_expand hx (hk i List.mem_cons_self) hget).append hk.tail)
  | enter hk hr hf =>
      have hr' : .consoleRead ∈ m'.held c := by
        rw [hheld (fun _ => Instr.noConfusion) fun _ => Instr.noConfusion]
        exact hr
      have hf' : m'.consoleFifo = [] := by
        rw [(exec_untouched hexec).consoleFifo (fun _ => Instr.noConfusion) Instr.noConfusion, hf]
      rcases hcode with hstop | ⟨f, hx, g⟩
      · rw [hstop.next, hnext]
        exact .enter hk hr' hf'
      · rw [g.next]
        cases hx with
        | single hs => cases hs
        | sleepEnter p _ _ =>
            rw [sleepBody_console]
            exact .lock (Or.inl rfl) (calm_cons rfl (calm_cons rfl hk)) hr' hf'
  | lock hi hk hr hf =>
      rcases hi with rfl | rfl
      · have hr' : .consoleRead ∈ m'.held c := by
          rw [hheld (fun _ => Instr.noConfusion) fun _ => Instr.noConfusion]
          exact hr
        have hf' : m'.consoleFifo = [] := by
          rw [(exec_untouched hexec).consoleFifo (fun _ => Instr.noConfusion) Instr.noConfusion, hf]
        rcases hcode with hstop | ⟨f, hx, g⟩
        · rw [hstop.next, hnext]
          exact .lock (Or.inl rfl) hk hr' hf'
        · rw [g.next]
          cases hx with
          | single hs => cases hs
          | acquire _ => exact .lock (Or.inr rfl) hk hr' hf'
      · simp only [exec] at hexec
        split at hexec <;> cases hexec
        rw [Machine.next_goto]
        exact .drop hk self_mem_held_take (mem_held_take hr) hf
  | drop hk hs hr hf =>
      have hpop : (m.cpu c).popIntDisable = some (m.cpu c).popLayer := by
        rw [Cpu.popIntDisable, h.intFlag_of_held hpanic hr]
        rfl
      simp only [exec, Machine.mem_held.mp hr, if_true, hpop] at hexec
      cases hexec
      rw [Machine.next_goto]
      refine .mark hk ?_ (Or.inl hf)
      show _ ∈ (m.setOwner .consoleRead none).held c
      rw [held_drop]
      exact Finset.mem_erase.mpr ⟨LockId.noConfusion, hs⟩
  | mark hk hs hatt =>
      cases hexec
      rw [Machine.next_goto]
      exact .calm (calm_cons rfl (calm_cons rfl hk))
  | isrLock hi hk hoff =>
      rcases hi with rfl | rfl
      · have hoff' : (m'.cpu c).intFlag = false := by
          simp only [exec] at hexec
          split at hexec <;> cases hexec <;> simp [Machine.fail]
        rcases hcode with hstop | ⟨f, hx, g⟩
        · rw [hstop.next, hnext]
          exact .isrLock (Or.inl rfl) hk hoff'
        · rw [g.next]
          cases hx with
          | single hs => cases hs
          | acquire _ => exact .isrLock (Or.inr rfl) hk hoff'
      · simp only [exec] at hexec
        split at hexec <;> cases hexec
        rw [Machine.next_goto]
        exact .isrRead hk self_mem_held_take
  | isrRead hk hr =>
      have hr' : .consoleRead ∈ m'.held c := by
        rw [hheld (fun _ => Instr.noConfusion) fun _ => Instr.noConfusion]
        exact hr
      rcases hcode with hstop | ⟨f, hx, g⟩
      · rw [hstop.next, hnext]
        exact .isrRead hk hr'
      · rw [g.next]
        cases hx
        exact .wakeLock (Or.inl rfl) hk hr'
  | wakeLock hi hk hr =>
      rcases hi with rfl | rfl
      · have hr' : .consoleRead ∈ m'.held c := by
          rw [hheld (fun _ => Instr.noConfusion) fun _ => Instr.noConfusion]
          exact hr
        rcases hcode with hstop | ⟨f, hx, g⟩
        · rw [hstop.next, hnext]
          exact .wakeLock (Or.inl rfl) hk hr'
        · rw [g.next]
          cases hx with
          | single hs => cases hs
          | acquire _ => exact .wakeLock (Or.inr rfl) hk hr'
      · simp only [exec] at hexec
        split at hexec <;> cases hexec
        rw [Machine.next_goto]
        exact .loop hk (mem_held_take hr) self_mem_held_take fun x hx => absurd hx (Nat.not_lt_zero x)
  | loop hk hr hs hpast =>
      rename_i j rest
      simp only [exec] at hexec
      split at hexec
      · cases hexec
        rw [Machine.next_goto]
        exact .calm (calm_cons rfl hk)
      · rename_i p hp
        split at hexec <;> cases hexec
        · rw [Machine.next_goto]
          refine .push hk hr hs fun x hx q hq => hpast x hx q ?_
          rw [← hq]
          exact (List.getElem?_eraseIdx_of_lt hx).symm
        · rename_i hchan
          rw [Machine.next_goto]
          refine .loop hk hr hs fun x hx q hq => ?_
          rcases Nat.lt_succ_iff_lt_or_eq.mp hx with hx | rfl
          · exact hpast x hx q hq
          · rw [show m.waitingQueue[x]? = some q from hq, Option.some.injEq] at hp
            rw [hp]
            exact hchan
  | push hk hr hs hpast =>
      cases hexec
      rw [Machine.next_goto]
      exact .loop hk hr hs hpast

theorem ConsoleOk.calm_of_switchOut (h : ConsoleOk m c (.switchOut :: k)) : Calm k := by
  cases h with
  | calm hk => exact hk.tail
  | lock hi => rcases hi with hi | hi <;> cases hi
  | isrLock hi => rcases hi with hi | hi <;> cases hi
  | wakeLock hi => rcases hi with hi | hi <;> cases hi

theorem expands_switchOut {f rest : Code} (hx : Expands i f) (e : f ++ k = .switchOut :: rest) :
    f = [] ∧ k = .switchOut :: rest := by
  cases hx with
  | single _ => exact ⟨rfl, e⟩
  | sleepEnter p chan lk =>
      rw [sleepBody] at e
      split at e <;> cases e
  | _ => cases e

/-- A process of CPU `c` that is at the switch with the console as its channel was
there before, or has just got there. -/
theorem exec_going (h : Inv m) (con : ConInv m) (hpanic : (m.cpu c).panicked = none)
    (hnext : m.next c = i :: k) (hexec : exec m c k i = some m') {p : ProcId} {rest : Code}
    (hrun' : (m'.cpu c).running = .proc p) (hF : (m'.proc p).chan = .consoleFifo)
    (hout : m'.next c = .switchOut :: rest) :
    (m.cpu c).running = .proc p ∧
      (i = .switchOut ∧ (m.proc p).chan = .consoleFifo ∨ i = .setSleeping p .consoleFifo) := by
  have htyped := (h.cpus c).typed
  rw [hnext] at htyped
  by_cases hsw : i = .switchOut
  · subst hsw
    rw [(exec_untouched hexec).chan (fun _ _ => Instr.noConfusion) (fun _ => Instr.noConfusion)] at hF
    rcases switchOut_cases h hnext hexec with ⟨hrun, _⟩ | ⟨q, _, _, hcpu, _⟩
    · rw [hrun] at hrun'
      exact ⟨hrun', Or.inl ⟨rfl, hF⟩⟩
    · rw [hcpu] at hrun'
      cases hrun'
  by_cases hd : ∃ q, i = .dispatch q
  · obtain ⟨q, rfl⟩ := hd
    obtain ⟨_, _, hkq, hno, hnext', _⟩ := dispatch_cases h hnext hexec
    rw [hnext'] at hout
    rcases (h.resume q hkq hno).entry with ⟨b, k', hk⟩ | ⟨k', hk⟩ <;> rw [hk] at hout <;> cases hout
  rcases exec_code h hpanic hnext hsw (fun q hq => hd ⟨q, hq⟩) hexec with hstop | ⟨f, hx, g⟩
  · rw [hstop.next, hnext] at hout
    cases hout
    exact absurd rfl hsw
  · rw [g.running] at hrun'
    refine ⟨hrun', Or.inr ?_⟩
    rw [g.next] at hout
    obtain ⟨rfl, hk⟩ := expands_switchOut hx hout
    by_cases hset : ∃ q x, i = .setSleeping q x
    · obtain ⟨q, x, rfl⟩ := hset
      have hqp : q = p := by
        have := htyped.1
        rw [hrun', ThreadId.proc.injEq] at this
        exact this.symm
      subst hqp
      cases hexec
      have : ((m.setProc q { state := .sleeping, chan := x }).proc q).chan = .consoleFifo := hF
      rw [Machine.setProc_proc_self] at this
      rw [show x = _ from this]
    · -- Any other instruction has kept the channel, so the process is further on already.
      exfalso
      by_cases hclear : ∃ q, i = .clearChan q
      · obtain ⟨q, rfl⟩ := hclear
        have hqp : q = p := by
          have := htyped.1
          rw [hrun', ThreadId.proc.injEq] at this
          exact this.symm
        subst hqp
        cases hexec
        have : ((m.setProc q { m.proc q with chan := .null }).proc q).chan = .consoleFifo := hF
        rw [Machine.setProc_proc_self] at this
        cases this
      · rw [(exec_untouched hexec).chan (fun q x hq => hset ⟨q, x, hq⟩)
          (fun q hq => hclear ⟨q, hq⟩)] at hF
        have hasleep := con.asleep p hF
        rw [← hrun', ← Machine.next, hnext, hk] at hasleep
        cases hasleep with
        | woken _ => exact hclear ⟨p, rfl⟩

/-- The channel of a process that CPU `c` does not run. -/
theorem exec_chan_other (h : Inv m) (hnext : m.next c = i :: k) (hexec : exec m c k i = some m')
    {p : ProcId} (hrun : (m.cpu c).running ≠ .proc p) : (m'.proc p).chan = (m.proc p).chan := by
  have htyped := (h.cpus c).typed
  rw [hnext] at htyped
  by_cases hset : ∃ q x, i = .setSleeping q x
  · obtain ⟨q, x, rfl⟩ := hset
    cases hexec
    exact congrArg Proc.chan (Machine.setProc_proc_ne fun e => hrun (by rw [e]; exact htyped.1))
  by_cases hclear : ∃ q, i = .clearChan q
  · obtain ⟨q, rfl⟩ := hclear
    cases hexec
    exact congrArg Proc.chan (Machine.setProc_proc_ne fun e => hrun (by rw [e]; exact htyped.1))
  exact (exec_untouched hexec).chan (fun q x hq => hset ⟨q, x, hq⟩) (fun q hq => hclear ⟨q, hq⟩) p

/-- A process at another place is not the one CPU `c` runs. -/
theorem Inv.not_running (h : Inv m) {x : Place} {p : ProcId} (hat : At m x p) (hx : x ≠ .cpu c) :
    (m.cpu c).running ≠ .proc p := fun hrun => hx (h.placed.unique p x _ hat (h.at_running hrun))

/-- A sleeper was one before, or has just set its channel. -/
theorem exec_sleeper (h : Inv m) (con : ConInv m) (hpanic : (m.cpu c).panicked = none)
    (hnext : m.next c = i :: k) (hexec : exec m c k i = some m') {p : ProcId}
    (hF : (m'.proc p).chan = .consoleFifo) (hs : Sleeper m' p) :
    ((m.proc p).chan = .consoleFifo ∧ Sleeper m p) ∨ i = .setSleeping p .consoleFifo := by
  have e := exec_elsewhere h hnext hexec
  have htyped := (h.cpus c).typed
  rw [hnext] at htyped
  have hold : (m.cpu c).running ≠ .proc p → Sleeper m p →
      ((m.proc p).chan = .consoleFifo ∧ Sleeper m p) ∨ i = .setSleeping p .consoleFifo :=
    fun hrun hsl => Or.inl ⟨by rw [← exec_chan_other h hnext hexec hrun]; exact hF, hsl⟩
  cases hs with
  | waiting hw =>
      have hwait : p ∈ m.waitingQueue →
          ((m.proc p).chan = .consoleFifo ∧ Sleeper m p) ∨ i = .setSleeping p .consoleFifo := fun hmem =>
        hold (h.not_running (x := .waiting) hmem Place.noConfusion) (.waiting hmem)
      by_cases hreq : i = .requeue
      · subst hreq
        have hk : k = [] := htyped.2.2
        subst hk
        have hback : ∀ q, (m.cpu c).proc = some q → p = q →
            ((m.proc p).chan = .consoleFifo ∧ Sleeper m p) ∨
              Instr.requeue = .setSleeping p .consoleFifo := by
          rintro q hq rfl
          refine hold ?_ (.back c hq hnext)
          rw [h.running_cpu htyped]
          exact ThreadId.noConfusion
        simp only [exec] at hexec
        split at hexec
        · cases hexec
          exact hwait hw
        · rename_i q hq
          split at hexec
          · cases hexec
            exact hwait hw
          · split at hexec <;> cases hexec
            · exact hwait hw
            · rcases List.mem_append.mp hw with hw | hw
              · exact hwait hw
              · exact hback q hq (List.mem_singleton.mp hw)
      by_cases hwake : ∃ x j, i = .wakeLoop x j
      · obtain ⟨x, j, rfl⟩ := hwake
        simp only [exec] at hexec
        split at hexec
        · cases hexec
          exact hwait hw
        · split at hexec <;> cases hexec
          · exact hwait (List.mem_of_mem_eraseIdx hw)
          · exact hwait hw
      rw [(exec_untouched hexec).waitingQueue hreq (fun x j hj => hwake ⟨x, j, hj⟩)] at hw
      exact hwait hw
  | back d hproc hback =>
      by_cases hd : d = c
      · subst hd
        by_cases hsw : i = .switchOut
        · subst hsw
          rw [(exec_untouched hexec).chan (fun _ _ => Instr.noConfusion)
            (fun _ => Instr.noConfusion)] at hF
          rcases switchOut_cases h hnext hexec with ⟨hrun, hcode, _⟩ | ⟨q, hrun, hq, _⟩
          · rw [Machine.next_eq hrun (by rw [hcode]), hnext] at hback
            cases hback
          · rw [hq, Option.some.injEq] at hproc
            subst hproc
            exact Or.inl ⟨hF, .going d k hrun hnext⟩
        by_cases hdp : ∃ q, i = .dispatch q
        · obtain ⟨q, rfl⟩ := hdp
          obtain ⟨_, _, hkq, hno, hnext', _⟩ := dispatch_cases h hnext hexec
          rw [hnext'] at hback
          rcases (h.resume q hkq hno).entry with ⟨b, k', hk⟩ | ⟨k', hk⟩ <;> rw [hk] at hback <;>
            cases hback
        rcases exec_code h hpanic hnext hsw (fun q hq => hdp ⟨q, hq⟩) hexec with hstop | ⟨f, hx, g⟩
        · rw [hstop.next, hnext] at hback
          cases hback
          obtain ⟨x, hx, _⟩ := hstop.panicked
          have hcpu : m'.cpu = m.cpu := by
            simp only [exec] at hexec
            repeat' split at hexec
            all_goals
              cases hexec
              rfl
          rw [hcpu, hpanic] at hx
          cases hx
        · rw [g.next] at hback
          exact absurd hback (expands_ne_requeue hx (h.still_tail hnext))
      · rw [e.cpu d hd] at hproc
        rw [e.frame.next h hd] at hback
        refine hold (h.not_running (x := .cpu d) ?_ fun hdc => hd (Place.cpu.inj hdc))
          (.back d hproc hback)
        exact (at_cpu_requeue hback).mpr hproc
  | going d rest hrun hout =>
      by_cases hd : d = c
      · subst hd
        obtain ⟨hrun', ⟨rfl, hF'⟩ | rfl⟩ := exec_going h con hpanic hnext hexec hrun hF hout
        · exact Or.inl ⟨hF', .going d k hrun' hnext⟩
        · exact Or.inr rfl
      · rw [e.cpu d hd] at hrun
        rw [e.frame.next h hd] at hout
        refine hold ?_ (.going d rest hrun hout)
        exact fun hc => h.running_ne hd (hrun.trans hc.symm)

/-- When the loop of the handler is through, no process is asleep on the console. -/
theorem loop_end_no_sleeper (h : Inv m) (con : ConInv m) {j : Nat}
    (hnext : m.next c = .wakeLoop .consoleFifo j :: k) (hend : m.waitingQueue[j]? = none)
    {p : ProcId} (hF : (m.proc p).chan = .consoleFifo) (hs : Sleeper m p) : False := by
  have hok := con.cpus c
  rw [hnext] at hok
  obtain ⟨_, _, _, _, hsched, hpast⟩ := hok.loop_inv
  have hc : m.owner .sched = some c := Machine.mem_held.mp hsched
  cases hs with
  | waiting hw =>
      obtain ⟨x, hx⟩ := List.mem_iff_getElem?.mp hw
      have hlt : x < m.waitingQueue.length := (List.getElem?_eq_some_iff.mp hx).1
      exact hpast x (Nat.lt_of_lt_of_le hlt (List.getElem?_eq_none_iff.mp hend)) p hx hF
  | back d hproc hback =>
      have htyped := (h.cpus d).typed
      rw [hback] at htyped
      have hd : d = c := owner_unique (by rw [htyped.2.1]; simp) hc
      rw [hd, hnext] at hback
      cases hback
  | going d rest hrun hout =>
      have hd : d = c := owner_unique (con.locked d p rest hrun hF hout) hc
      rw [hd, hnext] at hout
      cases hout

theorem exec_con (h : Inv m) (con : ConInv m) (hpanic : (m.cpu c).panicked = none)
    (hnext : m.next c = i :: k) (hexec : exec m c k i = some m') : ConInv m' := by
  have e := exec_elsewhere h hnext hexec
  have hok := con.cpus c
  have htyped := (h.cpus c).typed
  rw [hnext] at hok htyped
  refine con.of_elsewhere h e (exec_shared h con hpanic hnext hexec) ?_ ?_ ?_ ?_ ?_ ?_
  · intro p hrun hF
    rw [← exec_chan_other h hnext hexec hrun]
    exact hF
  · by_cases hsw : i = .switchOut
    · subst hsw
      rcases switchOut_cases h hnext hexec with ⟨hrun, hcode, _⟩ | ⟨q, _, _, _, _, hnext', _⟩
      · rw [Machine.next_eq hrun (by rw [hcode]), hnext]
        exact .calm (calm_cons rfl hok.calm_of_switchOut)
      · rw [hnext']
        exact .calm (calm_of_all rfl)
    by_cases hd : ∃ q, i = .dispatch q
    · obtain ⟨q, rfl⟩ := hd
      obtain ⟨_, _, hkq, hno, hnext', _⟩ := dispatch_cases h hnext hexec
      rw [hnext']
      exact .calm (con.out q hkq hno)
    exact exec_consoleOk h con hpanic hnext hsw (fun q hq => hd ⟨q, hq⟩) hexec
  · intro p hrun hne
    by_cases hsw : i = .switchOut
    · subst hsw
      rcases switchOut_cases h hnext hexec with ⟨hrun', _⟩ | ⟨q, hq, _, _, hcode, _⟩
      · exact absurd (by rw [hrun', hrun]) hne
      · rw [hrun, ThreadId.proc.injEq] at hq
        subst hq
        rw [hcode, Function.update_self]
        exact calm_cons rfl hok.calm_of_switchOut
    by_cases hd : ∃ q, i = .dispatch q
    · obtain ⟨q, rfl⟩ := hd
      rw [(dispatch_cases h hnext hexec).1] at hrun
      cases hrun
    rcases exec_code h hpanic hnext hsw (fun q hq => hd ⟨q, hq⟩) hexec with hstop | ⟨f, _, g⟩
    · exact absurd (by rw [hstop.running, hrun]) hne
    · exact absurd (by rw [g.running, hrun]) hne
  · intro p hrun hF
    by_cases hset : ∃ q x, i = .setSleeping q x
    · obtain ⟨q, x, rfl⟩ := hset
      have hqp : q = p := by
        have := htyped.1
        rw [hrun, ThreadId.proc.injEq] at this
        exact this.symm
      subst hqp
      cases hexec
      have hx : ((m.setProc q { state := .sleeping, chan := x }).proc q).chan = .consoleFifo := hF
      rw [Machine.setProc_proc_self] at hx
      rw [show x = _ from hx] at hok
      obtain ⟨rest, rfl, _⟩ := hok.mark_inv
      rw [← hrun]
      show Asleep q (Function.update m.code (m.cpu c).running _ (m.cpu c).running)
      rw [Function.update_self]
      exact .going rest
    by_cases hclear : ∃ q, i = .clearChan q
    · obtain ⟨q, rfl⟩ := hclear
      have hqp : q = p := by
        have := htyped.1
        rw [hrun, ThreadId.proc.injEq] at this
        exact this.symm
      subst hqp
      cases hexec
      have hx : ((m.setProc q { m.proc q with chan := .null }).proc q).chan = .consoleFifo := hF
      rw [Machine.setProc_proc_self] at hx
      cases hx
    rw [(exec_untouched hexec).chan (fun q x hq => hset ⟨q, x, hq⟩) (fun q hq => hclear ⟨q, hq⟩)] at hF
    have hasleep := con.asleep p hF
    rw [← hrun, ← Machine.next, hnext] at hasleep
    cases hasleep with
    | going rest =>
        rcases switchOut_cases h hnext hexec with ⟨_, hcode, _⟩ | ⟨q, hq, _, _, hcode, _⟩
        · rw [hcode, ← hrun, ← Machine.next, hnext]
          exact .going rest
        · rw [hrun, ThreadId.proc.injEq] at hq
          subst hq
          rw [hcode, Function.update_self]
          exact .out _ rest
    | out b rest =>
        cases hexec
        rw [← hrun]
        show Asleep p (Function.update m.code _ _ _)
        rw [Machine.setCpu_cpu_self, Function.update_self]
        exact .woken rest
    | woken rest => exact absurd ⟨p, rfl⟩ hclear
  · intro p rest hrun hF hout
    obtain ⟨hrun', ⟨rfl, hF'⟩ | rfl⟩ := exec_going h con hpanic hnext hexec hrun hF hout
    · rw [Machine.held_congr (m := m) fun l => by
        rw [(exec_untouched hexec).owner (fun _ => Instr.noConfusion) (fun _ => Instr.noConfusion)]]
      exact con.locked c p k hrun' hF' hnext
    · rw [Machine.held_congr (m := m) fun l => by
        rw [(exec_untouched hexec).owner (fun _ => Instr.noConfusion) (fun _ => Instr.noConfusion)]]
      exact hok.mark_inv.choose_spec.2.2.1
  · intro p hF hs
    have hold := exec_sleeper h con hpanic hnext hexec hF hs
    have hatt : Attended m := by
      rcases hold with ⟨hF', hs'⟩ | rfl
      · exact con.attended p hF' hs'
      · exact hok.mark_inv.choose_spec.2.2.2
    rcases exec_attended h con hpanic hnext hexec hatt with hatt' | ⟨j, rfl, hend⟩
    · exact hatt'
    · rcases hold with ⟨hF', hs'⟩ | he
      · exact (loop_end_no_sleeper h con hnext hend hF' hs').elim
      · cases he

/-! ## Calls and interrupts -/

/-- A CPU outside the console enters new code. -/
theorem ConInv.enter (con : ConInv m) (h : Inv m) (e : Elsewhere m c m')
    (hfifo : m'.consoleFifo = m.consoleFifo) (hwait : m'.waitingQueue = m.waitingQueue)
    (hchan : ∀ p, (m'.proc p).chan = .consoleFifo → (m.proc p).chan = .consoleFifo)
    (hrun : (m'.cpu c).running = (m.cpu c).running) (hisr : ¬InIsr m c)
    (hno : ∀ p, (m.cpu c).running = .proc p → (m.proc p).chan ≠ .consoleFifo)
    (hc : ConsoleOk m' c (m'.next c)) (hout : ∀ rest, m'.next c ≠ .switchOut :: rest)
    (hreq : m'.next c ≠ [.requeue]) : ConInv m' := by
  have hatt : Attended m → Attended m' := by
    rintro (hempty | ⟨d, hd⟩)
    · exact Or.inl (by rw [hfifo, hempty])
    · have hne : d ≠ c := fun hdc => hisr (by rw [← hdc]; exact hd)
      exact Or.inr ⟨d, (e.owner d hne _).mpr hd.1, by rw [e.frame.next h hne]; exact hd.2⟩
  refine con.of_elsewhere h e ⟨fun _ => hfifo, fun _ => hwait, fun p _ => hchan p, fun _ => hatt⟩
    (fun p _ => hchan p) hc ?_ ?_ ?_ ?_
  · intro p hp hne
    exact absurd (by rw [hrun, hp]) hne
  · intro p hp hF
    exact absurd (hchan p hF) (hno p hp)
  · intro p rest _ _ hk
    exact absurd hk (hout rest)
  · intro p hF hs
    refine hatt (con.attended p (hchan p hF) ?_)
    cases hs with
    | waiting hw => exact .waiting (by rw [← hwait]; exact hw)
    | back d hproc hback =>
        by_cases hd : d = c
        · rw [hd] at hback
          exact absurd hback hreq
        · rw [e.cpu d hd] at hproc
          rw [e.frame.next h hd] at hback
          exact .back d hproc hback
    | going d rest hp hk =>
        by_cases hd : d = c
        · rw [hd] at hk
          exact absurd hk (hout rest)
        · rw [e.cpu d hd] at hp
          rw [e.frame.next h hd] at hk
          exact .going d rest hp hk

theorem call_con (h : Inv m) (con : ConInv m) (hnext : m.next c = []) {a : Call}
    (hlegal : Legal m c (.call a)) : ConInv (call m c a) := by
  have e := call_elsewhere h hlegal
  have hisr : ¬InIsr m c := fun hin => by
    have := hin.2
    rw [hnext] at this
    cases this
  have hno : ∀ p, (m.cpu c).running = .proc p → (m.proc p).chan ≠ .consoleFifo := by
    intro p hp hF
    have := con.asleep p hF
    rw [← hp, ← Machine.next, hnext] at this
    cases this
  -- The call enters the code `f`, or stays in the client.
  have hgo : ∀ f : Code, Calm f → (∀ rest, f ≠ .switchOut :: rest) → f ≠ [.requeue] →
      (call m c a).next c = f → (call m c a).consoleFifo = m.consoleFifo →
      (call m c a).waitingQueue = m.waitingQueue →
      (∀ p, ((call m c a).proc p).chan = .consoleFifo → (m.proc p).chan = .consoleFifo) →
      ((call m c a).cpu c).running = (m.cpu c).running → ConInv (call m c a) := by
    intro f hf hout hreq hk hfifo hwait hchan hrun
    refine con.enter h e hfifo hwait hchan hrun hisr hno ?_ ?_ ?_ <;> rw [hk]
    · exact .calm hf
    · exact hout
    · exact hreq
  cases a with
  | curproc =>
      refine hgo [] (calm_of_all rfl) (fun _ => (List.cons_ne_nil _ _).symm)
        (List.cons_ne_nil _ _).symm ?_ rfl rfl
        (fun _ => id) (by simp [call])
      rw [← hnext]
      exact Machine.next_eq (by simp [call]) rfl
  | setInterrupt on =>
      refine hgo [] (calm_of_all rfl) (fun _ => (List.cons_ne_nil _ _).symm)
        (List.cons_ne_nil _ _).symm ?_ rfl rfl
        (fun _ => id) (by simp [call])
      rw [← hnext]
      exact Machine.next_eq (by simp [call]) rfl
  | schedCreateKproc p =>
      refine hgo [] (calm_of_all rfl) (fun _ => (List.cons_ne_nil _ _).symm)
        (List.cons_ne_nil _ _).symm ?_ rfl rfl
        (fun q hF => ?_) rfl
      · rw [← hnext]
        refine Machine.next_eq rfl (Function.update_of_ne (fun hrun => ?_) ..)
        exact absurd (h.known_running hrun) (not_not.mpr hlegal.2)
      · have hF' : ((m.setProc p { state := .runnable, chan := .null }).proc q).chan =
            .consoleFifo := hF
        by_cases hq : q = p
        · rw [hq, Machine.setProc_proc_self] at hF'
          cases hF'
        · rwa [Machine.setProc_proc_ne hq] at hF'
  | syscall s =>
      refine hgo (handleSyscall s ++ [Instr.iret (m.cpu c).intFlag]) ?_ ?_ ?_ Machine.next_goto rfl rfl
        (fun _ => id) rfl
      · cases s <;> exact calm_of_all rfl
      · intro rest hr
        cases s <;> cases hr
      · intro hr
        cases s <;> cases hr
  | _ =>
      refine hgo _ (calm_of_all rfl) (fun rest hr => ?_) (fun hr => ?_) Machine.next_goto rfl rfl
        (fun _ => id) rfl
      · cases hr
      · cases hr

theorem irq_con (h : Inv m) (con : ConInv m) (hpanic : (m.cpu c).panicked = none)
    (hflag : (m.cpu c).intFlag = true) (q : Irq)
    (hm' : m' = (m.setCpu c { m.cpu c with intFlag := false }).goto c
      (handleInterrupt m.uartEnable q ++ .iret true :: m.next c)) : ConInv m' := by
  have hheld := (h.held_of_intFlag hpanic hflag).2.1
  have hnot : ∀ l, l ∉ m.held c := fun l => by
    rw [hheld]
    exact Finset.notMem_empty l
  have e : Elsewhere m c m' := by
    rw [hm']
    exact (Elsewhere.refl.setCpu _).goto h (by simp) _
  have hnext' : m'.next c = handleInterrupt m.uartEnable q ++ .iret true :: m.next c := by
    rw [hm']
    exact Machine.next_goto
  have hcpu : m'.cpu c = { m.cpu c with intFlag := false } := by
    rw [hm']
    exact Machine.setCpu_cpu_self
  -- The interrupted code holds no lock, so it is at no point of the console.
  have hcalm : Calm (m.next c) := by
    have hok := con.cpus c
    generalize m.next c = code at hok ⊢
    cases hok with
    | calm hk => exact hk
    | enter _ hr _ => exact absurd hr (hnot _)
    | lock _ _ hr _ => exact absurd hr (hnot _)
    | drop _ hs _ _ => exact absurd hs (hnot _)
    | mark _ hs _ => exact absurd hs (hnot _)
    | isrLock _ _ hoff =>
        rw [hoff] at hflag
        cases hflag
    | isrRead _ hr => exact absurd hr (hnot _)
    | wakeLock _ _ hr => exact absurd hr (hnot _)
    | loop _ hr _ _ => exact absurd hr (hnot _)
    | push _ hr _ _ => exact absurd hr (hnot _)
  have hrest : Calm (.iret true :: m.next c) := calm_cons rfl hcalm
  refine con.enter h e (by rw [hm']; rfl) (by rw [hm']; rfl) (fun p => by rw [hm']; exact id)
    (by rw [hcpu]) (fun hin => hnot _ (Machine.mem_held.mpr hin.1)) ?_ ?_ ?_ ?_
  · intro p hp hF
    have htyped := (h.cpus c).typed
    have hasleep := con.asleep p hF
    rw [← hp, ← Machine.next] at hasleep
    generalize hk : m.next c = code at hasleep htyped
    rw [hheld] at htyped
    cases hasleep with
    | going rest => exact hnot _ (con.locked c p _ hp hF hk)
    | out b rest => exact absurd htyped.1 (by simp)
    | woken rest => exact absurd htyped.2.1 (Finset.notMem_empty _)
  · rw [hnext']
    cases q with
    | spurious => exact .calm (calm_cons rfl hrest)
    | timer => exact .calm (calm_cons rfl (calm_cons rfl hrest))
    | com1 bytes =>
        cases hu : m.uartEnable with
        | false => exact .calm (calm_cons rfl hrest)
        | true =>
            refine .isrLock (Or.inl rfl) (calm_cons rfl (calm_cons rfl hrest)) ?_
            rw [hcpu]
  · intro rest hr
    rw [hnext'] at hr
    cases q with
    | spurious => cases hr
    | timer => cases hr
    | com1 bytes => cases hu : m.uartEnable <;> rw [hu] at hr <;> cases hr
  · intro hr
    rw [hnext'] at hr
    cases q with
    | spurious => cases hr
    | timer => cases hr
    | com1 bytes => cases hu : m.uartEnable <;> rw [hu] at hr <;> cases hr

/-! ## Runs -/

theorem boot_con (uartEnable : Bool) : ConInv (Machine.boot uartEnable) := by
  refine ⟨fun _ => .calm (calm_of_all rfl), fun _ _ _ => calm_of_all rfl, ?_, ?_, ?_, ?_⟩
  · intro p hF
    cases hF
  · intro c p k hrun
    cases hrun
  · intro p hF
    cases hF
  · intro p _ hF
    cases hF

theorem step_con (h : Inv m) (con : ConInv m) {e : Event} (hlegal : Legal m c e)
    (hstep : step m c e = some m') : ConInv m' := by
  obtain ⟨hpanic, ⟨i, k, _, hnext, hexec⟩ | ⟨a, rfl, hnext, _, rfl⟩ | ⟨q, _, hflag, hm'⟩⟩ :=
    step_cases hstep
  · exact exec_con h con hpanic hnext hexec
  · exact call_con h con hnext hlegal
  · exact irq_con h con hpanic hflag q hm'

theorem Reachable.con (h : Reachable m) : ConInv m := by
  induction h with
  | boot uartEnable => exact boot_con uartEnable
  | step hm hlegal hstep ih => exact step_con hm.inv ih hlegal hstep

/-- No reachable state has bytes in `console_fifo`, a process in the waiting queue that
sleeps on it, and no CPU inside `console_isr_handler` with its wakeup still to
finish. -/
theorem run_no_lost_wakeup (h : Reachable m) :
    ¬(m.consoleFifo ≠ [] ∧
      (∃ p ∈ m.waitingQueue, (m.proc p).chan = .consoleFifo) ∧ ∀ c, ¬InIsr m c) := by
  rintro ⟨hfifo, ⟨p, hp, hF⟩, hno⟩
  rcases h.con.attended p hF (.waiting hp) with hempty | ⟨c, hc⟩
  · exact hfifo hempty
  · exact hno c hc

end

/-- A process sleeps on the console, and another CPU receives a byte. -/
theorem reachable_received : ∃ m, Reachable m ∧ m.consoleFifo ≠ [] ∧
    ∃ p ∈ m.waitingQueue, (m.proc p).chan = .consoleFifo := by
  have h0 := Reachable.boot true
  have h1 := h0.step (c := 0) (e := .call (.schedCreateKproc (.user 0))) ⟨⟨0, rfl⟩, rfl⟩ rfl
  have h2 := h1.step (c := 0) (e := .call (.schedAdd (.user 0)))
    ⟨⟨0, rfl⟩, by exact ProcState.noConfusion, List.not_mem_nil⟩ rfl
  have h3 := h2.step (c := 0) (e := .exec) trivial rfl
  have h4 := h3.step (c := 0) (e := .exec) trivial rfl
  have h5 := h4.step (c := 0) (e := .exec) trivial rfl
  have h6 := h5.step (c := 0) (e := .exec) trivial rfl
  have h7 := h6.step (c := 0) (e := .exec) trivial rfl
  have h8 := h7.step (c := 0) (e := .call .schedStart)
    ⟨rfl, h7.inv.held_eq_empty rfl rfl⟩ rfl
  have h9 := h8.step (c := 0) (e := .exec) trivial rfl
  have h10 := h9.step (c := 0) (e := .exec) trivial rfl
  have h11 := h10.step (c := 0) (e := .exec) trivial rfl
  have h12 := h11.step (c := 0) (e := .exec) trivial rfl
  have h13 := h12.step (c := 0) (e := .exec) trivial rfl
  have h14 := h13.step (c := 0) (e := .exec) trivial rfl
  have h15 := h14.step (c := 0) (e := .exec) trivial rfl
  have h16 := h15.step (c := 0) (e := .exec) trivial rfl
  -- The process is in `console_getc`.
  have h17 := h16.step (c := 0) (e := .call .consoleGetc) trivial rfl
  have h18 := h17.step (c := 0) (e := .exec) trivial rfl
  have h19 := h18.step (c := 0) (e := .exec) trivial rfl
  have h20 := h19.step (c := 0) (e := .exec) trivial rfl
  have h21 := h20.step (c := 0) (e := .exec) trivial rfl
  have h22 := h21.step (c := 0) (e := .exec) trivial rfl
  have h23 := h22.step (c := 0) (e := .exec) trivial rfl
  have h24 := h23.step (c := 0) (e := .exec) trivial rfl
  have h25 := h24.step (c := 0) (e := .exec) trivial rfl
  have h26 := h25.step (c := 0) (e := .exec) trivial rfl
  have h27 := h26.step (c := 0) (e := .exec) trivial rfl
  -- The other CPU takes the interrupt of the console.
  have h28 := h27.step (c := 1) (e := .call (.setInterrupt true))
    (h27.inv.held_eq_empty rfl rfl) rfl
  have h29 := h28.step (c := 1) (e := .irq (.com1 [65])) trivial rfl
  have h30 := h29.step (c := 1) (e := .exec) trivial rfl
  have h31 := h30.step (c := 1) (e := .exec) trivial rfl
  have h32 := h31.step (c := 1) (e := .exec) trivial rfl
  exact ⟨_, h32, List.cons_ne_nil _ _, .user 0, List.mem_cons_self, rfl⟩

theorem run_no_lost_wakeup_received : ∃ m, Reachable m ∧ m.consoleFifo ≠ [] ∧
    (∃ p ∈ m.waitingQueue, (m.proc p).chan = .consoleFifo) ∧ ∃ c, InIsr m c := by
  obtain ⟨m, h, hfifo, hp⟩ := reachable_received
  refine ⟨m, h, hfifo, hp, ?_⟩
  by_contra hno
  exact run_no_lost_wakeup h ⟨hfifo, hp, not_exists.mp hno⟩

end Sched
end GuideOS
