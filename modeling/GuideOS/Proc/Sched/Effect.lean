import GuideOS.Proc.Sched.Run

/-!
# What a step can do

`Elsewhere` is what a step of one CPU leaves alone, and `Expands` what becomes of
the instruction it runs.  The invariants of the interrupt state and of the console
are proved from these.
-/

namespace GuideOS
namespace Sched

section

variable {m m' n : Machine} {c : Nat} {k : Code}

/-! ## Marking a process runnable changes nothing but the process -/

namespace Machine

@[simp] theorem markRunnable_cpu (p : ProcId) : (m.markRunnable p).cpu = m.cpu := by
  rw [markRunnable]
  split <;> rfl

@[simp] theorem markRunnable_owner (p : ProcId) : (m.markRunnable p).owner = m.owner := by
  rw [markRunnable]
  split <;> rfl

@[simp] theorem markRunnable_flag (p : ProcId) : (m.markRunnable p).flag = m.flag := by
  rw [markRunnable]
  split <;> rfl

@[simp] theorem markRunnable_waitingQueue (p : ProcId) :
    (m.markRunnable p).waitingQueue = m.waitingQueue := by
  rw [markRunnable]
  split <;> rfl

@[simp] theorem markRunnable_added (p : ProcId) : (m.markRunnable p).added = m.added := by
  rw [markRunnable]
  split <;> rfl

@[simp] theorem markRunnable_readyQueue (p : ProcId) :
    (m.markRunnable p).readyQueue = m.readyQueue := by
  rw [markRunnable]
  split <;> rfl

@[simp] theorem markRunnable_consoleFifo (p : ProcId) :
    (m.markRunnable p).consoleFifo = m.consoleFifo := by
  rw [markRunnable]
  split <;> rfl

end Machine

/-! ## The other CPUs, threads and processes -/

/-- A step of CPU `c` leaves the other CPUs and threads, and the processes that are
not at `c`. -/
structure Elsewhere (m : Machine) (c : Nat) (m' : Machine) : Prop where
  cpu : ∀ c' ≠ c, m'.cpu c' = m.cpu c'
  owner : ∀ c' ≠ c, ∀ l, m'.owner l = some c' ↔ m.owner l = some c'
  code : ∀ t, t ≠ (m.cpu c).running → (∀ p, t = .proc p → Known m p) → m'.code t = m.code t
  flag : ∀ t, t ≠ (m.cpu c).running → m'.flag t = m.flag t
  proc : ∀ p, Known m p → ¬At m (.cpu c) p → m'.proc p = m.proc p
  known : ∀ p, Known m p → Known m' p
  new : ∀ p, ¬Known m p → Known m' p → m'.code (.proc p) = procKentry

namespace Elsewhere

theorem refl : Elsewhere m c m :=
  ⟨fun _ _ => rfl, fun _ _ _ => Iff.rfl, fun _ _ _ => rfl, fun _ _ => rfl, fun _ _ _ => rfl,
    fun _ => id, fun _ h h' => absurd h' h⟩

theorem frame (e : Elsewhere m c m') : Frame m c m' :=
  ⟨e.cpu, e.owner, fun t ht hp => e.code t ht fun p hpt => (hp p hpt).1⟩

/-- Queues, console buffer and history are shared. -/
theorem shared (e : Elsewhere m c n) (hcpu : m'.cpu = n.cpu) (howner : m'.owner = n.owner)
    (hcode : m'.code = n.code) (hflag : m'.flag = n.flag) (hproc : m'.proc = n.proc) :
    Elsewhere m c m' where
  cpu := by
    rw [hcpu]
    exact e.cpu
  owner := by
    rw [howner]
    exact e.owner
  code := by
    rw [hcode]
    exact e.code
  flag := by
    rw [hflag]
    exact e.flag
  proc := by
    rw [hproc]
    exact e.proc
  known := by
    simp only [Known, hproc]
    exact e.known
  new := by
    simp only [Known, hproc, hcode]
    exact e.new

theorem setCpu (e : Elsewhere m c n) (x : Cpu) : Elsewhere m c (n.setCpu c x) :=
  { e with cpu := fun c' hne => (Machine.setCpu_cpu_ne hne).trans (e.cpu c' hne) }

theorem fail (e : Elsewhere m c n) (x : Panic) : Elsewhere m c (n.fail c x) := e.setCpu _

theorem callCurproc (e : Elsewhere m c n) : Elsewhere m c (n.callCurproc c) := e.setCpu _

theorem setCode (e : Elsewhere m c n) (h : Inv m) (k : Code) :
    Elsewhere m c { n with code := Function.update n.code (m.cpu c).running k } where
  cpu := e.cpu
  owner := e.owner
  code t ht hp := (Function.update_of_ne ht ..).trans (e.code t ht hp)
  flag := e.flag
  proc := e.proc
  known := e.known
  new p hp hp' := by
    have hne : .proc p ≠ (m.cpu c).running := fun hrun => hp (h.known_running hrun.symm)
    show Function.update n.code (m.cpu c).running k (.proc p) = procKentry
    rw [Function.update_of_ne hne]
    exact e.new p hp hp'

theorem goto (e : Elsewhere m c n) (h : Inv m) (hrun : (n.cpu c).running = (m.cpu c).running)
    (k : Code) : Elsewhere m c (n.goto c k) := by
  rw [Machine.goto, hrun]
  exact e.setCode h k

theorem setFlag (e : Elsewhere m c n) (f : Option Bool) :
    Elsewhere m c { n with flag := Function.update n.flag (m.cpu c).running f } :=
  { e with flag := fun t ht => (Function.update_of_ne ht ..).trans (e.flag t ht) }

theorem setProc (e : Elsewhere m c n) (h : Inv m) {p : ProcId} (hp : At m (.cpu c) p) {x : Proc}
    (hx : x.state ≠ .unused) : Elsewhere m c (n.setProc p x) where
  cpu := e.cpu
  owner := e.owner
  code := e.code
  flag := e.flag
  proc q hq hat := by
    rw [Machine.setProc_proc_ne fun hqp => hat (by rw [hqp]; exact hp)]
    exact e.proc q hq hat
  known q hq := by
    rw [Known]
    by_cases hqp : q = p
    · rw [hqp, Machine.setProc_proc_self]
      exact hx
    · rw [Machine.setProc_proc_ne hqp]
      exact e.known q hq
  new q hq hq' := by
    have hqp : q ≠ p := fun hqp => hq (by rw [hqp]; exact h.placed.known p _ hp)
    rw [Known, Machine.setProc_proc_ne hqp] at hq'
    exact e.new q hq hq'

theorem markRunnable (e : Elsewhere m c n) (h : Inv m) {p : ProcId} (hp : At m (.cpu c) p) :
    Elsewhere m c (n.markRunnable p) := by
  rw [Machine.markRunnable]
  split
  · exact e.setProc h hp ProcState.noConfusion
  · exact e

theorem setOwner (e : Elsewhere m c n) {l : LockId} {o : Option Nat}
    (hold : n.owner l = none ∨ n.owner l = some c) (hnew : o = none ∨ o = some c) :
    Elsewhere m c (n.setOwner l o) :=
  { e with owner := fun c' hne l' => (frame_owner hold hnew hne l').trans (e.owner c' hne l') }

/-- A process that does not exist yet is made. -/
theorem make (e : Elsewhere m c n) {p : ProcId} (hp : ¬Known m p) (x : Proc) :
    Elsewhere m c { n.setProc p x with code := Function.update n.code (.proc p) procKentry } where
  cpu := e.cpu
  owner := e.owner
  code t ht hk := by
    rw [← e.code t ht hk]
    exact Function.update_of_ne (fun htp => hp (hk p htp)) ..
  flag := e.flag
  proc q hq hat := by
    rw [← e.proc q hq hat]
    exact Machine.setProc_proc_ne fun hqp => hp (by rwa [hqp] at hq)
  known q hq := by
    have hqp : q ≠ p := fun hqp => hp (by rwa [hqp] at hq)
    show ((n.setProc p x).proc q).state ≠ .unused
    rw [Machine.setProc_proc_ne hqp]
    exact e.known q hq
  new q hq hq' := by
    by_cases hqp : q = p
    · rw [hqp]
      exact Function.update_self ..
    · have hq'' : ((n.setProc p x).proc q).state ≠ .unused := hq'
      rw [Machine.setProc_proc_ne hqp] at hq''
      rw [← e.new q hq hq'']
      exact Function.update_of_ne (fun h => hqp (ThreadId.proc.inj h)) ..

end Elsewhere

theorem Inv.not_known_idle (h : Inv m) (hrun : (m.cpu c).running = .cpu c)
    (hsched : ¬InSched (m.next c)) : ¬Known m (.idle c) := by
  rw [← h.idle c, ← hrun]
  exact hsched

theorem at_of_proc {i : Instr} (hnext : m.next c = i :: k) (hi : i.ordinary = true)
    {p : ProcId} (hproc : (m.cpu c).proc = some p) : At m (.cpu c) p :=
  (at_cpu_of_settled (plain_of_ordinary hnext hi).settled).mpr hproc

theorem exec_elsewhere (h : Inv m) {i : Instr} (hnext : m.next c = i :: k)
    (hexec : exec m c k i = some m') : Elsewhere m c m' := by
  have htyped := (h.cpus c).typed
  have hcall : Elsewhere m c (m.callCurproc c) := Elsewhere.refl.callCurproc
  have hrun : ((m.callCurproc c).cpu c).running = (m.cpu c).running := by simp [Machine.callCurproc]
  have hproc : ((m.callCurproc c).cpu c).proc = (m.cpu c).proc := by simp [Machine.callCurproc]
  have hmark : ∀ {p : ProcId}, At m (.cpu c) p → ∀ k,
      Elsewhere m c (((m.callCurproc c).markRunnable p).goto c k) := fun hat k =>
    (hcall.markRunnable h hat).goto h (by rw [Machine.markRunnable_cpu, hrun]) k
  rw [hnext] at htyped
  cases i with
  | acquire l =>
      simp only [exec] at hexec
      have hpush : Elsewhere m c { m.setCpu c (m.cpu c).pushIntDisable with
          flag := if (m.cpu c).intDisableLayer = 0
            then Function.update m.flag (m.cpu c).running (some (m.cpu c).intFlag) else m.flag } := by
        split
        · exact (Elsewhere.refl.setCpu _).setFlag _
        · exact Elsewhere.refl.setCpu _
      split at hexec <;> cases hexec
      · exact hpush.fail _
      · exact hpush.goto h (by simp) _
  | spin l =>
      simp only [exec] at hexec
      split at hexec
      · rename_i hown
        cases hexec
        exact (Elsewhere.refl.setOwner (Or.inl hown) (Or.inr rfl)).goto h rfl _
      · cases hexec
  | release l =>
      simp only [exec] at hexec
      split at hexec
      · rename_i hown
        have hdrop := (Elsewhere.refl (m := m) (c := c)).setOwner (Or.inr hown) (Or.inl rfl)
        split at hexec <;> cases hexec
        · exact hdrop.fail _
        · rename_i x hx
          have hrun' : x.running = (m.cpu c).running := by
            rw [Cpu.popIntDisable] at hx
            split at hx <;> cases hx
            rfl
          refine Elsewhere.goto ?_ h (by simp [hrun']) _
          split
          · rw [hrun']
            exact (hdrop.setCpu x).setFlag none
          · exact hdrop.setCpu x
      · cases hexec
        exact Elsewhere.refl.fail _
  | addCheck p =>
      simp only [exec] at hexec
      split at hexec <;> cases hexec
      · exact Elsewhere.refl.goto h rfl _
      · exact Elsewhere.refl.fail _
  | addReady p =>
      cases hexec
      apply Elsewhere.goto (h := h)
      · exact Elsewhere.refl.shared rfl rfl rfl rfl rfl
      · rfl
  | startCpu =>
      obtain ⟨⟨c', hc'⟩, _, hk⟩ := htyped
      have hcpu : (m.cpu c).running = .cpu c := by
        rcases (h.cpus c).thread.running_eq with hr | ⟨p, hr, _⟩
        · exact hr
        · rw [hc'] at hr
          cases hr
      have hidle : ¬Known m (.idle c) := by
        refine h.not_known_idle hcpu ?_
        rw [hnext]
        exact fun hin => hin.1 List.mem_cons_self
      simp only [exec] at hexec
      split at hexec <;> cases hexec
      · exact Elsewhere.refl.fail _
      have hmake := ((Elsewhere.refl (m := m) (c := c)).setCpu
        { m.cpu c with proc := none, intFlag := true }).make hidle
        { m.proc (.idle c) with state := .runnable }
      exact hmake.goto h (by simp [Machine.setProc]) _
  | pick =>
      simp only [exec] at hexec
      split at hexec <;> cases hexec
      · apply Elsewhere.goto (h := h)
        · exact Elsewhere.refl.shared rfl rfl rfl rfl rfl
        · rfl
      · exact Elsewhere.refl.goto h rfl _
  | dispatch p =>
      cases hexec
      have hat : At m (.cpu c) p := Or.inr (Or.inl (by rw [hnext]; rfl))
      exact ((Elsewhere.refl.goto h rfl _).setProc h hat ProcState.noConfusion).setCpu _
  | requeue =>
      simp only [exec] at hexec
      have hgo := (Elsewhere.refl (m := m) (c := c)).goto h rfl [.clearProc]
      split at hexec
      · cases hexec
        exact hgo
      · split at hexec
        · cases hexec
          exact hgo
        · split at hexec <;> cases hexec
          · exact hgo.shared rfl rfl rfl rfl rfl
          · exact hgo.shared rfl rfl rfl rfl rfl
  | clearProc =>
      cases hexec
      exact (Elsewhere.refl.setCpu _).goto h (by simp) _
  | yieldMark =>
      simp only [exec, hproc] at hexec
      cases hp : (m.cpu c).proc <;> rw [hp] at hexec <;> cases hexec
      · exact hcall.fail _
      · exact hmark (at_of_proc hnext rfl hp) _
  | switchOut =>
      simp only [exec, hproc] at hexec
      split at hexec
      · cases hexec
        exact hcall.fail _
      split at hexec
      · cases hexec
        exact hcall.fail _
      cases hp : (m.cpu c).proc with
      | none =>
          rw [hp] at hexec
          cases hexec
          exact hcall.fail _
      | some p =>
          rw [hp] at hexec
          dsimp only at hexec
          split at hexec <;> cases hexec
          · exact hcall.fail _
          · have hp' := (h.running_of_proc (plain_of_ordinary hnext rfl) hp).1
            refine Elsewhere.setCpu ?_ _
            rw [← hp']
            exact hcall.setCode h _
  | restoreInt b =>
      cases hexec
      exact (Elsewhere.refl.setCpu _).goto h (by simp) _
  | sleepEnter chan lk =>
      simp only [exec, hproc] at hexec
      cases hp : (m.cpu c).proc <;> rw [hp] at hexec <;> cases hexec
      · exact hcall.fail _
      · exact hcall.goto h hrun _
  | setSleeping p chan =>
      cases hexec
      exact (Elsewhere.refl.setProc h (h.at_running htyped.1) ProcState.noConfusion).goto h rfl _
  | clearChan p =>
      cases hexec
      refine Elsewhere.goto (Elsewhere.refl.setProc h (h.at_running htyped.1) ?_) h rfl _
      exact h.known_running htyped.1
  | wakeLoop chan j =>
      simp only [exec] at hexec
      split at hexec
      · cases hexec
        exact Elsewhere.refl.goto h rfl _
      · split at hexec <;> cases hexec
        · apply Elsewhere.goto (h := h)
          · exact Elsewhere.refl.shared rfl rfl rfl rfl rfl
          · rfl
        · exact Elsewhere.refl.goto h rfl _
  | pushReady p =>
      cases hexec
      apply Elsewhere.goto (h := h)
      · exact Elsewhere.refl.shared rfl rfl rfl rfl rfl
      · rfl
  | kentry =>
      simp only [exec, hproc] at hexec
      cases hp : (m.cpu c).proc <;> rw [hp] at hexec <;> cases hexec
      · exact hcall.fail _
      · exact hcall.goto h hrun _
  | tick =>
      simp only [exec, hproc] at hexec
      cases hp : (m.cpu c).proc <;> rw [hp] at hexec <;> cases hexec
      · exact hcall.goto h hrun _
      · exact hmark (at_of_proc hnext rfl hp) _
  | conRead =>
      simp only [exec, hproc] at hexec
      cases hp : (m.cpu c).proc <;> rw [hp] at hexec <;> cases hexec
      · exact hcall.fail _
      · exact hmark (at_of_proc hnext rfl hp) _
  | maybeYield =>
      simp only [exec, hproc] at hexec
      cases hp : (m.cpu c).proc with
      | none =>
          rw [hp] at hexec
          cases hexec
          exact hcall.goto h hrun _
      | some p =>
          rw [hp] at hexec
          dsimp only at hexec
          split at hexec <;> cases hexec
          · exact hcall.goto h hrun _
          · exact hcall.goto h hrun _
  | iret f =>
      cases hexec
      exact (Elsewhere.refl.setCpu _).goto h (by simp) _
  | isrRead bytes =>
      simp only [exec] at hexec
      split at hexec <;> cases hexec
      · apply Elsewhere.goto (h := h)
        · exact Elsewhere.refl.shared rfl rfl rfl rfl rfl
        · rfl
      · refine Elsewhere.fail ?_ _
        exact Elsewhere.refl.shared rfl rfl rfl rfl rfl
  | getcTry =>
      simp only [exec] at hexec
      split at hexec <;> cases hexec
      · exact Elsewhere.refl.goto h rfl _
      · apply Elsewhere.goto (h := h)
        · exact Elsewhere.refl.shared rfl rfl rfl rfl rfl
        · rfl
  | ret v =>
      cases hexec
      exact Elsewhere.refl.goto h rfl _

theorem call_elsewhere (h : Inv m) {a : Call} (hlegal : Legal m c (.call a)) :
    Elsewhere m c (call m c a) := by
  cases a with
  | curproc => exact Elsewhere.refl.callCurproc
  | setInterrupt on => exact Elsewhere.refl.setCpu _
  | schedCreateKproc p => exact Elsewhere.refl.make (not_not.mpr hlegal.2) _
  | schedAdd p =>
      apply Elsewhere.goto (h := h)
      · exact Elsewhere.refl.shared rfl rfl rfl rfl rfl
      · rfl
  | _ => exact Elsewhere.refl.goto h rfl _

theorem step_elsewhere (h : Inv m) {e : Event} (hlegal : Legal m c e)
    (hstep : step m c e = some m') : Elsewhere m c m' := by
  obtain ⟨_, ⟨i, k, _, hnext, hexec⟩ | ⟨a, rfl, _, _, rfl⟩ | ⟨i, _, _, rfl⟩⟩ := step_cases hstep
  · exact exec_elsewhere h hnext hexec
  · exact call_elsewhere h hlegal
  · exact (Elsewhere.refl.setCpu _).goto h (by simp) _

/-! ## The code that runs next -/

/-- Instructions that are over after one step. -/
def Instr.single : Instr → Bool
  | .acquire _ => false
  | .pick => false
  | .dispatch _ => false
  | .requeue => false
  | .clearProc => false
  | .switchOut => false
  | .sleepEnter _ _ => false
  | .getcTry => false
  | _ => true

/-- What stands in the place of an instruction that is no context switch, after it
has run. -/
inductive Expands : Instr → Code → Prop
  | single {i : Instr} (h : i.single = true) : Expands i []
  | acquire (l : LockId) : Expands (.acquire l) [.spin l]
  | pick (p : ProcId) : Expands .pick [.dispatch p]
  | requeue : Expands .requeue [.clearProc]
  | clearProc : Expands .clearProc [.pick]
  | sleepEnter (p : ProcId) (chan : Chan) (lk : LockId) :
      Expands (.sleepEnter chan lk) (sleepBody p chan lk)
  | wakeSkip (chan : Chan) (i : Nat) : Expands (.wakeLoop chan i) [.wakeLoop chan (i + 1)]
  | wakeTake (chan : Chan) (i : Nat) (p : ProcId) :
      Expands (.wakeLoop chan i) [.pushReady p, .wakeLoop chan i]
  | maybeYield : Expands .maybeYield schedYield
  | getcSleep : Expands .getcTry [.sleepEnter .consoleFifo .consoleRead, .getcTry]
  | getcRead (v : Nat) : Expands .getcTry [.release .consoleRead, .ret v]

/-- The CPU goes on with the code `f` on its thread, and has not panicked. -/
structure Goes (m : Machine) (c : Nat) (f : Code) (m' : Machine) : Prop where
  running : (m'.cpu c).running = (m.cpu c).running
  next : m'.next c = f
  panicked : (m'.cpu c).panicked = none

theorem goes_goto (hrun : (n.cpu c).running = (m.cpu c).running)
    (hpanic : (n.cpu c).panicked = none) (f : Code) : Goes m c f (n.goto c f) :=
  ⟨hrun, Machine.next_goto, hpanic⟩

theorem goes_soft (hpanic : (m.cpu c).panicked = none) (hcpu : n.cpu = m.cpu) (f : Code) :
    Goes m c f (n.goto c f) :=
  goes_goto (by rw [hcpu]) (by rw [hcpu, hpanic]) f

/-- The tests of `sched_switch_out`. -/
def Panic.ofSwitch : Panic → Bool
  | .switchOutLock => true
  | .switchOutLockCount => true
  | .switchingOutRunning => true
  | _ => false

/-- The CPU panics on its thread, and not in `sched_switch_out`. -/
structure Stops (m : Machine) (c : Nat) (m' : Machine) : Prop where
  running : (m'.cpu c).running = (m.cpu c).running
  code : m'.code = m.code
  panicked : ∃ x, (m'.cpu c).panicked = some x ∧ x.ofSwitch = false

theorem stops_fail (hrun : (n.cpu c).running = (m.cpu c).running) (hcode : n.code = m.code)
    {x : Panic} (hx : x.ofSwitch = false) : Stops m c (n.fail c x) :=
  ⟨by rw [← hrun]; simp [Machine.fail], hcode, x, by simp [Machine.fail], hx⟩

theorem Stops.next (s : Stops m c m') : m'.next c = m.next c :=
  Machine.next_eq s.running (by rw [s.code])

theorem exec_code (h : Inv m) (hpanic : (m.cpu c).panicked = none) {i : Instr}
    (hnext : m.next c = i :: k) (hswitch : i ≠ .switchOut) (hdispatch : ∀ p, i ≠ .dispatch p)
    (hexec : exec m c k i = some m') :
    Stops m c m' ∨ ∃ f, Expands i f ∧ Goes m c (f ++ k) m' := by
  have htyped := (h.cpus c).typed
  have hrun : ((m.callCurproc c).cpu c).running = (m.cpu c).running := by simp [Machine.callCurproc]
  have hproc : ((m.callCurproc c).cpu c).proc = (m.cpu c).proc := by simp [Machine.callCurproc]
  have hp' : ((m.callCurproc c).cpu c).panicked = none := by simp [Machine.callCurproc, hpanic]
  have hmark : ∀ p k, Goes m c k (((m.callCurproc c).markRunnable p).goto c k) := fun p k =>
    goes_goto (by rw [Machine.markRunnable_cpu, hrun]) (by rw [Machine.markRunnable_cpu, hp']) k
  rw [hnext] at htyped
  cases i with
  | switchOut => exact absurd rfl hswitch
  | dispatch p => exact absurd rfl (hdispatch p)
  | acquire l =>
      simp only [exec] at hexec
      split at hexec <;> cases hexec
      · exact Or.inl (stops_fail (by simp) (by rfl) rfl)
      · exact Or.inr ⟨_, .acquire l, goes_goto (by simp) (by simp [hpanic]) _⟩
  | spin l =>
      simp only [exec] at hexec
      split at hexec <;> cases hexec
      exact Or.inr ⟨_, .single rfl, goes_soft hpanic (by rfl) _⟩
  | release l =>
      simp only [exec] at hexec
      split at hexec
      · split at hexec <;> cases hexec
        · exact Or.inl (stops_fail (by rfl) (by rfl) rfl)
        · rename_i x hx
          rw [Cpu.popIntDisable] at hx
          split at hx <;> cases hx
          exact Or.inr ⟨_, .single rfl, goes_goto (by simp) (by simp [hpanic]) _⟩
      · cases hexec
        exact Or.inl (stops_fail (by rfl) (by rfl) rfl)
  | addCheck p =>
      simp only [exec] at hexec
      split at hexec <;> cases hexec
      · exact Or.inr ⟨_, .single rfl, goes_soft hpanic (by rfl) _⟩
      · exact Or.inl (stops_fail (by rfl) (by rfl) rfl)
  | startCpu =>
      simp only [exec] at hexec
      split at hexec <;> cases hexec
      · exact Or.inl (stops_fail (by rfl) (by rfl) rfl)
      · exact Or.inr ⟨_, .single rfl, goes_goto (by simp [Machine.setProc])
          (by simp [Machine.setProc, hpanic]) _⟩
  | pick =>
      have hk : k = [] := htyped.2.2
      subst hk
      simp only [exec] at hexec
      split at hexec <;> cases hexec
      · exact Or.inr ⟨_, .pick _, goes_soft hpanic (by rfl) _⟩
      · exact Or.inr ⟨_, .pick _, goes_soft hpanic (by rfl) _⟩
  | requeue =>
      have hk : k = [] := htyped.2.2
      subst hk
      have hgo : Goes m c [.clearProc] (m.goto c [.clearProc]) := goes_soft hpanic (by rfl) _
      have hgo' : ∀ rq wq, Goes m c [.clearProc]
          { m.goto c [.clearProc] with readyQueue := rq, waitingQueue := wq } :=
        fun rq wq => ⟨hgo.running, hgo.next, hgo.panicked⟩
      simp only [exec] at hexec
      refine Or.inr ⟨_, .requeue, ?_⟩
      split at hexec
      · cases hexec
        exact hgo
      · split at hexec
        · cases hexec
          exact hgo
        · split at hexec <;> cases hexec
          · exact hgo' _ _
          · exact hgo' _ _
  | clearProc =>
      have hk : k = [] := htyped.2.2
      subst hk
      cases hexec
      exact Or.inr ⟨_, .clearProc, goes_goto (by simp) (by simp [hpanic]) _⟩
  | yieldMark =>
      simp only [exec, hproc] at hexec
      cases hp : (m.cpu c).proc <;> rw [hp] at hexec <;> cases hexec
      · exact Or.inl (stops_fail hrun (by rfl) rfl)
      · exact Or.inr ⟨_, .single rfl, hmark _ _⟩
  | conRead =>
      simp only [exec, hproc] at hexec
      cases hp : (m.cpu c).proc <;> rw [hp] at hexec <;> cases hexec
      · exact Or.inl (stops_fail hrun (by rfl) rfl)
      · exact Or.inr ⟨_, .single rfl, hmark _ _⟩
  | tick =>
      simp only [exec, hproc] at hexec
      cases hp : (m.cpu c).proc <;> rw [hp] at hexec <;> cases hexec
      · exact Or.inr ⟨_, .single rfl, goes_goto hrun hp' _⟩
      · exact Or.inr ⟨_, .single rfl, hmark _ _⟩
  | kentry =>
      simp only [exec, hproc] at hexec
      cases hp : (m.cpu c).proc <;> rw [hp] at hexec <;> cases hexec
      · exact Or.inl (stops_fail hrun (by rfl) rfl)
      · exact Or.inr ⟨_, .single rfl, goes_goto hrun hp' _⟩
  | maybeYield =>
      simp only [exec, hproc] at hexec
      cases hp : (m.cpu c).proc with
      | none =>
          rw [hp] at hexec
          cases hexec
          exact Or.inr ⟨_, .single rfl, goes_goto hrun hp' _⟩
      | some p =>
          rw [hp] at hexec
          dsimp only at hexec
          split at hexec <;> cases hexec
          · exact Or.inr ⟨_, .single rfl, goes_goto hrun hp' _⟩
          · exact Or.inr ⟨_, .maybeYield, goes_goto hrun hp' _⟩
  | sleepEnter chan lk =>
      simp only [exec, hproc] at hexec
      cases hp : (m.cpu c).proc <;> rw [hp] at hexec <;> cases hexec
      · exact Or.inl (stops_fail hrun (by rfl) rfl)
      · exact Or.inr ⟨_, .sleepEnter _ chan lk, goes_goto hrun hp' _⟩
  | wakeLoop chan j =>
      simp only [exec] at hexec
      split at hexec
      · cases hexec
        exact Or.inr ⟨_, .single rfl, goes_soft hpanic (by rfl) _⟩
      · split at hexec <;> cases hexec
        · exact Or.inr ⟨_, .wakeTake chan j _, goes_soft hpanic (by rfl) _⟩
        · exact Or.inr ⟨_, .wakeSkip chan j, goes_soft hpanic (by rfl) _⟩
  | restoreInt b =>
      cases hexec
      exact Or.inr ⟨_, .single rfl, goes_goto (by simp) (by simp [hpanic]) _⟩
  | iret f =>
      cases hexec
      exact Or.inr ⟨_, .single rfl, goes_goto (by simp) (by simp [hpanic]) _⟩
  | isrRead bytes =>
      simp only [exec] at hexec
      split at hexec <;> cases hexec
      · exact Or.inr ⟨_, .single rfl, goes_soft hpanic (by rfl) _⟩
      · exact Or.inl (stops_fail (by rfl) (by rfl) rfl)
  | getcTry =>
      simp only [exec] at hexec
      split at hexec <;> cases hexec
      · exact Or.inr ⟨_, .getcSleep, goes_soft hpanic (by rfl) _⟩
      · exact Or.inr ⟨_, .getcRead _, goes_soft hpanic (by rfl) _⟩
  | _ =>
      cases hexec
      exact Or.inr ⟨_, .single rfl, goes_soft hpanic (by rfl) _⟩

/-- Where the instructions that are reached only as the next one come from. -/
theorem expands_headOnly {i j : Instr} {f : Code} (hx : Expands i f) (hk : Still k)
    (hj : (f ++ k).head? = some j) (hhead : j.headOnly = true) :
    (∃ l, i = .acquire l ∧ j = .spin l) ∨ (∃ p, i = .pick ∧ j = .dispatch p) ∨
      (i = .requeue ∧ j = .clearProc) ∨ ∃ chan n p, i = .wakeLoop chan n ∧ j = .pushReady p := by
  cases hx with
  | single _ =>
      cases k with
      | nil => cases hj
      | cons j' k =>
          obtain rfl : j' = j := Option.some.inj hj
          rw [hk j' List.mem_cons_self] at hhead
          cases hhead
  | acquire l => exact Or.inl ⟨l, rfl, (Option.some.inj hj).symm⟩
  | pick p => exact Or.inr (Or.inl ⟨p, rfl, (Option.some.inj hj).symm⟩)
  | requeue => exact Or.inr (Or.inr (Or.inl ⟨rfl, (Option.some.inj hj).symm⟩))
  | wakeTake chan n p =>
      exact Or.inr (Or.inr (Or.inr ⟨chan, n, p, rfl, (Option.some.inj hj).symm⟩))
  | sleepEnter p chan lk =>
      rw [sleepBody] at hj
      split at hj <;> (rw [← Option.some.inj hj] at hhead; cases hhead)
  | _ =>
      rw [← Option.some.inj hj] at hhead
      cases hhead

/-- Nothing but `sched_switch_out` leads back to the scheduler. -/
theorem expands_ne_requeue {i : Instr} {f : Code} (hx : Expands i f) (hk : Still k) :
    f ++ k ≠ [.requeue] := by
  intro e
  rcases expands_headOnly hx hk (by rw [e]; rfl) rfl with ⟨_, _, hj⟩ | ⟨_, _, hj⟩ | ⟨_, hj⟩ |
    ⟨_, _, _, _, hj⟩ <;> cases hj

/-! ## Locks and counter -/

@[simp] theorem Machine.callCurproc_cpu : (m.callCurproc c).cpu c = (m.cpu c).curproc :=
  setCpu_cpu_self

/-- What the counter of a CPU is about. -/
structure SameCounter (m : Machine) (c : Nat) (m' : Machine) : Prop where
  layer : (m'.cpu c).intDisableLayer = (m.cpu c).intDisableLayer
  enabled : (m.cpu c).intDisableLayer ≠ 0 → (m'.cpu c).intEnabled = (m.cpu c).intEnabled
  flag : m'.flag = m.flag

theorem exec_counter {i : Instr} (hacq : ∀ l, i ≠ .acquire l) (hrel : ∀ l, i ≠ .release l)
    (hint : ∀ b, i ≠ .restoreInt b) (hexec : exec m c k i = some m') : SameCounter m c m' := by
  cases i with
  | acquire l => exact absurd rfl (hacq l)
  | release l => exact absurd rfl (hrel l)
  | restoreInt b => exact absurd rfl (hint b)
  | _ =>
      simp only [exec] at hexec
      repeat' split at hexec
      all_goals try cases hexec
      all_goals
        refine ⟨?_, fun hlayer => ?_, ?_⟩
        · simp [Machine.fail, Machine.setProc, Machine.setOwner, Cpu.curproc_layer]
        · simp [Machine.fail, Machine.setProc, Machine.setOwner, Cpu.curproc_intEnabled hlayer]
        · first | rfl | exact Machine.markRunnable_flag _

/-! ## Console buffer, queues and channels -/

namespace Machine

theorem setState_chan (p : ProcId) (x : ProcState) (q : ProcId) :
    ((m.setProc p { m.proc p with state := x }).proc q).chan = (m.proc q).chan := by
  by_cases hq : q = p
  · rw [hq, setProc_proc_self]
  · rw [setProc_proc_ne hq]

theorem markRunnable_chan (p q : ProcId) : ((m.markRunnable p).proc q).chan = (m.proc q).chan := by
  rw [markRunnable]
  split
  · exact setState_chan p .runnable q
  · rfl

end Machine

/-- What a step shares with others is as before. -/
structure SameShared (m m' : Machine) : Prop where
  owner : m'.owner = m.owner
  consoleFifo : m'.consoleFifo = m.consoleFifo
  waitingQueue : m'.waitingQueue = m.waitingQueue
  readyQueue : m'.readyQueue = m.readyQueue
  added : m'.added = m.added
  chan : ∀ q, (m'.proc q).chan = (m.proc q).chan

theorem sameShared_mark (p : ProcId) (k : Code) :
    SameShared m (((m.callCurproc c).markRunnable p).goto c k) where
  owner := (m.callCurproc c).markRunnable_owner p
  consoleFifo := (m.callCurproc c).markRunnable_consoleFifo p
  waitingQueue := (m.callCurproc c).markRunnable_waitingQueue p
  readyQueue := (m.callCurproc c).markRunnable_readyQueue p
  added := (m.callCurproc c).markRunnable_added p
  chan := (m.callCurproc c).markRunnable_chan p

/-- Each shared part is changed by few instructions. -/
structure Untouched (m : Machine) (i : Instr) (m' : Machine) : Prop where
  owner : (∀ l, i ≠ .spin l) → (∀ l, i ≠ .release l) → m'.owner = m.owner
  consoleFifo : (∀ b, i ≠ .isrRead b) → i ≠ .getcTry → m'.consoleFifo = m.consoleFifo
  waitingQueue : i ≠ .requeue → (∀ x j, i ≠ .wakeLoop x j) → m'.waitingQueue = m.waitingQueue
  readyQueue : (∀ p, i ≠ .addReady p) → i ≠ .pick → i ≠ .requeue → (∀ p, i ≠ .pushReady p) →
    m'.readyQueue = m.readyQueue
  added : (∀ p, i ≠ .addReady p) → m'.added = m.added
  chan : (∀ p x, i ≠ .setSleeping p x) → (∀ p, i ≠ .clearChan p) →
    ∀ q, (m'.proc q).chan = (m.proc q).chan

theorem SameShared.untouched {i : Instr} (h : SameShared m m') : Untouched m i m' where
  owner _ _ := h.owner
  consoleFifo _ _ := h.consoleFifo
  waitingQueue _ _ := h.waitingQueue
  readyQueue _ _ _ _ := h.readyQueue
  added _ := h.added
  chan _ _ := h.chan

theorem exec_untouched {i : Instr} (hexec : exec m c k i = some m') : Untouched m i m' := by
  cases i with
  | spin l =>
      simp only [exec] at hexec
      split at hexec <;> cases hexec
      exact ⟨fun h _ => absurd rfl (h l), fun _ _ => rfl, fun _ _ => rfl, fun _ _ _ _ => rfl,
        fun _ => rfl, fun _ _ _ => rfl⟩
  | release l =>
      simp only [exec] at hexec
      repeat' split at hexec
      all_goals
        cases hexec
        exact ⟨fun _ h => absurd rfl (h l), fun _ _ => rfl, fun _ _ => rfl, fun _ _ _ _ => rfl,
          fun _ => rfl, fun _ _ _ => rfl⟩
  | addReady p =>
      cases hexec
      exact ⟨fun _ _ => rfl, fun _ _ => rfl, fun _ _ => rfl, fun h _ _ _ => absurd rfl (h p),
        fun h => absurd rfl (h p), fun _ _ _ => rfl⟩
  | startCpu =>
      simp only [exec] at hexec
      split at hexec <;> cases hexec
      · exact ⟨fun _ _ => rfl, fun _ _ => rfl, fun _ _ => rfl, fun _ _ _ _ => rfl, fun _ => rfl,
          fun _ _ _ => rfl⟩
      · exact ⟨fun _ _ => rfl, fun _ _ => rfl, fun _ _ => rfl, fun _ _ _ _ => rfl, fun _ => rfl,
          fun _ _ => Machine.setState_chan (m := m) (.idle c) .runnable⟩
  | pick =>
      simp only [exec] at hexec
      split at hexec <;> cases hexec
      all_goals
        exact ⟨fun _ _ => rfl, fun _ _ => rfl, fun _ _ => rfl, fun _ h _ _ => absurd rfl h,
          fun _ => rfl, fun _ _ _ => rfl⟩
  | dispatch p =>
      cases hexec
      exact ⟨fun _ _ => rfl, fun _ _ => rfl, fun _ _ => rfl, fun _ _ _ _ => rfl, fun _ => rfl,
        fun _ _ => Machine.setState_chan (m := m) p .running⟩
  | requeue =>
      simp only [exec] at hexec
      repeat' split at hexec
      all_goals
        cases hexec
        exact ⟨fun _ _ => rfl, fun _ _ => rfl, fun h _ => absurd rfl h, fun _ _ h _ => absurd rfl h,
          fun _ => rfl, fun _ _ _ => rfl⟩
  | setSleeping p x =>
      cases hexec
      exact ⟨fun _ _ => rfl, fun _ _ => rfl, fun _ _ => rfl, fun _ _ _ _ => rfl, fun _ => rfl,
        fun h _ => absurd rfl (h p x)⟩
  | clearChan p =>
      cases hexec
      exact ⟨fun _ _ => rfl, fun _ _ => rfl, fun _ _ => rfl, fun _ _ _ _ => rfl, fun _ => rfl,
        fun _ h => absurd rfl (h p)⟩
  | wakeLoop x j =>
      simp only [exec] at hexec
      repeat' split at hexec
      all_goals
        cases hexec
        exact ⟨fun _ _ => rfl, fun _ _ => rfl, fun _ h => absurd rfl (h x j), fun _ _ _ _ => rfl,
          fun _ => rfl, fun _ _ _ => rfl⟩
  | pushReady p =>
      cases hexec
      exact ⟨fun _ _ => rfl, fun _ _ => rfl, fun _ _ => rfl, fun _ _ _ h => absurd rfl (h p),
        fun _ => rfl, fun _ _ _ => rfl⟩
  | isrRead b =>
      simp only [exec] at hexec
      split at hexec <;> cases hexec
      all_goals
        exact ⟨fun _ _ => rfl, fun h _ => absurd rfl (h b), fun _ _ => rfl, fun _ _ _ _ => rfl,
          fun _ => rfl, fun _ _ _ => rfl⟩
  | getcTry =>
      simp only [exec] at hexec
      split at hexec <;> cases hexec
      all_goals
        exact ⟨fun _ _ => rfl, fun _ h => absurd rfl h, fun _ _ => rfl, fun _ _ _ _ => rfl,
          fun _ => rfl, fun _ _ _ => rfl⟩
  | _ =>
      refine SameShared.untouched ?_
      simp only [exec] at hexec
      repeat' split at hexec
      all_goals try cases hexec
      all_goals first
        | exact ⟨rfl, rfl, rfl, rfl, rfl, fun _ => rfl⟩
        | exact sameShared_mark _ _

/-! ## States and the current process -/

theorem Machine.markRunnable_state (p q : ProcId) :
    ((m.markRunnable p).proc q).state = (m.proc q).state ∨
      (m.proc q).state = .running ∧ ((m.markRunnable p).proc q).state = .runnable := by
  rw [markRunnable]
  split
  · rename_i hrun
    by_cases hq : q = p
    · rw [hq, setProc_proc_self]
      exact Or.inr ⟨hrun, rfl⟩
    · rw [setProc_proc_ne hq]
      exact Or.inl rfl
  · exact Or.inl rfl

theorem exec_state {i : Instr} (hset : ∀ p x, i ≠ .setSleeping p x) (hdispatch : ∀ p, i ≠ .dispatch p)
    (hstart : i ≠ .startCpu) (hexec : exec m c k i = some m') (q : ProcId) :
    (m'.proc q).state = (m.proc q).state ∨
      (m.proc q).state = .running ∧ (m'.proc q).state = .runnable := by
  cases i with
  | setSleeping p x => exact absurd rfl (hset p x)
  | dispatch p => exact absurd rfl (hdispatch p)
  | startCpu => exact absurd rfl hstart
  | clearChan p =>
      cases hexec
      refine Or.inl ?_
      show ((m.setProc p { m.proc p with chan := .null }).proc q).state = _
      by_cases hq : q = p
      · rw [hq, Machine.setProc_proc_self]
      · rw [Machine.setProc_proc_ne hq]
  | _ =>
      simp only [exec] at hexec
      repeat' split at hexec
      all_goals try cases hexec
      all_goals first
        | exact Or.inl rfl
        | exact Machine.markRunnable_state _ q

theorem exec_cpuProc {i : Instr} (hdispatch : ∀ p, i ≠ .dispatch p) (hclear : i ≠ .clearProc)
    (hstart : i ≠ .startCpu) (hexec : exec m c k i = some m') :
    (m'.cpu c).proc = (m.cpu c).proc := by
  cases i with
  | dispatch p => exact absurd rfl (hdispatch p)
  | clearProc => exact absurd rfl hclear
  | startCpu => exact absurd rfl hstart
  | release l =>
      simp only [exec] at hexec
      split at hexec
      · split at hexec <;> cases hexec
        · simp [Machine.fail, Machine.setOwner]
        · rename_i x hx
          rw [Cpu.popIntDisable] at hx
          split at hx <;> cases hx
          show (((m.setOwner l none).setCpu c (m.cpu c).popLayer).cpu c).proc = (m.cpu c).proc
          rw [Machine.setCpu_cpu_self]
          rfl
      · cases hexec
        simp [Machine.fail]
  | _ =>
      simp only [exec] at hexec
      repeat' split at hexec
      all_goals try cases hexec
      all_goals simp [Machine.fail, Machine.setProc, Machine.setOwner]

/-! ## Context switches -/

/-- `sched_switch_out` either panics, or leaves the process with the saved flag and
goes back to the scheduler. -/
theorem switchOut_cases (h : Inv m) (hnext : m.next c = .switchOut :: k)
    (hexec : exec m c k .switchOut = some m') :
    ((m'.cpu c).running = (m.cpu c).running ∧ m'.code = m.code ∧ (m'.cpu c).panicked ≠ none) ∨
      ∃ p, (m.cpu c).running = .proc p ∧ (m'.cpu c).proc = some p ∧ (m'.cpu c).running = .cpu c ∧
        m'.code = Function.update m.code (.proc p)
          (.restoreInt ((m.callCurproc c).cpu c).intEnabled :: k) ∧
        m'.next c = [.requeue] ∧ (m'.cpu c).panicked = (m.cpu c).panicked := by
  have hrun : ((m.callCurproc c).cpu c).running = (m.cpu c).running := by simp
  have hproc : ((m.callCurproc c).cpu c).proc = (m.cpu c).proc := by simp
  have hfail : ∀ x, m' = (m.callCurproc c).fail c x →
      (m'.cpu c).running = (m.cpu c).running ∧ m'.code = m.code ∧ (m'.cpu c).panicked ≠ none := by
    rintro x rfl
    exact ⟨by simp [Machine.fail], rfl, by simp [Machine.fail]⟩
  simp only [exec, hproc] at hexec
  split at hexec
  · exact Or.inl (hfail _ (Option.some.inj hexec).symm)
  split at hexec
  · exact Or.inl (hfail _ (Option.some.inj hexec).symm)
  cases hp : (m.cpu c).proc with
  | none =>
      rw [hp] at hexec
      exact Or.inl (hfail _ (Option.some.inj hexec).symm)
  | some p =>
      rw [hp] at hexec
      dsimp only at hexec
      split at hexec
      · exact Or.inl (hfail _ (Option.some.inj hexec).symm)
      have hrunp := (h.running_of_proc (plain_of_ordinary hnext rfl) hp).1
      have hback : m.code (.cpu c) = [.requeue] := by
        cases (h.cpus c).thread with
        | sched hrun' _ =>
            rw [hrunp] at hrun'
            cases hrun'
        | back _ hrun' _ _ =>
            rw [hrunp] at hrun'
            cases hrun'
        | proc _ _ _ hcode => exact hcode
      have hm' := (Option.some.inj hexec).symm
      have hcpu : (m'.cpu c).running = .cpu c ∧ (m'.cpu c).proc = some p ∧
          (m'.cpu c).panicked = (m.cpu c).panicked := by
        rw [hm', Machine.setCpu_cpu_self]
        exact ⟨rfl, rfl, by simp⟩
      have hcode : m'.code = Function.update m.code (.proc p)
          (.restoreInt ((m.callCurproc c).cpu c).intEnabled :: k) := by
        rw [hm']
        rfl
      refine Or.inr ⟨p, hrunp, hcpu.2.1, hcpu.1, hcode, ?_, hcpu.2.2⟩
      rw [Machine.next, hcpu.1, hcode, Function.update_of_ne ThreadId.noConfusion, hback]

/-- The scheduler switches to a process that runs nowhere. -/
theorem dispatch_cases (h : Inv m) {p : ProcId} (hnext : m.next c = .dispatch p :: k)
    (hexec : exec m c k (.dispatch p) = some m') :
    (m.cpu c).running = .cpu c ∧ m.held c = {.sched} ∧ Known m p ∧
      (∀ d, (m.cpu d).running ≠ .proc p) ∧ m'.next c = m.code (.proc p) ∧
      m'.cpu c = { m.cpu c with proc := some p, running := .proc p } := by
  have hin := (h.cpus c).typed
  rw [hnext] at hin
  have hk : k = [] := hin.2.2
  subst hk
  obtain ⟨hrun, hproc⟩ := h.scheduler hin (by rw [hnext]; simp) (by rw [hnext]; simp)
  have hat : At m (.cpu c) p := (at_cpu_dispatch hproc hnext).mpr rfl
  have hno : ∀ d, (m.cpu d).running ≠ .proc p := by
    intro d hd
    have := h.placed.unique p _ _ (h.at_running hd) hat
    rw [Place.cpu.injEq] at this
    rw [this, hrun] at hd
    cases hd
  have hm' := (Option.some.inj hexec).symm
  have hcpu : m'.cpu c = { m.cpu c with proc := some p, running := .proc p } := by
    rw [hm']
    exact Machine.setCpu_cpu_self
  refine ⟨hrun, hin.2.1, h.placed.known p _ hat, hno, ?_, hcpu⟩
  rw [Machine.next, hcpu, hm']
  exact Machine.goto_code_ne (by rw [hrun]; exact ThreadId.noConfusion)

/-! ## A property of the code -/

/-- The code a call starts with. -/
def callCode (intFlag : Bool) : Call → Code
  | .acquire l => [.acquire l]
  | .release l => [.release l]
  | .curproc => []
  | .setInterrupt _ => []
  | .schedCreateKproc _ => []
  | .schedAdd p => schedAdd p
  | .schedStart => schedStart
  | .schedYield => schedYield
  | .schedSleep chan lk => [.sleepEnter (.other chan) lk]
  | .schedWakeup chan => schedWakeup (.other chan)
  | .consoleGetc => consoleGetc
  | .syscall s => handleSyscall s ++ [.iret intFlag]

theorem call_queues (a : Call) :
    (call m c a).readyQueue = m.readyQueue ∧ (call m c a).waitingQueue = m.waitingQueue := by
  cases a <;> exact ⟨rfl, rfl⟩

theorem call_code (h : Inv m) (hpanic : (m.cpu c).panicked = none) (hnext : m.next c = []) {a : Call}
    (hlegal : Legal m c (.call a)) : Goes m c (callCode (m.cpu c).intFlag a) (call m c a) := by
  have hstay : ∀ {n : Machine}, (n.cpu c).running = (m.cpu c).running → n.code = m.code →
      (n.cpu c).panicked = none → Goes m c [] n := fun hrun hcode hp =>
    ⟨hrun, (Machine.next_eq hrun (by rw [hcode])).trans hnext, hp⟩
  cases a with
  | curproc => exact hstay (by simp [call]) (by rfl) (by simp [call, hpanic])
  | setInterrupt on => exact hstay (by simp [call]) (by rfl) (by simp [call, hpanic])
  | schedCreateKproc p =>
      have hp : ¬Known m p := fun hk => hk hlegal.2
      refine ⟨rfl, ?_, hpanic⟩
      show Function.update m.code (.proc p) procKentry (m.cpu c).running = []
      rw [Function.update_of_ne fun e => hp (h.known_running e)]
      exact hnext
  | _ => exact goes_soft hpanic (by rfl) _

theorem callCode_head {a : Call} {b : Bool} {j : Instr} (hj : (callCode b a).head? = some j) :
    j.headOnly = false := by
  cases a with
  | syscall s => cases s <;> rw [← Option.some.inj hj] <;> rfl
  | curproc => cases hj
  | setInterrupt on => cases hj
  | schedCreateKproc p => cases hj
  | _ =>
      rw [← Option.some.inj hj]
      rfl

theorem handleInterrupt_head {u : Bool} {q : Irq} {j : Instr}
    (hj : (handleInterrupt u q ++ .iret true :: k).head? = some j) : j.headOnly = false := by
  cases q with
  | com1 bytes => cases u <;> rw [← Option.some.inj hj] <;> rfl
  | _ =>
      rw [← Option.some.inj hj]
      rfl

theorem exec_headOnly_panicked {i : Instr} (hi : i.headOnly = true) (hexec : exec m c k i = some m') :
    (m'.cpu c).panicked = (m.cpu c).panicked := by
  cases i with
  | spin l =>
      simp only [exec] at hexec
      split at hexec <;> cases hexec
      rfl
  | dispatch p =>
      cases hexec
      simp [Machine.setProc]
  | requeue =>
      simp only [exec] at hexec
      repeat' split at hexec
      all_goals
        cases hexec
        rfl
  | clearProc =>
      cases hexec
      simp
  | pushReady p =>
      cases hexec
      rfl
  | _ => cases hi

/-- How a CPU gets to an instruction that is reached only as the next one. -/
theorem step_headOnly (h : Inv m) {e : Event} (hlegal : Legal m c e) (hstep : step m c e = some m')
    {j : Instr} (hj : (m'.next c).head? = some j) (hhead : j.headOnly = true) :
    e = .exec ∧ ∃ i k, m.next c = i :: k ∧ exec m c k i = some m' ∧
      ((∃ l, i = .acquire l ∧ j = .spin l) ∨ (∃ p, i = .pick ∧ j = .dispatch p) ∨
        (i = .requeue ∧ j = .clearProc) ∨ (∃ chan n p, i = .wakeLoop chan n ∧ j = .pushReady p) ∨
        i = .switchOut ∧ j = .requeue) := by
  have hnot : ∀ {x : Instr} {k' : Code}, x.headOnly = false → m'.next c = x :: k' → False := by
    intro x k' hx hk'
    rw [hk', List.head?_cons, Option.some.injEq] at hj
    rw [hj, hhead] at hx
    cases hx
  obtain ⟨hpanic, ⟨i, k, rfl, hnext, hexec⟩ | ⟨a, rfl, hnext, _, rfl⟩ | ⟨q, _, _, rfl⟩⟩ :=
    step_cases hstep
  · refine ⟨rfl, i, k, hnext, hexec, ?_⟩
    by_cases hsw : i = .switchOut
    · subst hsw
      rcases switchOut_cases h hnext hexec with ⟨hrun, hcode, _⟩ | ⟨_, _, _, _, _, hback, _⟩
      · exact (hnot rfl ((Machine.next_eq hrun (by rw [hcode])).trans hnext)).elim
      · rw [hback, List.head?_cons, Option.some.injEq] at hj
        exact Or.inr (Or.inr (Or.inr (Or.inr ⟨rfl, hj.symm⟩)))
    by_cases hd : ∃ p, i = .dispatch p
    · obtain ⟨p, rfl⟩ := hd
      obtain ⟨_, _, hknown, hno, hnext', _⟩ := dispatch_cases h hnext hexec
      rcases (h.resume p hknown hno).entry with ⟨b, k', hk'⟩ | ⟨k', hk'⟩
      · exact (hnot rfl (hnext'.trans hk')).elim
      · exact (hnot rfl (hnext'.trans hk')).elim
    rcases exec_code h hpanic hnext hsw (fun p hp => hd ⟨p, hp⟩) hexec with hstop | ⟨f, hx, g⟩
    · -- These instructions do not panic.
      rw [hstop.next, hnext, List.head?_cons, Option.some.injEq] at hj
      obtain ⟨x, hx, _⟩ := hstop.panicked
      rw [exec_headOnly_panicked (by rw [hj]; exact hhead) hexec, hpanic] at hx
      cases hx
    · rw [g.next] at hj
      rcases expands_headOnly hx (h.still_tail hnext) hj hhead with hacq | hpick | hreq | hwake
      · exact Or.inl hacq
      · exact Or.inr (Or.inl hpick)
      · exact Or.inr (Or.inr (Or.inl hreq))
      · exact Or.inr (Or.inr (Or.inr (Or.inl hwake)))
  · rw [(call_code h hpanic hnext hlegal).next] at hj
    rw [callCode_head hj] at hhead
    cases hhead
  · rw [Machine.next_goto] at hj
    rw [handleInterrupt_head hj] at hhead
    cases hhead

/-- `Q` holds of the code each CPU runs and of the code of each process that waits
to be switched to. -/
structure CodeInv (Q : Code → Prop) (m : Machine) : Prop where
  next : ∀ c, Q (m.next c)
  out : ∀ p, Known m p → (∀ c, (m.cpu c).running ≠ .proc p) → Q (m.code (.proc p))

/-- What makes `Q` such a property in the runs whose events keep to `E`. -/
structure CodeRule (Q : Code → Prop) (E : Event → Prop) : Prop where
  nil : Q []
  entry : Q procKentry
  back : Q [.requeue]
  expand : ∀ {i f k}, Expands i f → Q (i :: k) → Q (f ++ k)
  saved : ∀ {b k}, Q (.switchOut :: k) → Q (.restoreInt b :: k)
  call : ∀ {a b}, E (.call a) → Q (callCode b a)
  irq : ∀ {u i k}, Q k → Q (handleInterrupt u i ++ .iret true :: k)

/-- The rest of the machine is in order once CPU `c` and the thread it may have
left are. -/
theorem CodeInv.of_elsewhere {Q : Code → Prop} (hq : CodeInv Q m) (h : Inv m)
    (e : Elsewhere m c m') (hentry : Q procKentry) (hc : Q (m'.next c))
    (hleft : ∀ p, (m.cpu c).running = .proc p → (m'.cpu c).running ≠ .proc p →
      Q (m'.code (.proc p))) : CodeInv Q m' where
  next d := by
    by_cases hne : d = c
    · rw [hne]
      exact hc
    · rw [e.frame.next h hne]
      exact hq.next d
  out p hp hno := by
    by_cases hrun : (m.cpu c).running = .proc p
    · exact hleft p hrun (hno c)
    by_cases hp' : Known m p
    · rw [e.code (.proc p) (Ne.symm hrun) fun q hq => by rw [← ThreadId.proc.inj hq]; exact hp']
      refine hq.out p hp' fun d => ?_
      by_cases hd : d = c
      · rw [hd]
        exact hrun
      · rw [← e.cpu d hd]
        exact hno d
    · rw [e.new p hp' hp]
      exact hentry

theorem CodeInv.step {Q : Code → Prop} {E : Event → Prop} (rule : CodeRule Q E) (h : Inv m)
    (hq : CodeInv Q m) {e : Event} (hlegal : Legal m c e) (he : E e) (hstep : step m c e = some m') :
    CodeInv Q m' := by
  have helse := step_elsewhere h hlegal hstep
  have hstay : (m'.cpu c).running = (m.cpu c).running → Q (m'.next c) → CodeInv Q m' :=
    fun hrun hc => hq.of_elsewhere h helse rule.entry hc fun p hp hne => absurd (by rw [hrun, hp]) hne
  obtain ⟨hpanic, ⟨i, k, _, hnext, hexec⟩ | ⟨a, rfl, hnext, _, rfl⟩ | ⟨i, _, _, rfl⟩⟩ :=
    step_cases hstep
  · have hqc := hq.next c
    by_cases hsw : i = .switchOut
    · subst hsw
      rcases switchOut_cases h hnext hexec with ⟨hrun, hcode, _⟩ | ⟨p, hrun, _, _, hcode, hback, _⟩
      · refine hstay hrun ?_
        rw [Machine.next_eq hrun (by rw [hcode])]
        exact hqc
      · refine hq.of_elsewhere h helse rule.entry (by rw [hback]; exact rule.back) fun q hq _ => ?_
        rw [hrun, ThreadId.proc.injEq] at hq
        subst hq
        rw [hnext] at hqc
        rw [hcode, Function.update_self]
        exact rule.saved hqc
    by_cases hd : ∃ p, i = .dispatch p
    · obtain ⟨p, rfl⟩ := hd
      obtain ⟨hrun, _, hknown, hno, hnext', _⟩ := dispatch_cases h hnext hexec
      refine hq.of_elsewhere h helse rule.entry (by rw [hnext']; exact hq.out p hknown hno) ?_
      intro q hq _
      rw [hrun] at hq
      cases hq
    rcases exec_code h hpanic hnext hsw (fun p hp => hd ⟨p, hp⟩) hexec with hstop | ⟨f, hx, g⟩
    · exact hstay hstop.running (by rw [hstop.next]; exact hqc)
    · rw [hnext] at hqc
      exact hstay g.running (by rw [g.next]; exact rule.expand hx hqc)
  · have g := call_code h hpanic hnext hlegal
    exact hstay g.running (by rw [g.next]; exact rule.call he)
  · refine hstay (by simp) ?_
    rw [Machine.next_goto]
    exact rule.irq (hq.next c)

theorem boot_codeInv {Q : Code → Prop} {E : Event → Prop} (rule : CodeRule Q E) (uartEnable : Bool) :
    CodeInv Q (Machine.boot uartEnable) :=
  ⟨fun _ => rule.nil, fun _ hp => absurd rfl hp⟩

end

end Sched
end GuideOS
