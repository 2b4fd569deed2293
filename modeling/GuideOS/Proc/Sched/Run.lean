import GuideOS.Proc.Sched.Moves

/-!
# Every reachable state

The first entry of a process, the calls of clients and the interrupts keep the
invariant too, so it holds in every reachable state.
-/

namespace GuideOS
namespace Sched

section

variable {m m' : Machine} {c : Nat} {k k' : Code}

/-! ## New processes -/

theorem resumable_procKentry {p : ProcId} (h : m.code (.proc p) = procKentry) : Resumable m p := by
  refine ⟨?_, ?_, Or.inr ⟨_, h⟩⟩
  · rw [h]
    exact typed_procKentry
  · rw [h]
    exact List.forall_mem_cons.mpr ⟨rfl, List.forall_mem_cons.mpr ⟨rfl,
      List.forall_mem_cons.mpr ⟨rfl, fun i hi => absurd hi List.not_mem_nil⟩⟩⟩

theorem count_procKentry (p : ProcId) : procKentry.count (.addReady p) = 0 := by
  simp [procKentry]

/-- `sched_create_kproc` on a process that does not exist yet. -/
theorem Inv.make (h : Inv m) {p : ProcId} (huser : ∃ n, p = .user n) (hp : ¬Known m p) :
    Inv { m.setProc p { state := .runnable, chan := .null } with
      code := Function.update m.code (.proc p) procKentry } := by
  generalize hm' : ({ m.setProc p { state := .runnable, chan := .null } with
      code := Function.update m.code (.proc p) procKentry } : Machine) = m'
  have hcode : m'.code = Function.update m.code (.proc p) procKentry := by rw [← hm']
  have hne : ∀ {t}, t ≠ .proc p → m'.code t = m.code t := fun ht => by
    rw [hcode, Function.update_of_ne ht]
  have hself : Known m' p := by
    rw [← hm']
    show (Function.update m.proc p _ p).state ≠ .unused
    rw [Function.update_self]
    exact ProcState.noConfusion
  have hother : ∀ {q}, q ≠ p → (Known m' q ↔ Known m q) := fun hq => by
    rw [← hm']
    show (Function.update m.proc p _ _).state ≠ .unused ↔ _
    rw [Function.update_of_ne hq]
    exact Iff.rfl
  have hknown : ∀ q, Known m q → Known m' q := fun q hq =>
    (hother fun e => hp (by rwa [e] at hq)).mpr hq
  -- No CPU moves, so the frame holds for every one of them.
  have hframe : ∀ d, Frame m d m' := by
    intro d
    refine ⟨fun _ _ => by rw [← hm']; rfl, fun _ _ _ => by rw [← hm']; rfl, fun t _ ht => hne ?_⟩
    rintro rfl
    exact hp (ht p rfl).1
  refine ⟨fun d => (hframe (d + 1)).cpuOk h (Nat.ne_of_lt d.lt_succ_self), ?_, ?_, ?_, ?_⟩
  · intro q hq hno
    by_cases hqp : q = p
    · rw [hqp]
      exact resumable_procKentry (by rw [hcode, Function.update_self])
    · have hcode' : m'.code (.proc q) = m.code (.proc q) :=
        hne fun e => hqp (ThreadId.proc.inj e)
      obtain ⟨ht, hs, he⟩ := h.resume q ((hother hqp).mp hq) fun c' => by
        have := hno c'
        rwa [← hm'] at this
      exact ⟨by rw [hcode']; exact ht, by rw [hcode']; exact hs, by rw [hcode']; exact he⟩
  · intro c'
    obtain ⟨n, rfl⟩ := huser
    rw [hne ThreadId.noConfusion, hother ProcId.noConfusion]
    exact h.idle c'
  · refine h.placed.congr (fun x q => ?_) (by rw [← hm']; rfl) (by rw [← hm']; exact fun _ hr => hr)
      hknown (by rw [← hm']; rfl) (by rw [← hm']; rfl)
    cases x with
    | ready =>
        rw [← hm']
        rfl
    | waiting =>
        rw [← hm']
        rfl
    | cpu d => exact (hframe (d + 1)).at_cpu h (Nat.ne_of_lt d.lt_succ_self)
  · refine h.adds.goto hcode (fun r => ?_) (by rw [← hm']; rfl) (by rw [← hm']; rfl) hknown
    rw [count_procKentry, eq_comm, List.count_eq_zero]
    exact fun hr => hp ((h.adds.caller _ r hr).2 p rfl)

theorem exec_startCpu (h : Inv m) (hpanic : (m.cpu c).panicked = none)
    (hnext : m.next c = .startCpu :: k) (hexec : exec m c k .startCpu = some m') : Inv m' := by
  obtain ⟨⟨c', hc'⟩, hheld, hk⟩ : (∃ c', (m.cpu c).running = .cpu c') ∧ m.held c = ∅ ∧
      k = [.acquire .sched, .pick] := by
    have htyped := (h.cpus c).typed
    rw [hnext] at htyped
    exact htyped
  have hsettled : Settled (m.next c) := by
    rw [hnext]
    exact settled_cons rfl
  have hplain : Plain (m.next c) := plain_of_head hnext rfl
  obtain ⟨hrun, hproc⟩ : (m.cpu c).running = .cpu c ∧ (m.cpu c).proc = none := by
    cases (h.cpus c).thread with
    | sched hrun hproc => exact ⟨hrun, hproc⟩
    | back p _ _ hback =>
        rw [hnext] at hback
        rcases hback with hback | hback <;> cases hback
    | proc p hrun _ _ =>
        rw [hc'] at hrun
        cases hrun
  have hlayer := h.layer_eq_zero hpanic hplain hheld
  simp only [exec] at hexec
  split at hexec
  · cases hexec
    exact h.stop hpanic hplain (soft_fail _)
  have hm' := (Option.some.inj hexec).symm
  have hself : m'.cpu c = { m.cpu c with proc := none, intFlag := true } := by
    rw [hm']
    exact Machine.setCpu_cpu_self
  have hcode : m'.code =
      Function.update (Function.update m.code (.proc (.idle c)) procKentry) (.cpu c) k := by
    rw [hm', ← hrun]
    simp [Machine.goto, Machine.setProc, Machine.setCpu]
  have hidle : Known m' (.idle c) := by
    rw [hm']
    show (Function.update m.proc (.idle c) _ (.idle c)).state ≠ .unused
    rw [Function.update_self]
    exact ProcState.noConfusion
  have hother : ∀ {q}, q ≠ .idle c → (Known m' q ↔ Known m q) := fun hq => by
    rw [hm']
    show (Function.update m.proc (.idle c) _ _).state ≠ .unused ↔ _
    rw [Function.update_of_ne hq]
    exact Iff.rfl
  have hknown : ∀ q, Known m q → Known m' q := fun q hq => by
    by_cases hqi : q = .idle c
    · rw [hqi]
      exact hidle
    · exact (hother hqi).mpr hq
  have hne : ∀ {t}, t ≠ .cpu c → t ≠ .proc (.idle c) → m'.code t = m.code t := fun ht ht' => by
    rw [hcode, Function.update_of_ne ht, Function.update_of_ne ht']
  have hframe : Frame m c m' := by
    refine ⟨fun c' hcc => ?_, fun _ _ _ => by rw [hm']; rfl, fun t ht hp => hne ?_ fun e => ?_⟩
    · rw [hm']
      exact Machine.setCpu_cpu_ne hcc
    · rwa [← hrun]
    · exact (hp _ e).2 rfl
  have hnext' : m'.next c = k := by
    rw [Machine.next, hself, hcode, hrun]
    exact Function.update_self ..
  have hheld' : m'.held c = ∅ := by
    rw [← hheld]
    exact Machine.held_congr fun l => by rw [hm']; rfl
  have hsettled' : Settled k := by
    rw [hk]
    exact settled_cons rfl
  refine ⟨hframe.cpus h ⟨fun _ => ?_, fun hl => ?_, ?_, ?_, ?_, ?_⟩, ?_, ?_, ?_, ?_⟩
  · rw [hself, hheld', hnext', hk]
    show (m.cpu c).intDisableLayer.toNat = 0
    rw [hlayer]
    rfl
  · rw [hself] at hl
    exact absurd hlayer hl
  · rw [hself, hheld', hnext', hk]
    show Typed (m.cpu c).running _ _
    intro _
    exact ⟨⟨c, hrun⟩, rfl, rfl⟩
  · rw [hnext', hk]
    intro i hi
    rw [List.mem_singleton.mp hi]
    rfl
  · intro p hp
    rw [hnext'] at hp
    exact absurd hp (hsettled'.head_ne rfl)
  · exact .sched (by rw [hself]; exact hrun) (by rw [hself])
  · intro q hq hno
    by_cases hqi : q = .idle c
    · rw [hqi]
      refine resumable_procKentry ?_
      rw [hcode, Function.update_of_ne ThreadId.noConfusion, Function.update_self]
    · have hcode' : m'.code (.proc q) = m.code (.proc q) :=
        hne ThreadId.noConfusion fun e => hqi (ThreadId.proc.inj e)
      obtain ⟨ht, hs, he⟩ := h.resume q ((hother hqi).mp hq) fun c' => by
        by_cases hcc : c' = c
        · rw [hcc, hrun]
          exact ThreadId.noConfusion
        · rw [← hframe.cpu c' hcc]
          exact hno c'
      exact ⟨by rw [hcode']; exact ht, by rw [hcode']; exact hs, by rw [hcode']; exact he⟩
  · intro c'
    by_cases hcc : c' = c
    · rw [hcc, hcode, Function.update_self, hk]
      exact iff_of_true ⟨by simp, Or.inl (List.mem_cons_of_mem _ List.mem_cons_self)⟩ hidle
    · rw [hne (fun e => hcc (ThreadId.cpu.inj e)) ThreadId.noConfusion,
        hother fun e => hcc (ProcId.idle.inj e)]
      exact h.idle c'
  · refine h.placed.congr (fun x q => hframe.at_iff h (by rw [hm']; rfl) (by rw [hm']; rfl)
      (iff_of_false ?_ ?_) x) (by rw [hm']; rfl) (by rw [hm']; exact fun _ hr => hr) hknown
      (by rw [hm']; rfl) (by rw [hm']; rfl)
    · exact at_cpu_none (by rw [hself]) (by rw [hnext']; exact hsettled')
    · exact at_cpu_none hproc hsettled
  · have hmake : Adds { m with code := Function.update m.code (.proc (.idle c)) procKentry } :=
      h.adds.goto rfl (fun r => by
        rw [count_procKentry, eq_comm, List.count_eq_zero]
        exact fun hr => Bool.noConfusion (h.adds.caller _ r hr).1) rfl rfl fun _ => id
    refine hmake.goto hcode (fun r => ?_) (by rw [hm']; rfl) (by rw [hm']; rfl) hknown
    show _ = (Function.update m.code (.proc (.idle c)) procKentry (.cpu c)).count _
    rw [Function.update_of_ne ThreadId.noConfusion, ← hrun, ← Machine.next, hnext, hk]
    simp

/-- Every instruction keeps the invariant. -/
theorem exec_inv (h : Inv m) (hpanic : (m.cpu c).panicked = none) {i : Instr}
    (hnext : m.next c = i :: k) (hexec : exec m c k i = some m') : Inv m' := by
  by_cases hi : i.ordinary = true
  · cases i with
    | acquire l => exact exec_acquire h hpanic hnext hexec
    | release l => exact exec_release h hpanic hnext hexec
    | switchOut => exact exec_switchOut h hpanic hnext hexec
    | wakeLoop chan j => exact exec_wakeLoop h hpanic hnext hexec
    | _ =>
        exact exec_plain h hpanic hnext hi (fun _ => Instr.noConfusion) (fun _ => Instr.noConfusion)
          Instr.noConfusion (fun _ _ => Instr.noConfusion) hexec
  · cases i with
    | spin l => exact exec_spin h hpanic hnext hexec
    | addReady p => exact exec_addReady h hpanic hnext hexec
    | startCpu => exact exec_startCpu h hpanic hnext hexec
    | pick => exact exec_pick h hpanic hnext hexec
    | dispatch p => exact exec_dispatch h hpanic hnext hexec
    | requeue => exact exec_requeue h hpanic hnext hexec
    | clearProc => exact exec_clearProc h hpanic hnext hexec
    | pushReady p => exact exec_pushReady h hpanic hnext hexec
    | _ => exact absurd rfl hi

/-! ## Calls and interrupts -/

theorem plain_of_nil (hnext : m.next c = []) : Plain (m.next c) := by
  rw [hnext]
  exact fun i hi => by cases hi

/-- A client enters a kernel function. -/
theorem Inv.enter (h : Inv m) (hpanic : (m.cpu c).panicked = none) (hnext : m.next c = [])
    {f : Code} (hf : ∀ i ∈ f, i.ordinary = true)
    (htyped : Typed (m.cpu c).running f (m.held c)) : Inv (m.goto c f) := by
  refine h.quiet hpanic (soft_refl h).goto (plain_of_nil hnext)
    (fun i hi => headOnly_of_ordinary (hf i hi)) htyped (fun p => ?_) rfl ?_
  · rw [count_ordinary hf, hnext, List.count_nil]
  · have := inSched_append (k := []) hf
    rwa [List.append_nil, ← hnext] at this

/-- With interrupts on the CPU holds no lock. -/
theorem Inv.held_of_intFlag (h : Inv m) (hpanic : (m.cpu c).panicked = none)
    (hflag : (m.cpu c).intFlag = true) :
    (m.cpu c).intDisableLayer = 0 ∧ m.held c = ∅ ∧ spinning (m.next c) = 0 := by
  have hzero : (m.cpu c).intDisableLayer = 0 := by
    by_contra hne
    rw [(h.cpus c).off hne] at hflag
    cases hflag
  have hlayer := (h.cpus c).layer (by simp [hpanic])
  rw [hzero] at hlayer
  have hsum : 0 = (m.held c).card + spinning (m.next c) := hlayer
  exact ⟨hzero, Finset.card_eq_zero.mp (by omega), by omega⟩

/-- A counter of zero means no lock. -/
theorem Inv.held_eq_empty (h : Inv m) (hpanic : (m.cpu c).panicked = none)
    (hlayer : (m.cpu c).intDisableLayer = 0) : m.held c = ∅ := by
  have hl := (h.cpus c).layer (by simp [hpanic])
  rw [hlayer] at hl
  have hsum : 0 = (m.held c).card + spinning (m.next c) := hl
  exact Finset.card_eq_zero.mp (by omega)

theorem ordinary_schedWakeup (chan : Chan) : ∀ i ∈ schedWakeup chan, i.ordinary = true :=
  List.all_eq_true.mp rfl

theorem ordinary_handleSyscall (s : Syscall) (intFlag : Bool) :
    ∀ i ∈ handleSyscall s ++ [.iret intFlag], i.ordinary = true := by
  cases s <;> exact List.all_eq_true.mp rfl

theorem ordinary_handleInterrupt (uartEnable : Bool) (i : Irq) :
    ∀ j ∈ handleInterrupt uartEnable i ++ [.iret true], j.ordinary = true := by
  cases i with
  | spurious => exact List.all_eq_true.mp rfl
  | timer => exact List.all_eq_true.mp rfl
  | com1 bytes => cases uartEnable <;> exact List.all_eq_true.mp rfl

/-- `sched_add` begins on a process that was never passed to it. -/
theorem call_schedAdd (h : Inv m) (hpanic : (m.cpu c).panicked = none) (hnext : m.next c = [])
    (hclient : isIdle (m.cpu c).running = false) {p : ProcId} (huser : ∃ n, p = .user n)
    (hkp : Known m p) (hpass : p ∉ m.passed) : Inv (call m c (.schedAdd p)) := by
  have hcode : ∀ t r, .addReady r ∈ (call m c (.schedAdd p)).code t →
      (t = (m.cpu c).running ∧ r = p) ∨ .addReady r ∈ m.code t := by
    intro t r hr
    by_cases ht : t = (m.cpu c).running
    · rw [ht] at hr
      have hr' : .addReady r ∈ schedAdd p := by
        rw [← Machine.next_goto (m := { m with passed := p :: m.passed }) (c := c)
          (k := schedAdd p)]
        exact hr
      refine Or.inl ⟨ht, ?_⟩
      simpa [schedAdd] using hr'
    · right
      have := Machine.goto_code_ne (m := { m with passed := p :: m.passed }) (c := c)
        (k := schedAdd p) ht
      rwa [← this]
  have hnew : ∀ t, .addReady p ∉ m.code t := fun t ht => hpass (h.adds.pending t p ht).2.2.1
  refine h.quiet_of_adds hpanic (f := schedAdd p) ?_ (plain_of_nil hnext) ?_ typed_schedAdd ?_ ?_
  · exact ⟨fun _ _ => rfl, rfl, rfl, rfl, (h.cpus c).off, rfl, rfl, rfl, rfl, rfl,
      fun r hr => List.mem_cons_of_mem p hr, fun _ => Iff.rfl⟩
  · have : (schedAdd p).all (fun i => !i.headOnly) = true := rfl
    intro i hi
    simpa using List.all_eq_true.mp this i hi
  · constructor
    · intro t r hr
      rcases hcode t r hr with ⟨_, rfl⟩ | hr'
      · exact ⟨huser, hkp, List.mem_cons_self, fun hadd => hpass (h.placed.user r hadd).2⟩
      · obtain ⟨hn, hk, hpass', hadd⟩ := h.adds.pending t r hr'
        exact ⟨hn, hk, List.mem_cons_of_mem p hpass', hadd⟩
    · intro t r hr
      rcases hcode t r hr with ⟨rfl, rfl⟩ | hr'
      · exact ⟨hclient, fun q hq => h.known_running hq⟩
      · exact h.adds.caller t r hr'
    · intro r hr
      have hself : (call m c (.schedAdd p)).code (m.cpu c).running = schedAdd p :=
        Function.update_self ..
      rcases List.mem_cons.mp hr with rfl | hr
      · refine Or.inr ⟨(m.cpu c).running, ?_⟩
        rw [hself]
        simp [schedAdd]
      · rcases h.adds.covered r hr with hin | ⟨t, ht⟩
        · exact Or.inl hin
        · refine Or.inr ⟨t, ?_⟩
          have htr : t ≠ (m.cpu c).running := by
            rintro rfl
            rw [← Machine.next, hnext] at ht
            cases ht
          rwa [← Machine.goto_code_ne (m := { m with passed := p :: m.passed }) (c := c)
            (k := schedAdd p) htr] at ht
    · intro t r
      by_cases ht : t = (m.cpu c).running
      · have hself : (call m c (.schedAdd p)).code (m.cpu c).running = schedAdd p :=
          Function.update_self ..
        rw [ht, hself]
        by_cases hr : r = p
        · rw [hr]
          simp [schedAdd]
        · rw [List.count_eq_zero.mpr]
          · exact Nat.zero_le 1
          · simpa [schedAdd] using hr
      · have := Machine.goto_code_ne (m := { m with passed := p :: m.passed }) (c := c)
          (k := schedAdd p) ht
        rw [show (call m c (.schedAdd p)).code t = m.code t from this]
        exact h.adds.once t r
    · intro t u r ht hu
      rcases hcode t r ht with ⟨rfl, rfl⟩ | ht'
      · rcases hcode u r hu with ⟨rfl, _⟩ | hu'
        · rfl
        · exact absurd hu' (hnew u)
      · rcases hcode u r hu with ⟨_, rfl⟩ | hu'
        · exact absurd ht' (hnew t)
        · exact h.adds.unique t u r ht' hu'
  · rw [hnext]
    simp [InSched, schedAdd]

theorem call_inv (h : Inv m) (hpanic : (m.cpu c).panicked = none) (hnext : m.next c = [])
    (hclient : isIdle (m.cpu c).running = false) {a : Call} (hlegal : Legal m c (.call a)) :
    Inv (call m c a) := by
  have hplain := plain_of_nil hnext
  cases a with
  | acquire l => exact h.enter hpanic hnext (List.all_eq_true.mp rfl) fun _ => trivial
  | release l => exact h.enter hpanic hnext (List.all_eq_true.mp rfl) fun _ => trivial
  | curproc => exact h.stop hpanic hplain (soft_callCurproc h)
  | setInterrupt on =>
      refine h.stop hpanic hplain (soft_cpu rfl rfl rfl fun hlayer => ?_)
      exact absurd (h.layer_eq_zero hpanic hplain hlegal) hlayer
  | schedCreateKproc p => exact h.make hlegal.1 (not_not.mpr hlegal.2)
  | schedAdd p => exact call_schedAdd h hpanic hnext hclient hlegal.1 hlegal.2.1 hlegal.2.2
  | schedStart =>
      refine h.quiet hpanic (f := schedStart) (soft_refl h).goto hplain ?_ ?_ (fun p => ?_) rfl ?_
      · have : schedStart.all (fun i => !i.headOnly) = true := rfl
        intro i hi
        simpa using List.all_eq_true.mp this i hi
      · exact ⟨⟨c, hlegal.1⟩, hlegal.2, rfl⟩
      · rw [hnext]
        simp [schedStart]
      · rw [hnext]
        simp [InSched, schedStart]
  | schedYield =>
      refine h.enter hpanic hnext ordinary_schedYield ?_
      rw [← List.append_nil schedYield]
      exact typed_schedYield trivial
  | schedSleep chan lk => exact h.enter hpanic hnext (List.all_eq_true.mp rfl) trivial
  | schedWakeup chan =>
      refine h.enter hpanic hnext (ordinary_schedWakeup _) ?_
      rw [← List.append_nil (schedWakeup _)]
      exact typed_schedWakeup trivial
  | consoleGetc => exact h.enter hpanic hnext (List.all_eq_true.mp rfl) typed_consoleGetc
  | syscall s =>
      refine h.enter hpanic hnext (ordinary_handleSyscall s _) (typed_handleSyscall fun hflag => ?_)
      exact (h.held_of_intFlag hpanic hflag).2.1

/-- With interrupts on, the code that goes on is no scheduler code and holds no
process. -/
theorem Inv.plain_of_intFlag (h : Inv m) (hpanic : (m.cpu c).panicked = none)
    (hflag : (m.cpu c).intFlag = true) : Plain (m.next c) := by
  obtain ⟨_, hheld, hspin⟩ := h.held_of_intFlag hpanic hflag
  have htyped := (h.cpus c).typed
  rw [hheld] at htyped
  intro i hi
  cases hnext : m.next c with
  | nil =>
      rw [hnext] at hi
      cases hi
  | cons j k =>
      rw [hnext] at hi htyped hspin
      rw [← Option.some.inj hi]
      cases j with
      | spin l => cases hspin
      | dispatch p => exact absurd htyped.2.1 (by simp)
      | requeue => exact absurd htyped.2.1 (by simp)
      | clearProc => exact absurd htyped.2.1 (by simp)
      | pushReady p => exact absurd htyped.1 (by simp)
      | _ => rfl

theorem irq_inv (h : Inv m) (hpanic : (m.cpu c).panicked = none) (hflag : (m.cpu c).intFlag = true)
    (i : Irq) : Inv ((m.setCpu c { m.cpu c with intFlag := false }).goto c
      (handleInterrupt m.uartEnable i ++ .iret true :: m.next c)) := by
  obtain ⟨hzero, hheld, _⟩ := h.held_of_intFlag hpanic hflag
  have hplain := h.plain_of_intFlag hpanic hflag
  have htyped := (h.cpus c).typed
  have hord := ordinary_handleInterrupt m.uartEnable i
  have hcode : handleInterrupt m.uartEnable i ++ .iret true :: m.next c =
      (handleInterrupt m.uartEnable i ++ [.iret true]) ++ m.next c := by simp
  rw [hheld] at htyped
  have hsoft : Soft m c (m.setCpu c { m.cpu c with intFlag := false }) :=
    soft_cpu rfl rfl rfl fun _ => rfl
  refine h.quiet hpanic hsoft.goto hplain ?_ ?_ (fun p => ?_) rfl ?_
  · rw [hcode]
    intro j hj
    rcases List.mem_append.mp hj with hj | hj
    · exact headOnly_of_ordinary (hord j hj)
    · cases hnext : m.next c with
      | nil =>
          rw [hnext] at hj
          cases hj
      | cons e k =>
          rw [hnext] at hj hplain
          rcases List.mem_cons.mp hj with rfl | hj
          · exact hplain j rfl
          · exact h.still_tail hnext j hj
  · rw [hheld]
    exact typed_handleInterrupt htyped
  · rw [hcode, List.count_append, count_ordinary hord, Nat.zero_add]
  · rw [hcode, inSched_append hord]

/-! ## Runs -/

theorem boot_inv (uartEnable : Bool) : Inv (Machine.boot uartEnable) := by
  have hno : ∀ x p, ¬At (Machine.boot uartEnable) x p := by
    intro x p hx
    cases x with
    | ready => cases hx
    | waiting => cases hx
    | cpu c =>
        rcases hx with ⟨hx, _⟩ | hx | hx <;> cases hx
  have hcode : ∀ t p, .addReady p ∉ (Machine.boot uartEnable).code t := fun t p => List.not_mem_nil
  refine ⟨fun c => ⟨fun _ => ?_, fun h => absurd rfl h, trivial, ?_, ?_, .sched rfl rfl⟩,
    fun p hp => absurd rfl hp, ?_, ?_, ?_⟩
  · have : (Machine.boot uartEnable).held c = ∅ := by
      ext l
      rw [Machine.mem_held]
      exact iff_of_false (fun e => by cases e) (Finset.notMem_empty l)
    rw [this]
    rfl
  · intro i hi
    cases hi
  · intro p hp
    cases hp
  · intro c
    refine iff_of_false ?_ fun hk => hk rfl
    rintro ⟨_, hin⟩
    rcases hin with hin | hin | hin | ⟨p, hin⟩ <;> cases hin
  · exact ⟨fun p x y hx => absurd hx (hno x p), fun p hp => absurd hp List.not_mem_nil,
      fun p x hx => absurd hx (hno x p), fun p x hx => absurd hx (hno x p), List.nodup_nil,
      List.nodup_nil, fun p hp => absurd hp List.not_mem_nil⟩
  · exact ⟨fun t p hp => absurd hp (hcode t p), fun t p hp => absurd hp (hcode t p),
      fun p hp => absurd hp List.not_mem_nil, fun t p => Nat.zero_le 1,
      fun t _ p hp => absurd hp (hcode t p)⟩

/-- What a step is. -/
theorem step_cases {e : Event} (hstep : step m c e = some m') :
    (m.cpu c).panicked = none ∧
      ((∃ i k, e = .exec ∧ m.next c = i :: k ∧ exec m c k i = some m') ∨
        (∃ a, e = .call a ∧ m.next c = [] ∧ isIdle (m.cpu c).running = false ∧ m' = call m c a) ∨
        ∃ i, e = .irq i ∧ (m.cpu c).intFlag = true ∧
          m' = (m.setCpu c { m.cpu c with intFlag := false }).goto c
            (handleInterrupt m.uartEnable i ++ .iret true :: m.next c)) := by
  unfold step at hstep
  split at hstep
  · cases hstep
  rename_i hpanic
  refine ⟨not_not.mp hpanic, ?_⟩
  cases e with
  | exec =>
      dsimp only at hstep
      cases hnext : m.next c with
      | nil =>
          rw [hnext] at hstep
          cases hstep
      | cons i k =>
          rw [hnext] at hstep
          exact Or.inl ⟨i, k, rfl, rfl, hstep⟩
  | call a =>
      dsimp only at hstep
      split at hstep
      · rename_i hcall
        exact Or.inr (Or.inl ⟨a, rfl, hcall.1, hcall.2, (Option.some.inj hstep).symm⟩)
      · cases hstep
  | irq i =>
      dsimp only at hstep
      split at hstep
      · rename_i hflag
        exact Or.inr (Or.inr ⟨i, rfl, hflag, (Option.some.inj hstep).symm⟩)
      · cases hstep

theorem step_inv (h : Inv m) {e : Event} (hlegal : Legal m c e) (hstep : step m c e = some m') :
    Inv m' := by
  obtain ⟨hpanic, ⟨i, k, _, hnext, hexec⟩ | ⟨a, rfl, hnext, hclient, rfl⟩ | ⟨i, _, hflag, rfl⟩⟩ :=
    step_cases hstep
  · exact exec_inv h hpanic hnext hexec
  · exact call_inv h hpanic hnext hclient hlegal
  · exact irq_inv h hpanic hflag i

theorem Reachable.inv (h : Reachable m) : Inv m := by
  induction h with
  | boot uartEnable => exact boot_inv uartEnable
  | step _ hlegal hstep ih => exact step_inv ih hlegal hstep

/-! ## No process is lost or duplicated -/

/-- The process is in a queue, or is the current process of a CPU. -/
def InPlace (m : Machine) : Place → ProcId → Prop
  | .ready, p => p ∈ m.readyQueue
  | .waiting, p => p ∈ m.waitingQueue
  | .cpu c, p => (m.cpu c).proc = some p

/-- A call of `sched_add` has not reached its `dequeue_push_back`. -/
def Adding (m : Machine) (p : ProcId) : Prop := ∃ t, .addReady p ∈ m.code t

/-- Code with a process in hand holds `sched.lock`. -/
theorem Inv.settled_of_free (h : Inv m) (hfree : m.owner .sched = none) (c : Nat) :
    Settled (m.next c) := by
  have hnot : .sched ∉ m.held c := fun hmem => by
    rw [Machine.mem_held, hfree] at hmem
    cases hmem
  have htyped := (h.cpus c).typed
  intro i hi
  cases hnext : m.next c with
  | nil =>
      rw [hnext] at hi
      cases hi
  | cons j k =>
      rw [hnext] at hi htyped
      rw [← Option.some.inj hi]
      cases j with
      | dispatch p => exact absurd (by rw [htyped.2.1]; simp) hnot
      | requeue => exact absurd (by rw [htyped.2.1]; simp) hnot
      | clearProc => exact absurd (by rw [htyped.2.1]; simp) hnot
      | pushReady p => exact absurd htyped.1 hnot
      | _ => rfl

/-- While `sched.lock` is free nothing is between two places. -/
theorem Inv.at_iff_inPlace (h : Inv m) (hfree : m.owner .sched = none) (x : Place) (p : ProcId) :
    At m x p ↔ InPlace m x p := by
  cases x with
  | ready => exact Iff.rfl
  | waiting => exact Iff.rfl
  | cpu c => exact at_cpu_of_settled (h.settled_of_free hfree c)

theorem Inv.idle_not_queued (h : Inv m) (c : Nat) {x : Place} (hx : ∀ d, x ≠ .cpu d) :
    ¬At m x (.idle c) := by
  intro hat
  obtain ⟨⟨n, hn⟩, _⟩ := h.placed.user _ (h.placed.mem_added hat hx)
  cases hn

/-- In every reachable state the queues hold no process twice and no idle process;
while `sched.lock` is free, each process passed to `sched_add` is in exactly one
queue or CPU, once the call has queued it, and nowhere before. -/
theorem run_placed (h : Reachable m) :
    (m.owner .sched = none → ∀ p ∈ m.passed,
      (¬Adding m p → ∃! x, InPlace m x p) ∧ (Adding m p → ∀ x, ¬InPlace m x p)) ∧
      m.readyQueue.Nodup ∧ m.waitingQueue.Nodup ∧
      ∀ c, .idle c ∉ m.readyQueue ∧ .idle c ∉ m.waitingQueue := by
  have hinv := h.inv
  refine ⟨fun hfree p hp => ⟨fun hdone => ?_, ?_⟩, hinv.placed.ready, hinv.placed.waiting, ?_⟩
  · have hadded : p ∈ m.added := (hinv.adds.covered p hp).resolve_right hdone
    obtain ⟨x, hx⟩ := hinv.placed.somewhere p hadded
    refine ⟨x, (hinv.at_iff_inPlace hfree x p).mp hx, fun y hy => ?_⟩
    exact hinv.placed.unique p y x ((hinv.at_iff_inPlace hfree y p).mpr hy) hx
  · rintro ⟨t, ht⟩ x hx
    exact hinv.not_at_of_pending ht x ((hinv.at_iff_inPlace hfree x p).mpr hx)
  · intro c
    exact ⟨hinv.idle_not_queued (x := .ready) c fun _ => Place.noConfusion,
      hinv.idle_not_queued (x := .waiting) c fun _ => Place.noConfusion⟩

end

/-- The boot CPU makes a process and adds it. -/
theorem reachable_added : ∃ m, Reachable m ∧ m.owner .sched = none ∧ .user 0 ∈ m.passed ∧
    ¬Adding m (.user 0) := by
  have h0 := Reachable.boot true
  have h1 := h0.step (c := 0) (e := .call (.schedCreateKproc (.user 0))) ⟨⟨0, rfl⟩, rfl⟩ rfl
  have h2 := h1.step (c := 0) (e := .call (.schedAdd (.user 0)))
    ⟨⟨0, rfl⟩, by exact ProcState.noConfusion, List.not_mem_nil⟩ rfl
  have h3 := h2.step (c := 0) (e := .exec) trivial rfl
  have h4 := h3.step (c := 0) (e := .exec) trivial rfl
  have h5 := h4.step (c := 0) (e := .exec) trivial rfl
  have h6 := h5.step (c := 0) (e := .exec) trivial rfl
  have h7 := h6.step (c := 0) (e := .exec) trivial rfl
  refine ⟨_, h7, rfl, List.mem_cons_self, ?_⟩
  exact fun ⟨t, ht⟩ => (h7.inv.adds.pending t _ ht).2.2.2 List.mem_cons_self

theorem run_placed_added :
    ∃ m, Reachable m ∧ .user 0 ∈ m.passed ∧ ∃! x, InPlace m x (.user 0) := by
  obtain ⟨m, h, hfree, hp, hdone⟩ := reachable_added
  exact ⟨m, h, hp, ((run_placed h).1 hfree _ hp).1 hdone⟩

end Sched
end GuideOS
