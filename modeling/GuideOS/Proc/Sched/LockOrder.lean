import GuideOS.Proc.Sched.Replay

/-!
# Lock order of the console

`console_isr_handler` and the first half of `sched_sleep` take `sched.lock` with
`console_read_lock` held.  After the switch back `sched_sleep` takes
`console_read_lock` with `sched.lock` held.  Two CPUs can meet in the two orders,
and then both spin for ever.  They cannot as long as a process that comes back
from its sleep finds `console_read_lock` free and no other CPU takes it first.
-/

namespace GuideOS
namespace Sched

/-- Each of two CPUs is in the exchange loop of `acquire` on a lock that the other
one holds. -/
def Deadlock (m : Machine) (c d : Nat) : Prop :=
  c ≠ d ∧ ∃ l l' k k', m.next c = .spin l :: k ∧ m.owner l = some d ∧
    m.next d = .spin l' :: k' ∧ m.owner l' = some c

/-- Client code that takes no lock by itself: it uses the console and the
scheduler. -/
def Event.takesNoLock : Event → Bool
  | .call (.acquire _) => false
  | .call (.release _) => false
  | .call (.schedSleep _ _) => false
  | _ => true

/-- A process that takes `console_read_lock` with `sched.lock` held finds it free
when it begins to, and no other CPU takes the lock while it spins. -/
def Uncontended (m : Machine) (c : Nat) : Event → Prop
  | .exec =>
      (∀ k, m.next c = .acquire .consoleRead :: k → m.owner .sched = some c →
        m.owner .consoleRead = none) ∧
      ∀ k, m.next c = .spin .consoleRead :: k → ∀ d ≠ c, m.owner .sched = some d →
        (m.next d).head? ≠ some (.spin .consoleRead)
  | _ => True

/-! ## Who spins and who takes a lock -/

section

variable {m m' : Machine} {c : Nat} {k : Code} {l : LockId} {e : Event}

/-- A CPU gets into the exchange loop from the start of `acquire` only. -/
theorem step_spin (h : Inv m) (hlegal : Legal m c e) (hstep : step m c e = some m')
    (hspin : (m'.next c).head? = some (.spin l)) :
    e = .exec ∧ (∃ k, m.next c = .acquire l :: k) ∧ m'.owner = m.owner := by
  obtain ⟨rfl, i, k, hnext, hexec, ⟨l', rfl, hl⟩ | ⟨_, _, hj⟩ | ⟨_, hj⟩ | ⟨_, _, _, _, hj⟩ | ⟨_, hj⟩⟩ :=
    step_headOnly h hlegal hstep hspin rfl
  · rw [Instr.spin.inj hl]
    exact ⟨rfl, ⟨k, hnext⟩,
      (exec_untouched hexec).owner (fun _ => Instr.noConfusion) (fun _ => Instr.noConfusion)⟩
  · cases hj
  · cases hj
  · cases hj
  · cases hj

/-- A CPU takes a lock by the exchange only. -/
theorem step_takes (hstep : step m c e = some m') (hown : m'.owner l = some c)
    (hnot : m.owner l ≠ some c) : e = .exec ∧ ∃ k, m.next c = .spin l :: k := by
  obtain ⟨_, ⟨i, k, rfl, hnext, hexec⟩ | ⟨a, _, _, _, rfl⟩ | ⟨i, _, _, rfl⟩⟩ := step_cases hstep
  · refine ⟨rfl, k, ?_⟩
    by_cases hspin : ∃ l', i = .spin l'
    · obtain ⟨l', rfl⟩ := hspin
      simp only [exec] at hexec
      split at hexec <;> cases hexec
      by_cases hl : l = l'
      · rw [hl, hnext]
      · exact absurd ((Function.update_of_ne hl _ _).symm.trans hown) hnot
    by_cases hrel : ∃ l', i = .release l'
    · obtain ⟨l', rfl⟩ := hrel
      have hother : Function.update m.owner l' none l ≠ some c := by
        by_cases hl : l = l'
        · rw [hl, Function.update_self]
          exact fun hx => by cases hx
        · rw [Function.update_of_ne hl]
          exact hnot
      simp only [exec] at hexec
      split at hexec
      · split at hexec <;> cases hexec <;> exact absurd hown hother
      · cases hexec
        exact absurd hown hnot
    · rw [(exec_untouched hexec).owner (fun l' hl => hspin ⟨l', hl⟩) (fun l' hl => hrel ⟨l', hl⟩)] at hown
      exact absurd hown hnot
  · refine absurd ?_ hnot
    rw [← hown]
    cases a <;> rfl
  · exact absurd hown hnot

/-! ## The locks of console and scheduler -/

def Instr.consoleLock : Instr → Bool
  | .acquire l => l = .sched || l = .consoleRead
  | .spin l => l = .sched || l = .consoleRead
  | .release l => l = .sched || l = .consoleRead
  | .sleepEnter _ lk => lk = .consoleRead
  | _ => true

/-- Code that uses no other lock. -/
def OfConsole (k : Code) : Prop := k.all Instr.consoleLock = true

theorem ofConsole_append {f : Code} (hf : OfConsole f) (hk : OfConsole k) : OfConsole (f ++ k) := by
  rw [OfConsole, List.all_append, hf, hk]
  rfl

theorem OfConsole.uncons {i : Instr} (h : OfConsole (i :: k)) : i.consoleLock = true ∧ OfConsole k := by
  rwa [OfConsole, List.all_cons, Bool.and_eq_true] at h

theorem ofConsole_expand {i : Instr} {f : Code} (hx : Expands i f) (hi : i.consoleLock = true) :
    OfConsole f := by
  cases hx with
  | single _ => rfl
  | acquire l =>
      rw [OfConsole, List.all_cons, List.all_nil, Bool.and_true]
      exact hi
  | sleepEnter p chan lk =>
      have hlk : lk = .consoleRead := of_decide_eq_true hi
      rw [hlk]
      rfl
  | _ => rfl

theorem codeRule_ofConsole : CodeRule OfConsole fun e => e.takesNoLock = true where
  nil := rfl
  entry := rfl
  back := rfl
  expand hx h := ofConsole_append (ofConsole_expand hx h.uncons.1) h.uncons.2
  saved h := ofConsole_append (f := [.restoreInt _]) rfl h.uncons.2
  call {a b} ha := by
    cases a with
    | acquire l => cases ha
    | release l => cases ha
    | schedSleep chan lk => cases ha
    | syscall s => cases s <;> rfl
    | _ => rfl
  irq {u i k} h := by
    refine ofConsole_append ?_ (ofConsole_append (f := [.iret true]) rfl h)
    cases i with
    | com1 bytes => cases u <;> rfl
    | _ => rfl

/-- No other CPU holds the `console_read_lock` for which a CPU with `sched.lock`
spins. -/
def NoContention (m : Machine) : Prop :=
  ∀ c d, c ≠ d → m.owner .sched = some c → (m.next c).head? = some (.spin .consoleRead) →
    m.owner .consoleRead ≠ some d

theorem step_noContention (h : Inv m) (hn : NoContention m) (hlegal : Legal m c e)
    (hrule : Uncontended m c e) (hstep : step m c e = some m') : NoContention m' := by
  have helse := step_elsewhere h hlegal hstep
  intro a d hne hsched hspin hread
  by_cases ha : a = c
  · -- The CPU has just begun to acquire the lock, which was free.
    subst ha
    obtain ⟨rfl, ⟨k, hk⟩, howner⟩ := step_spin h hlegal hstep hspin
    rw [howner] at hsched hread
    rw [hrule.1 k hk hsched] at hread
    cases hread
  · rw [helse.frame.next h ha] at hspin
    rw [helse.owner a ha] at hsched
    by_cases hd : d = c
    · subst hd
      by_cases hold : m.owner .consoleRead = some d
      · exact hn a d hne hsched hspin hold
      · obtain ⟨rfl, k, hk⟩ := step_takes hstep hread hold
        exact hrule.2 k hk a ha hsched hspin
    · rw [helse.owner d hd] at hread
      exact hn a d hne hsched hspin hread

/-- While the lock order of a process back from its sleep is not contended, no two
CPUs wait for each other. -/
theorem run_no_deadlock
    (h : Keeps (fun m c e => e.takesNoLock = true ∧ Uncontended m c e) m) (c d : Nat) : ¬Deadlock m c d := by
  have hinv := h.reachable.inv
  have hcode : CodeInv OfConsole m := h.invariant (boot_codeInv codeRule_ofConsole)
    fun hm _ hc hlegal hrule he => hc.step codeRule_ofConsole hm hlegal hrule.1 he
  have hno : NoContention m := h.invariant (fun _ _ _ _ hx => by cases hx)
    fun hm _ hn hlegal hrule he => step_noContention hm hn hlegal hrule.2 he
  have hlock : ∀ {c l k}, m.next c = .spin l :: k → l = .sched ∨ l = .consoleRead := by
    intro c l k hk
    have := hcode.next c
    rw [hk] at this
    simpa [Instr.consoleLock] using this.uncons.1
  rintro ⟨hne, l, l', k, k', hc, hl, hd, hl'⟩
  -- The two locks differ, so one of them is `sched.lock`, whose holder spins for the other.
  rcases hlock hc with rfl | rfl
  · rcases hlock hd with rfl | rfl
    · rw [hl, Option.some.injEq] at hl'
      exact hne hl'.symm
    · exact hno d c hne.symm hl (by rw [hd]; rfl) hl'
  · rcases hlock hd with rfl | rfl
    · exact hno c d hne hl' (by rw [hc]; rfl) hl
    · rw [hl, Option.some.injEq] at hl'
      exact hne hl'.symm

end

/-! ## Two runs -/

/-- CPU 1 idles.  CPU 0 runs a process that sleeps in `console_getc` until an
interrupt on CPU 1 wakes it, and comes back after a timer interrupt, up to the
`acquire` of `console_read_lock` that follows. -/
def wokenRun : List (Nat × Event) :=
  (1, .call .schedStart) :: execs 1 8 ++
  [(0, .call (.schedCreateKproc (.user 0))), (0, .call (.schedAdd (.user 0)))] ++ execs 0 5 ++
  (0, .call .schedStart) :: execs 0 8 ++
  (0, .call .consoleGetc) :: execs 0 16 ++
  (1, .irq (.com1 [65])) :: execs 1 12 ++
  (0, .irq .timer) :: execs 0 13

def checkUncontended (m : Machine) (c : Nat) : Event → Bool
  | .exec =>
      match (m.next c).head? with
      | some (.acquire .consoleRead) => m.owner .consoleRead = none || m.owner .sched ≠ some c
      | some (.spin .consoleRead) => m.owner .sched = none || m.owner .sched = some c
      | _ => true
  | _ => true

theorem uncontended_of_check {m : Machine} {c : Nat} {e : Event} (h : checkUncontended m c e = true) :
    Uncontended m c e := by
  cases e with
  | exec =>
      refine ⟨fun k hk hsched => ?_, fun k hk d hd hsched => ?_⟩
      · simp only [checkUncontended, hk, List.head?_cons] at h
        simpa [hsched] using h
      · simp only [checkUncontended, hk, List.head?_cons] at h
        rw [hsched] at h
        exact absurd (by simpa using h) hd
  | irq i => trivial
  | call a => trivial

/-- A process back from its sleep takes `console_read_lock` while another CPU is
idle. -/
theorem run_no_deadlock_woken : ∃ m, Keeps (fun m c e => e.takesNoLock = true ∧ Uncontended m c e) m ∧
    m.owner .sched = some 0 ∧ m.owner .consoleRead = some 0 ∧ ¬Deadlock m 0 1 := by
  obtain ⟨m, hm, htest⟩ := exists_keeps_of_replay
    (A := fun m c e => e.takesNoLock = true ∧ Uncontended m c e)
    (fun m c e => e.takesNoLock && checkUncontended m c e)
    (fun m c e _ h => (Bool.and_eq_true_iff.mp h).imp_right uncontended_of_check)
    (fun m => m.owner .sched = some 0 && m.owner .consoleRead = some 0) (wokenRun ++ execs 0 1)
    (by decide +kernel)
  simp only [Bool.and_eq_true, decide_eq_true_eq] at htest
  exact ⟨m, hm, htest.1, htest.2, run_no_deadlock hm 0 1⟩

/-- An interrupt on CPU 1 takes `console_read_lock` before the process does. -/
theorem exists_deadlock : ∃ m, Keeps (fun _ _ e => e.takesNoLock = true) m ∧ Deadlock m 0 1 := by
  obtain ⟨m, hm, htest⟩ := exists_keeps_of_replay (A := fun _ _ e => e.takesNoLock = true)
    (fun _ _ e => e.takesNoLock) (fun _ _ _ _ h => h)
    (fun m => (m.next 0).head? = some (.spin .consoleRead) && m.owner .consoleRead = some 1 &&
      (m.next 1).head? = some (.spin .sched) && m.owner .sched = some 0)
    (wokenRun ++ (1, .irq (.com1 [66])) :: execs 1 4) (by decide +kernel)
  simp only [Bool.and_eq_true, decide_eq_true_eq] at htest
  obtain ⟨⟨⟨h0, hread⟩, h1⟩, hsched⟩ := htest
  obtain ⟨k, hk⟩ := List.head?_eq_some_iff.mp h0
  obtain ⟨k', hk'⟩ := List.head?_eq_some_iff.mp h1
  exact ⟨m, hm, by decide, _, _, k, k', hk, hread, hk', hsched⟩

end Sched
end GuideOS
