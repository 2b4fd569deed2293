import GuideOS.Lib.Trace
import GuideOS.Proc.Sched.Replay

/-!
# Round-robin order

`sched_add`, `sched_wakeup` and the scheduler push at the back of the ready queue,
and only the schedulers take from its front.  So the processes leave the queue in
the order in which they entered it, over all CPUs, and a CPU goes idle only when
the queue is empty.
-/

namespace GuideOS
namespace Sched

/-- A step of one CPU that keeps to the demands on clients. -/
def LegalStep (m : Machine) (x : Nat × Event) (m' : Machine) : Prop :=
  Legal m x.1 x.2 ∧ step m x.1 x.2 = some m'

/-- The process that a step takes from the ready queue, if it does. -/
def takes (m : Machine) (c : Nat) : Event → List ProcId
  | .exec =>
      match m.next c with
      | .pick :: _ => m.readyQueue.take 1
      | _ => []
  | _ => []

/-- The processes taken from the ready queue in a run, in order. -/
def taken (l : List (Machine × (Nat × Event) × Machine)) : List ProcId :=
  l.flatMap fun x => takes x.1 x.2.1.1 x.2.1.2

section

variable {m m' : Machine} {c : Nat} {k : Code} {i : Instr} {e : Event}
variable {l : List (Machine × (Nat × Event) × Machine)}

theorem takes_exec (hnext : m.next c = i :: k) (hi : i ≠ .pick) : takes m c .exec = [] := by
  rw [takes, hnext]
  cases i with
  | pick => exact absurd rfl hi
  | _ => rfl

theorem takes_pick (hnext : m.next c = .pick :: k) : takes m c .exec = m.readyQueue.take 1 := by
  rw [takes, hnext]

/-! ## First in, first out -/

/-- An instruction takes the first process of the queue or adds behind the last. -/
theorem exec_fifo (hnext : m.next c = i :: k) (hexec : exec m c k i = some m') :
    ∃ pushed, m.readyQueue ++ pushed = takes m c .exec ++ m'.readyQueue := by
  cases i with
  | pick =>
      refine ⟨[], ?_⟩
      rw [takes_pick hnext, List.append_nil]
      simp only [exec] at hexec
      split at hexec <;> cases hexec
      · rename_i p ps hq
        rw [hq]
        rfl
      · rename_i hq
        rw [hq]
        exact hq.symm
  | addReady p =>
      cases hexec
      exact ⟨[p], by rw [takes_exec hnext Instr.noConfusion]; rfl⟩
  | pushReady p =>
      cases hexec
      exact ⟨[p], by rw [takes_exec hnext Instr.noConfusion]; rfl⟩
  | requeue =>
      rw [takes_exec hnext Instr.noConfusion, List.nil_append]
      simp only [exec] at hexec
      split at hexec
      · cases hexec
        exact ⟨[], List.append_nil _⟩
      · rename_i p _
        split at hexec
        · cases hexec
          exact ⟨[], List.append_nil _⟩
        · split at hexec <;> cases hexec
          · exact ⟨[p], rfl⟩
          · exact ⟨[], List.append_nil _⟩
  | _ =>
      rw [takes_exec hnext Instr.noConfusion, List.nil_append,
        (exec_untouched hexec).readyQueue (fun _ => Instr.noConfusion) Instr.noConfusion
          Instr.noConfusion (fun _ => Instr.noConfusion)]
      exact ⟨[], List.append_nil _⟩

theorem step_fifo (hstep : step m c e = some m') :
    ∃ pushed, m.readyQueue ++ pushed = takes m c e ++ m'.readyQueue := by
  obtain ⟨_, ⟨i, k, rfl, hnext, hexec⟩ | ⟨a, rfl, _, _, rfl⟩ | ⟨q, rfl, _, rfl⟩⟩ := step_cases hstep
  · exact exec_fifo hnext hexec
  · refine ⟨[], ?_⟩
    rw [(call_queues _).1, List.append_nil]
    rfl
  · exact ⟨[], List.append_nil _⟩

theorem run_fifo (t : Lib.Trace LegalStep m l m') :
    ∃ pushed, m.readyQueue ++ pushed = taken l ++ m'.readyQueue := by
  induction t with
  | nil m => exact ⟨[], List.append_nil _⟩
  | @cons m n m' x l hstep _ ih =>
      obtain ⟨first, hfirst⟩ := step_fifo hstep.2
      obtain ⟨rest, hrest⟩ := ih
      refine ⟨first ++ rest, ?_⟩
      have htaken : taken ((m, x, n) :: l) = takes m x.1 x.2 ++ taken l := List.flatMap_cons
      rw [htaken, ← List.append_assoc, hfirst, List.append_assoc, hrest, List.append_assoc]

/-! ## Idle CPUs -/

/-- The queue changes with `sched.lock` only. -/
theorem step_readyQueue (h : Inv m) (hstep : step m c e = some m') :
    m'.readyQueue = m.readyQueue ∨ m.owner .sched = some c := by
  have htyped := (h.cpus c).typed
  obtain ⟨_, ⟨i, k, _, hnext, hexec⟩ | ⟨a, _, _, _, rfl⟩ | ⟨q, _, _, rfl⟩⟩ := step_cases hstep
  · rw [hnext] at htyped
    have hsched : InScheduler (m.cpu c).running k (m.held c) → m.owner .sched = some c := fun hin =>
      Machine.mem_held.mp (by rw [hin.2.1]; exact Finset.mem_singleton_self _)
    cases i with
    | addReady p => exact Or.inr (Machine.mem_held.mp htyped.1)
    | pushReady p => exact Or.inr (Machine.mem_held.mp htyped.1)
    | pick => exact Or.inr (hsched htyped)
    | requeue => exact Or.inr (hsched htyped)
    | _ =>
        exact Or.inl ((exec_untouched hexec).readyQueue (fun _ => Instr.noConfusion)
          Instr.noConfusion Instr.noConfusion (fun _ => Instr.noConfusion))
  · exact Or.inl (call_queues a).1
  · exact Or.inl rfl

/-- Wherever an idle process has been picked, the queue is empty. -/
def IdlePicked (m : Machine) : Prop :=
  ∀ c d, (m.next c).head? = some (.dispatch (.idle d)) → m.readyQueue = []

/-- A scheduler that has picked the idle process has just seen the empty queue. -/
theorem pick_idle (h : Inv m) (hexec : exec m c k .pick = some m') {d : Nat}
    (hhead : (m'.next c).head? = some (.dispatch (.idle d))) : m'.readyQueue = [] := by
  simp only [exec] at hexec
  split at hexec
  · rename_i p ps hq
    have hgo := Option.some.inj hexec
    rw [← hgo, Machine.next_goto] at hhead
    have hp : p = .idle d := Instr.dispatch.inj (Option.some.inj hhead)
    have hat : At m .ready (.idle d) := by
      show .idle d ∈ m.readyQueue
      rw [hq, hp]
      exact List.mem_cons_self
    exact absurd hat (h.idle_not_queued d fun _ e => by cases e)
  · rename_i hq
    cases hexec
    exact hq

theorem step_idlePicked (h : Inv m) (hi : IdlePicked m) (hlegal : Legal m c e)
    (hstep : step m c e = some m') : IdlePicked m' := by
  have helse := step_elsewhere h hlegal hstep
  intro a d hhead
  by_cases ha : a = c
  · subst ha
    obtain ⟨rfl, i, k, hnext, hexec, ⟨_, _, hj⟩ | ⟨_, rfl, _⟩ | ⟨_, hj⟩ | ⟨_, _, _, _, hj⟩ | ⟨_, hj⟩⟩ :=
      step_headOnly h hlegal hstep hhead rfl
    · cases hj
    · exact pick_idle h hexec hhead
    · cases hj
    · cases hj
    · cases hj
  · rw [helse.frame.next h ha] at hhead
    have hempty := hi a d hhead
    rcases step_readyQueue h hstep with hsame | hown
    · rw [hsame, hempty]
    · -- The CPU that has picked its idle process holds `sched.lock`.
      obtain ⟨k, hk⟩ := List.head?_eq_some_iff.mp hhead
      have htyped := (h.cpus a).typed
      rw [hk] at htyped
      have hown' : m.owner .sched = some a :=
        Machine.mem_held.mp (by rw [htyped.2.1]; exact Finset.mem_singleton_self _)
      rw [hown, Option.some.injEq] at hown'
      exact absurd hown'.symm ha

theorem Reachable.idlePicked (h : Reachable m) : IdlePicked m := by
  induction h with
  | boot uartEnable => exact fun _ _ hx => by cases hx
  | step hm hlegal hstep ih => exact step_idlePicked hm.inv ih hlegal hstep

/-- An idle process becomes the current one by `dispatch` only. -/
theorem step_goes_idle (h : Reachable m) (hstep : step m c e = some m') {d : Nat}
    (hnew : (m'.cpu c).proc = some (.idle d)) (hold : (m.cpu c).proc ≠ some (.idle d)) :
    m.readyQueue = [] := by
  obtain ⟨_, ⟨i, k, _, hnext, hexec⟩ | ⟨a, _, _, _, rfl⟩ | ⟨q, _, _, rfl⟩⟩ := step_cases hstep
  · cases i with
    | dispatch p =>
        rw [(dispatch_cases h.inv hnext hexec).2.2.2.2.2] at hnew
        obtain rfl : p = .idle d := Option.some.inj hnew
        exact h.idlePicked c d (by rw [hnext]; rfl)
    | clearProc =>
        cases hexec
        have : ((m.setCpu c { m.cpu c with proc := none }).cpu c).proc = some (.idle d) := hnew
        rw [Machine.setCpu_cpu_self] at this
        cases this
    | startCpu =>
        simp only [exec] at hexec
        split at hexec <;> cases hexec
        · exact absurd (by simpa [Machine.fail] using hnew) hold
        have : ((m.setCpu c { m.cpu c with proc := none, intFlag := true }).cpu c).proc =
          some (.idle d) := hnew
        rw [Machine.setCpu_cpu_self] at this
        cases this
    | _ =>
        rw [exec_cpuProc (fun _ => Instr.noConfusion) Instr.noConfusion Instr.noConfusion hexec] at hnew
        exact absurd hnew hold
  · refine absurd ?_ hold
    rw [← hnew]
    cases a with
    | curproc => simp [call]
    | setInterrupt on => simp [call]
    | _ => rfl
  · exact absurd (by simpa using hnew) hold

/-! ## From the queue to the CPU -/

/-- A scheduler that has picked a process dispatches it with its next step: it holds
`sched.lock`, so that no interrupt comes in between. -/
theorem step_dispatch (h : Inv m) {p : ProcId} (hnext : m.next c = [.dispatch p])
    (hstep : step m c e = some m') :
    (m'.cpu c).proc = some p ∧ (m'.cpu c).running = .proc p ∧ (m'.proc p).state = .running := by
  have hin := (h.cpus c).typed
  rw [hnext] at hin
  obtain ⟨hpanic, ⟨i, k, _, hnext', hexec⟩ | ⟨a, _, hnil, _, _⟩ | ⟨q, _, hflag, _⟩⟩ := step_cases hstep
  · rw [hnext] at hnext'
    obtain ⟨rfl, rfl⟩ := List.cons.inj hnext'
    have hcpu := (dispatch_cases h hnext hexec).2.2.2.2.2
    refine ⟨by rw [hcpu], by rw [hcpu], ?_⟩
    cases hexec
    show ((Machine.setProc _ p _).proc p).state = .running
    rw [Machine.setProc_proc_self]
  · rw [hnext] at hnil
    cases hnil
  · have hlayer := h.layer_eq_one hpanic (by rw [hnext]; rfl) hin.2.1
    rw [(h.cpus c).off (by rw [hlayer]; decide)] at hflag
    cases hflag

/-- The process that a step takes from the ready queue becomes the current process of that
CPU with the CPU's next step, whatever the other CPUs do in between. -/
theorem taken_dispatched (h : Reachable m) {m₁ m₂ : Machine} {p : ProcId} {e' : Event} (hlegal : Legal m c e)
    (hstep : step m c e = some m₁) (htake : takes m c e = [p]) (t : Lib.Trace LegalStep m₁ l m₂)
    (hothers : ∀ x ∈ l, x.2.1.1 ≠ c) (hstep' : step m₂ c e' = some m') :
    (m'.cpu c).proc = some p ∧ (m'.cpu c).running = .proc p ∧ (m'.proc p).state = .running := by
  have hpicked : m₁.next c = [.dispatch p] := by
    obtain ⟨_, ⟨i, k, rfl, hnext, hexec⟩ | ⟨a, rfl, _⟩ | ⟨q, rfl, _⟩⟩ := step_cases hstep
    · by_cases hi : i = .pick
      · subst hi
        rw [takes_pick hnext] at htake
        simp only [exec] at hexec
        split at hexec <;> cases hexec
        · rename_i q qs hq
          rw [hq] at htake
          obtain rfl : q = p := List.head_eq_of_cons_eq htake
          exact Machine.next_goto
        · rename_i hq
          rw [hq] at htake
          cases htake
      · rw [takes_exec hnext hi] at htake
        cases htake
    · cases htake
    · cases htake
  -- Until the CPU goes on, its code is the dispatch.
  have hkept : Reachable m₂ ∧ m₂.next c = [.dispatch p] := by
    refine t.forward (P := fun n => Reachable n ∧ n.next c = [.dispatch p]) (A := fun _ x => x.1 ≠ c)
      (fun {n x n'} hx hn hs => ?_) hothers ⟨.step h hlegal hstep, hpicked⟩
    have helse := step_elsewhere hn.1.inv hs.1 hs.2
    exact ⟨.step hn.1 hs.1 hs.2, (helse.frame.next hn.1.inv (Ne.symm hx)).trans hn.2⟩
  exact step_dispatch hkept.1.inv hkept.2 hstep'

/-! ## Order of the run -/

/-- What a queue that is taken from in front and filled behind does with one of its
elements. -/
theorem prefix_or_kept {α : Type*} {ahead behind pushed front rest : List α} {p : α}
    (h : (ahead ++ p :: behind) ++ pushed = front ++ rest) :
    ahead ++ [p] <+: front ∨ ∃ left behind', ahead = front ++ left ∧ rest = left ++ p :: behind' := by
  have hall : ahead ++ [p] ++ (behind ++ pushed) = front ++ rest := by
    rw [← h]
    simp
  rcases List.append_eq_append_iff.mp hall with ⟨x, hfront, _⟩ | ⟨x, hahead, hrest⟩
  · exact Or.inl ⟨x, hfront.symm⟩
  · rcases List.eq_nil_or_concat x with rfl | ⟨left, y, rfl⟩
    · rw [List.append_nil] at hahead
      exact Or.inl (by rw [hahead])
    · rw [List.concat_eq_append, ← List.append_assoc] at hahead
      have hlast : [p] = [y] := List.append_inj_right' hahead rfl
      obtain rfl : p = y := by simpa using hlast
      exact Or.inr ⟨left, behind ++ pushed, List.append_inj_left' hahead rfl, by rw [hrest]; simp⟩

/-- In every run the processes taken from the ready queue begin with those ahead of a
process and the process itself, or are some of those ahead of it, and then the process
is still in the queue behind the others.  A CPU goes idle only when the queue is empty. -/
theorem run_roundRobin (h : Reachable m) (t : Lib.Trace LegalStep m l m') :
    (∀ ahead p behind, m.readyQueue = ahead ++ p :: behind →
      ahead ++ [p] <+: taken l ∨
        ∃ left behind', ahead = taken l ++ left ∧ m'.readyQueue = left ++ p :: behind') ∧
      ∀ x ∈ l, ∀ d, (x.1.cpu x.2.1.1).proc ≠ some (.idle d) →
        (x.2.2.cpu x.2.1.1).proc = some (.idle d) → x.1.readyQueue = [] := by
  refine ⟨fun ahead p behind hq => ?_, fun x hx d hold hnew => ?_⟩
  · obtain ⟨pushed, hrun⟩ := run_fifo t
    rw [hq] at hrun
    exact prefix_or_kept hrun
  · obtain ⟨l₁, _, hbefore, hstep, _⟩ := t.split hx
    have hreach : Reachable x.1 := hbefore.invariant (fun hm hs => .step hm hs.1 hs.2) h
    exact step_goes_idle hreach hstep.2 hnew hold

theorem exists_trace_of_replay {ok : Machine → Nat → Event → Bool} (h : Reachable m)
    (es : List (Nat × Event)) (hrun : es.foldlM (replayStep ok) m = some m') :
    ∃ l, Lib.Trace LegalStep m l m' := by
  induction es generalizing m with
  | nil =>
      obtain rfl : m = m' := by simpa using hrun
      exact ⟨[], .nil m⟩
  | cons x es ih =>
      obtain ⟨n, hn, hrest⟩ := Option.bind_eq_some_iff.mp
        (show (replayStep ok m x).bind _ = some m' from hrun)
      rw [replayStep] at hn
      split at hn
      · rename_i hpass
        have hlegal := legal_of_check h.inv (Bool.and_eq_true_iff.mp hpass).1
        obtain ⟨l, hl⟩ := ih (.step h hlegal hn) hrest
        exact ⟨_, .cons ⟨hlegal, hn⟩ hl⟩
      · cases hn

end

/-- Two processes are added. -/
def addRun : List (Nat × Event) :=
  (0, .call (.schedCreateKproc (.user 0))) :: (0, .call (.schedAdd (.user 0))) :: execs 0 5 ++
  (0, .call (.schedCreateKproc (.user 1))) :: (0, .call (.schedAdd (.user 1))) :: execs 0 5

/-- CPU 1 takes the first of the two processes and CPU 0 the second. -/
def takeRun : List (Nat × Event) :=
  (1, .call .schedStart) :: execs 1 7 ++ (0, .call .schedStart) :: execs 0 4

theorem run_roundRobin_two : ∃ m l m', Reachable m ∧ Lib.Trace LegalStep m l m' ∧
    m.readyQueue = [.user 0, .user 1] ∧ m'.readyQueue = [] ∧ [.user 0, .user 1] <+: taken l := by
  have hadd : ((addRun.foldlM (replayStep fun _ _ _ => true) (Machine.boot true)).any fun m =>
      m.readyQueue = [.user 0, .user 1] &&
        (takeRun.foldlM (replayStep fun _ _ _ => true) m).any fun m' => m'.readyQueue = []) = true := by
    decide +kernel
  obtain ⟨m, hm, htest⟩ := (Option.any_eq_true _ _).mp hadd
  rw [Bool.and_eq_true, decide_eq_true_eq] at htest
  obtain ⟨m', hm', hempty⟩ := (Option.any_eq_true _ _).mp htest.2
  have hq' : m'.readyQueue = [] := of_decide_eq_true hempty
  have hreach : Reachable m := ((Keeps.boot true).replay (A := fun _ _ _ => True)
    (fun _ _ _ _ _ => trivial) addRun hm).reachable
  obtain ⟨l, hl⟩ := exists_trace_of_replay hreach takeRun hm'
  refine ⟨m, l, m', hreach, hl, htest.1, hq', ?_⟩
  rcases (run_roundRobin hreach hl).1 [.user 0] (.user 1) [] htest.1 with htaken | ⟨left, _, _, hq⟩
  · exact htaken
  · rw [hq'] at hq
    exact absurd hq.symm (by simp)

end Sched
end GuideOS
