import GuideOS.Proc.Sched.Typing
import Mathlib.Data.Fintype.Option
import Mathlib.Data.List.Count

/-!
# The invariant of the machine

Three parts that need each other.  Each CPU counts its locks, keeps interrupts
off while it holds one, and runs typed code.  Each process that runs nowhere has
code that fits `sched.lock`.  Each process that was added is in one place: a
queue, the current process of a CPU, or in the hands of code that is moving it.
-/

namespace GuideOS
namespace Sched

/-! ## The machine after an update -/

namespace Machine

variable {m : Machine} {c c' : Nat} {k : Code} {x : Cpu}

@[simp] theorem setCpu_cpu_self : (m.setCpu c x).cpu c = x := Function.update_self ..

@[simp] theorem setCpu_cpu_ne (h : c' ≠ c) : (m.setCpu c x).cpu c' = m.cpu c' :=
  Function.update_of_ne h ..

@[simp] theorem setCpu_code : (m.setCpu c x).code = m.code := rfl

@[simp] theorem setProc_proc_self {p : ProcId} {y : Proc} : (m.setProc p y).proc p = y :=
  Function.update_self ..

@[simp] theorem setProc_proc_ne {p q : ProcId} {y : Proc} (h : q ≠ p) :
    (m.setProc p y).proc q = m.proc q :=
  Function.update_of_ne h ..

@[simp] theorem goto_cpu : (m.goto c k).cpu = m.cpu := rfl

@[simp] theorem next_goto : (m.goto c k).next c = k := Function.update_self ..

@[simp] theorem goto_code_ne {t : ThreadId} (h : t ≠ (m.cpu c).running) :
    (m.goto c k).code t = m.code t :=
  Function.update_of_ne h ..

theorem next_eq {m' : Machine} (hrun : (m'.cpu c).running = (m.cpu c).running)
    (hcode : m'.code (m.cpu c).running = m.code (m.cpu c).running) : m'.next c = m.next c := by
  rw [next, next, hrun, hcode]

theorem mem_held {l : LockId} : l ∈ m.held c ↔ m.owner l = some c := by
  simp [held]

theorem held_congr {m' : Machine} (h : ∀ l, m'.owner l = some c ↔ m.owner l = some c) :
    m'.held c = m.held c := by
  ext l
  rw [mem_held, mem_held, h]

end Machine

/-! ## Parts of the invariant -/

/-- The process has been made. -/
def Known (m : Machine) (p : ProcId) : Prop := (m.proc p).state ≠ .unused

/-- Instructions that are reached only as the next one: the exchange loop, and
those with a process in hand or between two places of it. -/
def Instr.headOnly : Instr → Bool
  | .spin _ => true
  | .dispatch _ => true
  | .pushReady _ => true
  | .requeue => true
  | .clearProc => true
  | _ => false

/-- Those of them with a process. -/
def Instr.moving : Instr → Bool
  | .spin _ => false
  | i => i.headOnly

def Still (k : Code) : Prop := ∀ i ∈ k, i.headOnly = false

def Plain (k : Code) : Prop := ∀ i ∈ k.head?, i.headOnly = false

def Settled (k : Code) : Prop := ∀ i ∈ k.head?, i.moving = false

/-- A CPU in the exchange loop has pushed its interrupt state for a lock it does
not hold yet. -/
def spinning : Code → Nat
  | .spin _ :: _ => 1
  | _ => 0

/-- Which thread a CPU runs. -/
inductive OnThread (m : Machine) (c : Nat) : Prop
  | sched (hrun : (m.cpu c).running = .cpu c) (hproc : (m.cpu c).proc = none)
  | back (p : ProcId) (hrun : (m.cpu c).running = .cpu c) (hproc : (m.cpu c).proc = some p)
      (hnext : m.next c = [.requeue] ∨ m.next c = [.clearProc])
  | proc (p : ProcId) (hrun : (m.cpu c).running = .proc p) (hproc : (m.cpu c).proc = some p)
      (hcode : m.code (.cpu c) = [.requeue])

structure CpuOk (m : Machine) (c : Nat) : Prop where
  layer : (m.cpu c).panicked ≠ some .acquire →
    (m.cpu c).intDisableLayer.toNat = (m.held c).card + spinning (m.next c)
  off : (m.cpu c).intDisableLayer ≠ 0 → (m.cpu c).intFlag = false
  typed : Typed (m.cpu c).running (m.next c) (m.held c)
  tail : Still (m.next c).tail
  hand : ∀ p, (m.next c).head? = some (.pushReady p) →
    (∃ n, p = .user n) ∧ (m.cpu c).proc ≠ some p
  thread : OnThread m c

/-- A process that runs nowhere waits to be switched to. -/
structure Resumable (m : Machine) (p : ProcId) : Prop where
  typed : Typed (.proc p) (m.code (.proc p)) {.sched}
  still : Still (m.code (.proc p))
  entry : (∃ b k, m.code (.proc p) = .restoreInt b :: k) ∨ ∃ k, m.code (.proc p) = .kentry :: k

/-- The code of a scheduler that has started. -/
def InSched (k : Code) : Prop :=
  .startCpu ∉ k ∧ (.pick ∈ k ∨ .requeue ∈ k ∨ .clearProc ∈ k ∨ ∃ p, .dispatch p ∈ k)

theorem inSched_pick : InSched [.pick] := ⟨by simp, Or.inl List.mem_cons_self⟩

theorem inSched_dispatch (p : ProcId) : InSched [.dispatch p] :=
  ⟨by simp, Or.inr (Or.inr (Or.inr ⟨p, List.mem_cons_self⟩))⟩

theorem inSched_requeue : InSched [.requeue] := ⟨by simp, Or.inr (Or.inl List.mem_cons_self)⟩

theorem inSched_clearProc : InSched [.clearProc] :=
  ⟨by simp, Or.inr (Or.inr (Or.inl List.mem_cons_self))⟩

inductive Place
  | ready
  | waiting
  | cpu (c : Nat)
deriving DecidableEq

/-- Where a process is.  At a CPU it is the current process, unless it has just
been queued, or it has been taken from one queue and not yet put elsewhere. -/
def At (m : Machine) : Place → ProcId → Prop
  | .ready, p => p ∈ m.readyQueue
  | .waiting, p => p ∈ m.waitingQueue
  | .cpu c, p => (m.cpu c).proc = some p ∧ m.next c ≠ [.clearProc] ∨
      (m.next c).head? = some (.dispatch p) ∨ (m.next c).head? = some (.pushReady p)

structure Placed (m : Machine) : Prop where
  unique : ∀ p x y, At m x p → At m y p → x = y
  somewhere : ∀ p ∈ m.added, ∃ x, At m x p
  origin : ∀ p x, At m x p → p ∈ m.added ∨ ∃ c, p = .idle c ∧ x = .cpu c
  known : ∀ p x, At m x p → Known m p
  ready : m.readyQueue.Nodup
  waiting : m.waitingQueue.Nodup
  user : ∀ p ∈ m.added, (∃ n, p = .user n) ∧ p ∈ m.passed

/-- The calls of `sched_add` that have not queued their process yet. -/
structure Adds (m : Machine) : Prop where
  pending : ∀ t p, .addReady p ∈ m.code t →
    (∃ n, p = .user n) ∧ Known m p ∧ p ∈ m.passed ∧ p ∉ m.added
  caller : ∀ t p, .addReady p ∈ m.code t → isIdle t = false ∧ ∀ q, t = .proc q → Known m q
  covered : ∀ p ∈ m.passed, p ∈ m.added ∨ ∃ t, .addReady p ∈ m.code t
  once : ∀ t p, (m.code t).count (.addReady p) ≤ 1
  unique : ∀ t t' p, .addReady p ∈ m.code t → .addReady p ∈ m.code t' → t = t'

structure Inv (m : Machine) : Prop where
  cpus : ∀ c, CpuOk m c
  resume : ∀ p, Known m p → (∀ c, (m.cpu c).running ≠ .proc p) → Resumable m p
  idle : ∀ c, InSched (m.code (.cpu c)) ↔ Known m (.idle c)
  placed : Placed m
  adds : Adds m

/-! ## Consequences -/

theorem OnThread.running_eq {m : Machine} {c : Nat} (h : OnThread m c) :
    (m.cpu c).running = .cpu c ∨ ∃ p, (m.cpu c).running = .proc p ∧ (m.cpu c).proc = some p := by
  cases h with
  | sched hrun _ => exact Or.inl hrun
  | back _ hrun _ _ => exact Or.inl hrun
  | proc p hrun hproc _ => exact Or.inr ⟨p, hrun, hproc⟩

/-- The process a CPU runs is its current process, and is at that CPU. -/
theorem Inv.at_running {m : Machine} (h : Inv m) {c : Nat} {p : ProcId}
    (hrun : (m.cpu c).running = .proc p) : At m (.cpu c) p := by
  rcases (h.cpus c).thread.running_eq with hcpu | ⟨q, hq, hproc⟩
  · rw [hrun] at hcpu
    cases hcpu
  · rw [hrun, ThreadId.proc.injEq] at hq
    subst hq
    refine Or.inl ⟨hproc, fun hclear => ?_⟩
    have htyped := (h.cpus c).typed
    rw [hclear, hrun] at htyped
    obtain ⟨⟨_, ht⟩, _⟩ := htyped
    cases ht

/-- Two CPUs never run the same thread. -/
theorem Inv.running_ne {m : Machine} (h : Inv m) {c c' : Nat} (hne : c' ≠ c) :
    (m.cpu c').running ≠ (m.cpu c).running := by
  intro e
  rcases (h.cpus c).thread.running_eq with hc | ⟨p, hp, _⟩
  · rcases (h.cpus c').thread.running_eq with hc' | ⟨q, hq, _⟩
    · rw [hc, hc', ThreadId.cpu.injEq] at e
      exact hne e
    · rw [hc, hq] at e
      cases e
  · have := h.placed.unique p _ _ (h.at_running (e.trans hp)) (h.at_running hp)
    rw [Place.cpu.injEq] at this
    exact hne this

theorem Inv.known_running {m : Machine} (h : Inv m) {c : Nat} {p : ProcId}
    (hrun : (m.cpu c).running = .proc p) : Known m p :=
  h.placed.known p _ (h.at_running hrun)

theorem Inv.idle_running {m : Machine} (h : Inv m) {c c' : Nat}
    (hrun : (m.cpu c).running = .proc (.idle c')) : c = c' := by
  rcases h.placed.origin _ _ (h.at_running hrun) with hadd | ⟨d, hd, hx⟩
  · obtain ⟨⟨n, hn⟩, _⟩ := h.placed.user _ hadd
    cases hn
  · cases hd
    cases hx
    rfl

/-- The two named locks and a number for each of the others. -/
def LockId.index : LockId → Option (Option (Fin maxLocks))
  | .sched => none
  | .consoleRead => some none
  | .other n => some (some n)

theorem LockId.index_injective : Function.Injective LockId.index := by
  intro l l' h
  cases l <;> cases l' <;> simp_all [LockId.index]

/-- The locks of a CPU fit its counter. -/
theorem card_held_lt (m : Machine) (c : Nat) : (m.held c).card + 2 < 2 ^ 32 := by
  have hcard := Fintype.card_le_of_injective _ LockId.index_injective
  rw [Fintype.card_option, Fintype.card_option, Fintype.card_fin, maxLocks] at hcard
  have := (Finset.card_le_univ (m.held c)).trans hcard
  omega

/-! ## What a step leaves alone -/

/-- A step of CPU `c` leaves the other CPUs, their locks, and the code of the
other threads, except of a process that is being made. -/
structure Frame (m : Machine) (c : Nat) (m' : Machine) : Prop where
  cpu : ∀ c' ≠ c, m'.cpu c' = m.cpu c'
  owner : ∀ c' ≠ c, ∀ l, m'.owner l = some c' ↔ m.owner l = some c'
  code : ∀ t, t ≠ (m.cpu c).running → (∀ p, t = .proc p → Known m p ∧ p ≠ .idle c) →
    m'.code t = m.code t

section

variable {m m' : Machine} {c c' : Nat}

theorem Frame.next (f : Frame m c m') (h : Inv m) (hne : c' ≠ c) : m'.next c' = m.next c' := by
  refine Machine.next_eq (by rw [f.cpu c' hne]) (f.code _ (h.running_ne hne) fun p hp => ?_)
  refine ⟨h.known_running hp, ?_⟩
  rintro rfl
  exact hne (h.idle_running hp)

theorem Frame.held (f : Frame m c m') (hne : c' ≠ c) : m'.held c' = m.held c' :=
  Machine.held_congr (f.owner c' hne)

theorem Frame.cpuCode (f : Frame m c m') (h : Inv m) (hne : c' ≠ c) :
    m'.code (.cpu c') = m.code (.cpu c') := by
  refine f.code _ (fun e => ?_) fun p hp => by cases hp
  rcases (h.cpus c).thread.running_eq with hc | ⟨p, hp, _⟩
  · rw [hc, ThreadId.cpu.injEq] at e
    exact hne e
  · rw [hp] at e
    cases e

theorem Frame.cpuOk (f : Frame m c m') (h : Inv m) (hne : c' ≠ c) : CpuOk m' c' := by
  obtain ⟨hlayer, hoff, htyped, htail, hhand, hthread⟩ := h.cpus c'
  have hcpu := f.cpu c' hne
  have hnext := f.next h hne
  constructor
  · rw [hcpu, f.held hne, hnext]
    exact hlayer
  · rw [hcpu]
    exact hoff
  · rw [hcpu, f.held hne, hnext]
    exact htyped
  · rw [hnext]
    exact htail
  · rw [hnext, hcpu]
    exact hhand
  · cases hthread with
    | sched hrun hproc => exact .sched (by rw [hcpu, hrun]) (by rw [hcpu, hproc])
    | back p hrun hproc hback =>
        exact .back p (by rw [hcpu, hrun]) (by rw [hcpu, hproc]) (by rw [hnext]; exact hback)
    | proc p hrun hproc hcode =>
        exact .proc p (by rw [hcpu, hrun]) (by rw [hcpu, hproc]) (by rw [f.cpuCode h hne, hcode])

theorem Frame.at_cpu (f : Frame m c m') (h : Inv m) (hne : c' ≠ c) {p : ProcId} :
    At m' (.cpu c') p ↔ At m (.cpu c') p := by
  rw [At, At, f.cpu c' hne, f.next h hne]

/-- All CPUs are in order once the one that moved is. -/
theorem Frame.cpus (f : Frame m c m') (h : Inv m) (hc : CpuOk m' c) (c' : Nat) : CpuOk m' c' := by
  by_cases hne : c' = c
  · rw [hne]
    exact hc
  · exact f.cpuOk h hne

end

/-! ## Steps that move no process and take no lock -/

/-- CPU `c` goes on with the code `k'`; of the shared state only process records
and the console buffer change. -/
structure Quiet (m : Machine) (c : Nat) (k' : Code) (m' : Machine) : Prop where
  cpu : ∀ c' ≠ c, m'.cpu c' = m.cpu c'
  running : (m'.cpu c).running = (m.cpu c).running
  proc : (m'.cpu c).proc = (m.cpu c).proc
  layer : (m'.cpu c).intDisableLayer = (m.cpu c).intDisableLayer
  off : (m'.cpu c).intDisableLayer ≠ 0 → (m'.cpu c).intFlag = false
  owner : m'.owner = m.owner
  code : m'.code = Function.update m.code (m.cpu c).running k'
  ready : m'.readyQueue = m.readyQueue
  waiting : m'.waitingQueue = m.waitingQueue
  added : m'.added = m.added
  passed : ∀ p ∈ m.passed, p ∈ m'.passed
  known : ∀ p, Known m' p ↔ Known m p

section

variable {m m' : Machine} {c : Nat} {k' : Code}

theorem Quiet.next_self (q : Quiet m c k' m') : m'.next c = k' := by
  rw [Machine.next, q.running, q.code, Function.update_self]

theorem Quiet.code_ne (q : Quiet m c k' m') {t : ThreadId} (ht : t ≠ (m.cpu c).running) :
    m'.code t = m.code t := by
  rw [q.code, Function.update_of_ne ht]

theorem Quiet.frame (q : Quiet m c k' m') : Frame m c m' where
  cpu := q.cpu
  owner _ _ l := by rw [q.owner]
  code _ ht _ := q.code_ne ht

theorem Quiet.held (q : Quiet m c k' m') (c' : Nat) : m'.held c' = m.held c' :=
  Machine.held_congr fun l => by rw [q.owner]

theorem Still.plain {k : Code} (h : Still k) : Plain k := fun i hi => h i (List.mem_of_mem_head? hi)

theorem Still.tail {k : Code} (h : Still k) : Still k.tail := fun i hi => h i (List.mem_of_mem_tail hi)

theorem Plain.spinning {k : Code} (h : Plain k) : spinning k = 0 := by
  cases k with
  | nil => rfl
  | cons i k => cases i <;> first | rfl | exact Bool.noConfusion (h _ rfl)

theorem Plain.settled {k : Code} (h : Plain k) : Settled k := fun i hi => by
  have := h i hi
  cases i <;> first | rfl | exact this

theorem Settled.head_ne {k : Code} (h : Settled k) {i : Instr} (hi : i.moving = true) :
    k.head? ≠ some i := by
  intro e
  rw [h i e] at hi
  cases hi

theorem Settled.ne_singleton {k : Code} (h : Settled k) {i : Instr} (hi : i.moving = true) :
    k ≠ [i] := by
  rintro rfl
  exact h.head_ne hi rfl

/-- Away from the moving instructions a process at a CPU is its current one. -/
theorem at_cpu_of_settled (h : Settled (m.next c)) {p : ProcId} :
    At m (.cpu c) p ↔ (m.cpu c).proc = some p := by
  simp [At, h.ne_singleton (i := .clearProc) rfl, h.head_ne (i := .dispatch p) rfl,
    h.head_ne (i := .pushReady p) rfl]

/-- CPU `c` goes on with the code `k'` on the thread it is on. -/
structure Local (m : Machine) (c : Nat) (k' : Code) (m' : Machine) : Prop where
  frame : Frame m c m'
  running : (m'.cpu c).running = (m.cpu c).running
  code : m'.code = Function.update m.code (m.cpu c).running k'
  known : ∀ p, Known m' p ↔ Known m p

theorem Local.next_self (q : Local m c k' m') : m'.next c = k' := by
  rw [Machine.next, q.running, q.code, Function.update_self]

theorem Local.at_iff (q : Local m c k' m') (h : Inv m) (hproc : (m'.cpu c).proc = (m.cpu c).proc)
    (hready : m'.readyQueue = m.readyQueue) (hwaiting : m'.waitingQueue = m.waitingQueue)
    (hold : Settled (m.next c)) (hnew : Settled k') (x : Place) (p : ProcId) :
    At m' x p ↔ At m x p := by
  cases x with
  | ready => simp [At, hready]
  | waiting => simp [At, hwaiting]
  | cpu c' =>
      by_cases hne : c' = c
      · subst hne
        rw [at_cpu_of_settled hold, at_cpu_of_settled (by rw [q.next_self]; exact hnew), hproc]
      · exact q.frame.at_cpu h hne

/-- The places stay as they are. -/
theorem Placed.congr (h : Placed m) (hat : ∀ x p, At m' x p ↔ At m x p)
    (hadded : m'.added = m.added) (hpassed : ∀ p ∈ m.passed, p ∈ m'.passed)
    (hknown : ∀ p, Known m p → Known m' p) (hready : m'.readyQueue = m.readyQueue)
    (hwaiting : m'.waitingQueue = m.waitingQueue) : Placed m' where
  unique p x y hx hy := h.unique p x y ((hat x p).mp hx) ((hat y p).mp hy)
  somewhere p hp := by
    rw [hadded] at hp
    obtain ⟨x, hx⟩ := h.somewhere p hp
    exact ⟨x, (hat x p).mpr hx⟩
  origin p x hx := by
    rw [hadded]
    exact h.origin p x ((hat x p).mp hx)
  known p x hx := hknown p (h.known p x ((hat x p).mp hx))
  ready := by
    rw [hready]
    exact h.ready
  waiting := by
    rw [hwaiting]
    exact h.waiting
  user p hp := by
    rw [hadded] at hp
    exact ⟨(h.user p hp).1, hpassed p (h.user p hp).2⟩

/-- The code of one thread changes to code with the same calls of `sched_add`. -/
theorem Adds.goto (h : Adds m) {t : ThreadId} (hcode : m'.code = Function.update m.code t k')
    (hcount : ∀ p, k'.count (.addReady p) = (m.code t).count (.addReady p))
    (hadded : m'.added = m.added) (hpassed : m'.passed = m.passed)
    (hknown : ∀ p, Known m p → Known m' p) : Adds m' := by
  have hcount' : ∀ u p, (m'.code u).count (.addReady p) = (m.code u).count (.addReady p) := by
    intro u p
    rw [hcode]
    by_cases hu : u = t
    · rw [hu, Function.update_self, hcount]
    · rw [Function.update_of_ne hu]
  have hmem : ∀ {u p}, .addReady p ∈ m'.code u ↔ .addReady p ∈ m.code u := by
    intro u p
    rw [← List.count_pos_iff, hcount', List.count_pos_iff]
  constructor
  · intro u p hp
    obtain ⟨hn, hk, hpass, hadd⟩ := h.pending u p (hmem.mp hp)
    exact ⟨hn, hknown p hk, by rw [hpassed]; exact hpass, by rw [hadded]; exact hadd⟩
  · intro u p hp
    obtain ⟨hidle, hcall⟩ := h.caller u p (hmem.mp hp)
    exact ⟨hidle, fun q hq => hknown q (hcall q hq)⟩
  · intro p hp
    rw [hpassed] at hp
    rw [hadded]
    exact (h.covered p hp).imp id fun ⟨u, hu⟩ => ⟨u, hmem.mpr hu⟩
  · intro u p
    rw [hcount']
    exact h.once u p
  · intro u u' p hp hp'
    exact h.unique u u' p (hmem.mp hp) (hmem.mp hp')

/-- The code of the thread CPU `c` was on becomes `k'`; if the CPU leaves the
thread, the thread can be resumed. -/
theorem Inv.of_frame (h : Inv m) (f : Frame m c m')
    (hcode : m'.code = Function.update m.code (m.cpu c).running k')
    (hknown : ∀ p, Known m' p ↔ Known m p) (hc : CpuOk m' c) (hplaced : Placed m')
    (hadds : Adds m')
    (hleft : ∀ p, (m.cpu c).running = .proc p → (m'.cpu c).running ≠ .proc p → Resumable m' p)
    (hsched : InSched k' ↔ InSched (m.next c)) : Inv m' := by
  have hne : ∀ {t}, t ≠ (m.cpu c).running → m'.code t = m.code t := fun ht => by
    rw [hcode, Function.update_of_ne ht]
  refine ⟨f.cpus h hc, ?_, ?_, hplaced, hadds⟩
  · intro p hp hno
    by_cases hrun : (m.cpu c).running = .proc p
    · exact hleft p hrun (hno c)
    · have hno' : ∀ c', (m.cpu c').running ≠ .proc p := fun c' => by
        by_cases hcc : c' = c
        · rw [hcc]
          exact hrun
        · rw [← f.cpu c' hcc]
          exact hno c'
      have hp' := Ne.symm hrun
      obtain ⟨ht, hs, he⟩ := h.resume p ((hknown p).mp hp) hno'
      exact ⟨by rw [hne hp']; exact ht, by rw [hne hp']; exact hs, by rw [hne hp']; exact he⟩
  · intro c'
    rw [hknown, ← h.idle c']
    by_cases hc' : (.cpu c' : ThreadId) = (m.cpu c).running
    · rw [hcode, hc', Function.update_self]
      exact hsched
    · rw [hne hc']

theorem Inv.of_local (h : Inv m) (q : Local m c k' m') (hc : CpuOk m' c) (hplaced : Placed m')
    (hadds : Adds m') (hsched : InSched k' ↔ InSched (m.next c)) : Inv m' :=
  h.of_frame q.frame q.code q.known hc hplaced hadds
    (fun p hp hne => absurd (by rw [q.running, hp]) hne) hsched

/-- The thread of a CPU after a step that is no context switch. -/
theorem OnThread.goto (h : OnThread m c) (q : Local m c k' m') (hold : Settled (m.next c))
    (hproc : (m'.cpu c).proc = (m.cpu c).proc) : OnThread m' c := by
  cases h with
  | sched hrun hp => exact .sched (by rw [q.running, hrun]) (by rw [hproc, hp])
  | back p hrun hp hback =>
      rcases hback with hback | hback
      · exact absurd hback (hold.ne_singleton rfl)
      · exact absurd hback (hold.ne_singleton rfl)
  | proc p hrun hp hcode =>
      refine .proc p (by rw [q.running, hrun]) (by rw [hproc, hp]) ?_
      rw [q.code, Function.update_of_ne (by rw [hrun]; exact ThreadId.noConfusion), hcode]

theorem Quiet.toLocal (q : Quiet m c k' m') : Local m c k' m' :=
  ⟨q.frame, q.running, q.code, q.known⟩

theorem Inv.quiet_of_adds (h : Inv m) {f : Code} (hpanic : (m.cpu c).panicked = none) (q : Quiet m c f m')
    (hold : Plain (m.next c)) (hnew : Still f)
    (htyped : Typed (m.cpu c).running f (m.held c)) (hadds : Adds m')
    (hsched : InSched f ↔ InSched (m.next c)) : Inv m' := by
  have hat := q.toLocal.at_iff h q.proc q.ready q.waiting hold.settled hnew.plain.settled
  obtain ⟨hlayer, _, _, _, _, hthread⟩ := h.cpus c
  refine h.of_local q.toLocal
    ⟨fun _ => ?_, q.off, ?_, ?_, ?_, hthread.goto q.toLocal hold.settled q.proc⟩
    (h.placed.congr hat q.added q.passed (fun p => (q.known p).mpr) q.ready q.waiting) hadds hsched
  · rw [q.layer, q.held, q.next_self, hnew.plain.spinning, ← hold.spinning]
    exact hlayer (by simp [hpanic])
  · rw [q.running, q.next_self, q.held]
    exact htyped
  · rw [q.next_self]
    exact hnew.tail
  · intro p hp
    rw [q.next_self] at hp
    exact absurd hp (hnew.plain.settled.head_ne rfl)

theorem Inv.quiet (h : Inv m) {f : Code} (hpanic : (m.cpu c).panicked = none) (q : Quiet m c f m')
    (hold : Plain (m.next c)) (hnew : Still f)
    (htyped : Typed (m.cpu c).running f (m.held c))
    (hcount : ∀ p, f.count (.addReady p) = (m.next c).count (.addReady p))
    (hpassed : m'.passed = m.passed) (hsched : InSched f ↔ InSched (m.next c)) : Inv m' :=
  h.quiet_of_adds hpanic q hold hnew htyped
    (h.adds.goto q.code hcount q.added hpassed fun p => (q.known p).mpr) hsched

end

end Sched
end GuideOS
