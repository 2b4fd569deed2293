import GuideOS.Proc.Sched.Preserve

/-!
# Moves and context switches

The instructions that take a process from one place to another, and the two that
change the thread a CPU runs.
-/

namespace GuideOS
namespace Sched

section

variable {m m' : Machine} {c : Nat} {k k' : Code}

/-! ## Places after a step -/

theorem Frame.at_iff (f : Frame m c m') (h : Inv m) {q : ProcId}
    (hready : q ∈ m'.readyQueue ↔ q ∈ m.readyQueue)
    (hwaiting : q ∈ m'.waitingQueue ↔ q ∈ m.waitingQueue)
    (hcpu : At m' (.cpu c) q ↔ At m (.cpu c) q) (x : Place) : At m' x q ↔ At m x q := by
  cases x with
  | ready => exact hready
  | waiting => exact hwaiting
  | cpu c' =>
      by_cases hne : c' = c
      · rw [hne]
        exact hcpu
      · exact f.at_cpu h hne

/-- A process that was at no other CPU is at `y` only. -/
theorem Frame.at_only (f : Frame m c m') (h : Inv m) {p : ProcId} {y : Place}
    (hno : ∀ c' ≠ c, ¬At m (.cpu c') p) (hy : ∀ c' ≠ c, y ≠ .cpu c')
    (hready : p ∈ m'.readyQueue ↔ y = .ready) (hwaiting : p ∈ m'.waitingQueue ↔ y = .waiting)
    (hcpu : At m' (.cpu c) p ↔ y = .cpu c) (x : Place) : At m' x p ↔ x = y := by
  rw [eq_comm]
  cases x with
  | ready => exact hready
  | waiting => exact hwaiting
  | cpu c' =>
      by_cases hne : c' = c
      · rw [hne]
        exact hcpu
      · rw [f.at_cpu h hne]
        exact iff_of_false (hno c' hne) (hy c' hne)

/-- The places of one process change. -/
theorem Placed.change (h : Placed m) {p : ProcId}
    (hother : ∀ q ≠ p, ∀ x, At m' x q ↔ At m x q)
    (hunique : ∀ x y, At m' x p → At m' y p → x = y)
    (hsomewhere : p ∈ m'.added → ∃ x, At m' x p)
    (horigin : ∀ x, At m' x p → p ∈ m'.added ∨ ∃ c, p = .idle c ∧ x = .cpu c)
    (huser : p ∈ m'.added → (∃ n, p = .user n) ∧ p ∈ m'.passed)
    (hadded : ∀ q ≠ p, q ∈ m'.added ↔ q ∈ m.added) (hpassed : m'.passed = m.passed)
    (hknown : ∀ q, Known m' q ↔ Known m q) (hkp : Known m p)
    (hready : m'.readyQueue.Nodup) (hwaiting : m'.waitingQueue.Nodup) : Placed m' where
  unique q x y hx hy := by
    by_cases hq : q = p
    · rw [hq] at hx hy
      exact hunique x y hx hy
    · exact h.unique q x y ((hother q hq x).mp hx) ((hother q hq y).mp hy)
  somewhere q hmem := by
    by_cases hq : q = p
    · rw [hq] at hmem ⊢
      exact hsomewhere hmem
    · obtain ⟨x, hx⟩ := h.somewhere q ((hadded q hq).mp hmem)
      exact ⟨x, (hother q hq x).mpr hx⟩
  origin q x hx := by
    by_cases hq : q = p
    · rw [hq] at hx ⊢
      exact horigin x hx
    · rw [hadded q hq]
      exact h.origin q x ((hother q hq x).mp hx)
  known q x hx := by
    by_cases hq : q = p
    · rw [hq, hknown]
      exact hkp
    · exact (hknown q).mpr (h.known q x ((hother q hq x).mp hx))
  ready := hready
  waiting := hwaiting
  user q hmem := by
    by_cases hq : q = p
    · rw [hq] at hmem ⊢
      exact huser hmem
    · rw [hpassed]
      exact h.user q ((hadded q hq).mp hmem)

/-- A process goes from `x` to `y`. -/
theorem Placed.move (h : Placed m) {p : ProcId} {x y : Place} (hx : At m x p)
    (hother : ∀ q ≠ p, ∀ z, At m' z q ↔ At m z q) (hp : ∀ z, At m' z p ↔ z = y)
    (hy : y = x ∨ p ∈ m.added) (hadded : m'.added = m.added) (hpassed : m'.passed = m.passed)
    (hknown : ∀ q, Known m' q ↔ Known m q)
    (hready : m'.readyQueue.Nodup) (hwaiting : m'.waitingQueue.Nodup) : Placed m' := by
  refine h.change hother ?_ ?_ ?_ ?_ ?_ hpassed hknown (h.known p x hx) hready hwaiting
  · intro z z' hz hz'
    exact ((hp z).mp hz).trans ((hp z').mp hz').symm
  · intro _
    exact ⟨y, (hp y).mpr rfl⟩
  · intro z hz
    rw [hadded, (hp z).mp hz]
    rcases hy with hy | hy
    · rw [hy]
      exact h.origin p x hx
    · exact Or.inl hy
  · rw [hadded, hpassed]
    exact h.user p
  · intro q _
    rw [hadded]

/-- A step that keeps locks and counter of its CPU, and the thread it is on. -/
theorem Inv.moved (h : Inv m) (hpanic : (m.cpu c).panicked = none) (q : Local m c k' m')
    (hlayer : (m'.cpu c).intDisableLayer = (m.cpu c).intDisableLayer)
    (hflag : (m'.cpu c).intFlag = (m.cpu c).intFlag) (howner : m'.owner = m.owner)
    (hold : spinning (m.next c) = 0) (hnew : spinning k' = 0)
    (htyped : Typed (m.cpu c).running k' (m.held c)) (htail : Still k'.tail)
    (hhand : ∀ p, k'.head? = some (.pushReady p) →
      (∃ n, p = .user n) ∧ (m'.cpu c).proc ≠ some p)
    (hthread : OnThread m' c) (hplaced : Placed m') (hadds : Adds m')
    (hsched : InSched k' ↔ InSched (m.next c)) : Inv m' := by
  have hheld : m'.held c = m.held c := Machine.held_congr fun l => by rw [howner]
  refine h.of_local q ⟨fun _ => ?_, ?_, ?_, ?_, ?_, hthread⟩ hplaced hadds hsched
  · rw [hlayer, hheld, q.next_self, hnew, ← hold]
    exact (h.cpus c).layer (by simp [hpanic])
  · rw [hlayer, hflag]
    exact (h.cpus c).off
  · rw [q.running, q.next_self, hheld]
    exact htyped
  · rw [q.next_self]
    exact htail
  · rw [q.next_self]
    exact hhand

theorem local_goto {m' : Machine} (hcpu : m'.cpu = m.cpu) (howner : m'.owner = m.owner)
    (hcode : m'.code = Function.update m.code (m.cpu c).running k')
    (hproc : m'.proc = m.proc) : Local m c k' m' := by
  refine ⟨⟨fun _ _ => by rw [hcpu], fun _ _ _ => by rw [howner], fun t ht _ => ?_⟩, by rw [hcpu],
    hcode, fun p => by rw [Known, Known, hproc]⟩
  rw [hcode, Function.update_of_ne ht]

theorem settled_cons {i : Instr} (hi : i.moving = false) : Settled (i :: k) := fun j hj => by
  rw [← Option.some.inj hj]
  exact hi

theorem nodup_push {l : List ProcId} (h : l.Nodup) {p : ProcId} (hp : p ∉ l) :
    (l ++ [p]).Nodup :=
  List.nodup_append.mpr ⟨h, List.nodup_singleton p, fun a ha b hb e => hp (by
    rw [List.mem_singleton.mp hb] at e
    rwa [← e])⟩

theorem mem_push {l : List ProcId} {p q : ProcId} (hq : q ≠ p) : q ∈ l ++ [p] ↔ q ∈ l := by
  simp [hq]

/-! ## `sched_add` -/

/-- A process that waits to be added is nowhere. -/
theorem Inv.not_at_of_pending (h : Inv m) {t : ThreadId} {p : ProcId}
    (hp : .addReady p ∈ m.code t) (x : Place) : ¬At m x p := by
  obtain ⟨⟨n, hn⟩, _, _, hadd⟩ := h.adds.pending t p hp
  intro hat
  rcases h.placed.origin p x hat with hin | ⟨c, hc, _⟩
  · exact hadd hin
  · rw [hn] at hc
    cases hc

/-- The call that queues its process is no longer pending. -/
theorem Adds.done (h : Adds m) {t : ThreadId} {p : ProcId} (hcode : m.code t = .addReady p :: k)
    (hcode' : m'.code = Function.update m.code t k) (hadded : m'.added = p :: m.added)
    (hpassed : m'.passed = m.passed) (hknown : ∀ q, Known m' q ↔ Known m q) : Adds m' := by
  have hcount : k.count (.addReady p) = 0 := by
    have := h.once t p
    rw [hcode, List.count_cons_self] at this
    omega
  have hnot : ∀ u, .addReady p ∉ m'.code u := by
    intro u hu
    rw [hcode'] at hu
    by_cases hut : u = t
    · rw [hut, Function.update_self] at hu
      exact List.count_eq_zero.mp hcount hu
    · rw [Function.update_of_ne hut] at hu
      exact hut (h.unique u t p hu (by rw [hcode]; exact List.mem_cons_self))
  have hmem : ∀ {u q}, .addReady q ∈ m'.code u → .addReady q ∈ m.code u := by
    intro u q hq
    rw [hcode'] at hq
    by_cases hut : u = t
    · rw [hut, Function.update_self] at hq
      rw [hut, hcode]
      exact List.mem_cons_of_mem _ hq
    · rwa [Function.update_of_ne hut] at hq
  constructor
  · intro u q hq
    obtain ⟨hn, hk, hpass, hadd⟩ := h.pending u q (hmem hq)
    refine ⟨hn, (hknown q).mpr hk, by rw [hpassed]; exact hpass, ?_⟩
    rw [hadded, List.mem_cons, not_or]
    refine ⟨?_, hadd⟩
    rintro rfl
    exact hnot u hq
  · intro u q hq
    obtain ⟨hidle, hcall⟩ := h.caller u q (hmem hq)
    exact ⟨hidle, fun r hr => (hknown r).mpr (hcall r hr)⟩
  · intro q hq
    rw [hpassed] at hq
    rw [hadded, List.mem_cons]
    rcases h.covered q hq with hin | ⟨u, hu⟩
    · exact Or.inl (Or.inr hin)
    · by_cases hqp : q = p
      · exact Or.inl (Or.inl hqp)
      · refine Or.inr ⟨u, ?_⟩
        rw [hcode']
        by_cases hut : u = t
        · rw [hut, hcode, List.mem_cons] at hu
          rw [hut, Function.update_self]
          exact hu.resolve_left fun e => hqp (Instr.addReady.inj e)
        · rwa [Function.update_of_ne hut]
  · intro u q
    rw [hcode']
    by_cases hut : u = t
    · rw [hut, Function.update_self]
      refine le_trans ?_ (h.once t q)
      rw [hcode]
      exact List.count_le_count_cons
    · rw [Function.update_of_ne hut]
      exact h.once u q
  · intro u u' q hq hq'
    exact h.unique u u' q (hmem hq) (hmem hq')

theorem exec_addReady (h : Inv m) (hpanic : (m.cpu c).panicked = none) {p : ProcId}
    (hnext : m.next c = .addReady p :: k) (hexec : exec m c k (.addReady p) = some m') : Inv m' := by
  cases hexec
  have htyped := (h.cpus c).typed
  rw [hnext] at htyped
  have hmem : .addReady p ∈ m.code (m.cpu c).running := by
    rw [← Machine.next, hnext]
    exact List.mem_cons_self
  have hno := h.not_at_of_pending hmem
  obtain ⟨huser, hkp, hpass, _⟩ := h.adds.pending _ p hmem
  have hstill := h.still_tail hnext
  have hsettled : Settled (m.next c) := by
    rw [hnext]
    exact settled_cons rfl
  have q : Local m c k ({ m with readyQueue := m.readyQueue ++ [p], added := p :: m.added }.goto c k) :=
    local_goto rfl rfl rfl rfl
  have hcpu : ∀ r, At ({ m with readyQueue := m.readyQueue ++ [p], added := p :: m.added }.goto c k)
      (.cpu c) r ↔ At m (.cpu c) r := by
    intro r
    rw [at_cpu_of_settled hsettled, at_cpu_of_settled (by rw [q.next_self]; exact hstill.settled)]
    rfl
  have hp := q.frame.at_only h (y := .ready) (fun _ _ => hno _) (fun _ _ => Place.noConfusion)
    (iff_of_true (List.mem_append_right _ (List.mem_singleton_self p)) rfl)
    (iff_of_false (hno .waiting) Place.noConfusion)
    (iff_of_false (fun hat => hno _ ((hcpu p).mp hat)) Place.noConfusion)
  refine h.moved hpanic q rfl rfl rfl (by rw [hnext]; rfl) hstill.plain.spinning htyped.2 hstill.tail
    (fun r hr => absurd hr (hstill.settled.head_ne rfl))
    ((h.cpus c).thread.goto q hsettled rfl) ?_ (h.adds.done hnext rfl rfl rfl fun _ => Iff.rfl) ?_
  · refine h.placed.change (p := p) ?_ ?_ ?_ ?_ ?_ ?_ rfl (fun _ => Iff.rfl) hkp
      (nodup_push h.placed.ready (hno .ready)) h.placed.waiting
    · intro r hr x
      exact q.frame.at_iff h (mem_push hr) Iff.rfl (hcpu r) x
    · intro x y hx hy
      exact ((hp x).mp hx).trans ((hp y).mp hy).symm
    · intro _
      exact ⟨_, (hp _).mpr rfl⟩
    · intro x _
      exact Or.inl List.mem_cons_self
    · intro _
      exact ⟨huser, hpass⟩
    · intro r hr
      simp [Machine.goto, hr]
  · rw [hnext]
    simp [InSched]

/-! ## Dispatch -/

/-- The scheduler of a CPU, away from the switch back to it. -/
theorem Inv.scheduler (h : Inv m) (hin : InScheduler (m.cpu c).running k' (m.held c))
    (hnext : m.next c ≠ [.requeue]) (hnext' : m.next c ≠ [.clearProc]) :
    (m.cpu c).running = .cpu c ∧ (m.cpu c).proc = none := by
  obtain ⟨⟨c', hc'⟩, _⟩ := hin
  cases (h.cpus c).thread with
  | sched hrun hproc => exact ⟨hrun, hproc⟩
  | back p hrun hproc hback =>
      rcases hback with hback | hback
      · exact absurd hback hnext
      · exact absurd hback hnext'
  | proc p hrun hproc hcode =>
      rw [hc'] at hrun
      cases hrun

/-- A queued process has been added. -/
theorem Placed.mem_added (h : Placed m) {x : Place} {p : ProcId} (hat : At m x p)
    (hx : ∀ c, x ≠ .cpu c) : p ∈ m.added := by
  rcases h.origin p x hat with hin | ⟨c, _, hc⟩
  · exact hin
  · exact absurd hc (hx c)

theorem Placed.not_at (h : Placed m) {x y : Place} {p : ProcId} (hat : At m x p) (hne : y ≠ x) :
    ¬At m y p := fun hy => hne (h.unique p y x hy hat)

/-- With no current process, a process at a CPU is in its hand. -/
theorem at_cpu_dispatch {p q : ProcId} (hproc : (m.cpu c).proc = none)
    (hnext : m.next c = [.dispatch p]) : At m (.cpu c) q ↔ p = q := by
  simp [At, hproc, hnext]

theorem at_cpu_none {q : ProcId} (hproc : (m.cpu c).proc = none) (hnext : Settled (m.next c)) :
    ¬At m (.cpu c) q := by
  rw [at_cpu_of_settled hnext, hproc]
  exact fun e => by cases e

theorem exec_pick (h : Inv m) (hpanic : (m.cpu c).panicked = none)
    (hnext : m.next c = .pick :: k) (hexec : exec m c k .pick = some m') : Inv m' := by
  have hin := (h.cpus c).typed
  rw [hnext] at hin
  have hk : k = [] := hin.2.2
  subst hk
  obtain ⟨hrun, hproc⟩ := h.scheduler hin (by rw [hnext]; simp) (by rw [hnext]; simp)
  have hsettled : Settled (m.next c) := by
    rw [hnext]
    exact settled_cons rfl
  -- Both choices go on with the process in hand.
  have hlocal : ∀ p rq, Local m c [.dispatch p]
      (({ m with readyQueue := rq } : Machine).goto c [.dispatch p]) :=
    fun p rq => local_goto rfl rfl rfl rfl
  have hgo : ∀ p rq, ({ m with readyQueue := rq } : Machine).goto c [.dispatch p] = m' →
      Placed m' → Inv m' := by
    rintro p rq rfl hplaced
    have q := hlocal p rq
    refine h.moved hpanic q rfl rfl rfl (by rw [hnext]; rfl) rfl hin
      (fun i hi => absurd hi List.not_mem_nil) (fun r hr => by cases hr)
      ((h.cpus c).thread.goto q hsettled rfl) hplaced
      (h.adds.goto q.code (fun r => by rw [← Machine.next, hnext]; simp) rfl rfl fun r => id) ?_
    rw [hnext]
    exact iff_of_true (inSched_dispatch p) inSched_pick
  have hat : ∀ p rq q, At (({ m with readyQueue := rq } : Machine).goto c [.dispatch p]) (.cpu c) q ↔
      p = q := fun p rq q => at_cpu_dispatch hproc (Machine.next_goto)
  simp only [exec] at hexec
  cases hready : m.readyQueue with
  | nil =>
      rw [hready] at hexec
      cases hexec
      refine hgo (.idle c) m.readyQueue rfl ?_
      have hidle : Known m (.idle c) := by
        refine (h.idle c).mp ?_
        rw [← hrun, ← Machine.next, hnext]
        exact inSched_pick
      have hno : ∀ x, ¬At m x (.idle c) := by
        intro x hx
        rcases h.placed.origin _ x hx with hin | ⟨c', hc', rfl⟩
        · obtain ⟨⟨n, hn⟩, _⟩ := h.placed.user _ hin
          cases hn
        · cases hc'
          exact at_cpu_none hproc hsettled hx
      have hnot : .idle c ∉ m.added := fun hin => by
        obtain ⟨⟨n, hn⟩, _⟩ := h.placed.user _ hin
        cases hn
      have hp := (hlocal (.idle c) m.readyQueue).frame.at_only h (p := .idle c) (y := .cpu c)
        (fun _ _ => hno _) (fun c' hne e => hne (Place.cpu.inj e).symm)
        (iff_of_false (hno .ready) Place.noConfusion)
        (iff_of_false (hno .waiting) Place.noConfusion)
        (iff_of_true ((hat _ _ _).mpr rfl) rfl)
      refine h.placed.change (p := .idle c) ?_ ?_ ?_ ?_ ?_ ?_ rfl (fun _ => Iff.rfl) hidle
        h.placed.ready h.placed.waiting
      · intro q hq x
        refine (hlocal _ _).frame.at_iff h Iff.rfl Iff.rfl ?_ x
        rw [hat]
        exact iff_of_false (Ne.symm hq) (at_cpu_none hproc hsettled)
      · intro x y hx hy
        exact ((hp x).mp hx).trans ((hp y).mp hy).symm
      · intro hmem
        exact absurd hmem hnot
      · intro x hx
        exact Or.inr ⟨c, rfl, (hp x).mp hx⟩
      · intro hmem
        exact absurd hmem hnot
      · intro q _
        exact Iff.rfl
  | cons p ps =>
      rw [hready] at hexec
      cases hexec
      refine hgo p ps rfl ?_
      have hx : At m .ready p := by
        show p ∈ m.readyQueue
        rw [hready]
        exact List.mem_cons_self
      have hnodup := h.placed.ready
      rw [hready, List.nodup_cons] at hnodup
      have hp := (hlocal p ps).frame.at_only h (p := p) (y := .cpu c)
        (fun c' _ => h.placed.not_at hx Place.noConfusion)
        (fun c' hne e => hne (Place.cpu.inj e).symm)
        (iff_of_false hnodup.1 Place.noConfusion)
        (iff_of_false (h.placed.not_at (y := .waiting) hx Place.noConfusion) Place.noConfusion)
        (iff_of_true ((hat _ _ _).mpr rfl) rfl)
      refine h.placed.move hx (fun q hq z => ?_) hp
        (Or.inr (h.placed.mem_added hx fun _ => Place.noConfusion)) rfl rfl (fun _ => Iff.rfl)
        hnodup.2 h.placed.waiting
      refine (hlocal _ _).frame.at_iff h ?_ Iff.rfl ?_ z
      · show q ∈ ps ↔ q ∈ m.readyQueue
        simp [hready, hq]
      · rw [hat]
        exact iff_of_false (Ne.symm hq) (at_cpu_none hproc hsettled)

/-! ## `sched_wakeup` -/

theorem not_mem_eraseIdx {l : List ProcId} (h : l.Nodup) {i : Nat} {p : ProcId}
    (hi : l[i]? = some p) : p ∉ l.eraseIdx i := by
  rw [List.mem_eraseIdx_iff_getElem?]
  rintro ⟨j, hne, hj⟩
  have hlt : i < l.length := (List.getElem?_eq_some_iff.mp hi).1
  exact hne ((List.getElem?_inj hlt h).mp (hi.trans hj.symm)).symm

theorem mem_eraseIdx_ne {l : List ProcId} {i : Nat} {p q : ProcId} (hi : l[i]? = some p)
    (hq : q ≠ p) : q ∈ l.eraseIdx i ↔ q ∈ l := by
  rw [List.mem_eraseIdx_iff_getElem?, List.mem_iff_getElem?]
  constructor
  · rintro ⟨j, _, hj⟩
    exact ⟨j, hj⟩
  · rintro ⟨j, hj⟩
    refine ⟨j, ?_, hj⟩
    rintro rfl
    rw [hi] at hj
    exact hq (Option.some.inj hj).symm

/-- With a process in hand on its way to the ready queue. -/
theorem at_cpu_pushReady {p q : ProcId} (hnext : m.next c = .pushReady p :: k) :
    At m (.cpu c) q ↔ (m.cpu c).proc = some q ∨ p = q := by
  simp [At, hnext]

theorem exec_wakeLoop (h : Inv m) (hpanic : (m.cpu c).panicked = none) {chan : Chan} {i : Nat}
    (hnext : m.next c = .wakeLoop chan i :: k)
    (hexec : exec m c k (.wakeLoop chan i) = some m') : Inv m' := by
  have htyped := (h.cpus c).typed
  rw [hnext] at htyped
  simp only [exec] at hexec
  cases hi : m.waitingQueue[i]? with
  | none =>
      rw [hi] at hexec
      cases hexec
      exact h.advance hpanic hnext rfl (soft_refl h) htyped.2
  | some p =>
      rw [hi] at hexec
      dsimp only at hexec
      split at hexec <;> cases hexec
      · have hx : At m .waiting p := List.mem_of_getElem? hi
        have hstill := h.still_tail hnext
        have hsettled : Settled (m.next c) := by
          rw [hnext]
          exact settled_cons rfl
        have hadd := h.placed.mem_added hx fun _ => Place.noConfusion
        have hproc : (m.cpu c).proc ≠ some p := fun e =>
          h.placed.not_at (y := .cpu c) hx Place.noConfusion ((at_cpu_of_settled hsettled).mpr e)
        have q : Local m c (.pushReady p :: .wakeLoop chan i :: k)
            ({ m with waitingQueue := m.waitingQueue.eraseIdx i }.goto c
              (.pushReady p :: .wakeLoop chan i :: k)) :=
          local_goto rfl rfl rfl rfl
        have hcpu : ∀ r, At ({ m with waitingQueue := m.waitingQueue.eraseIdx i }.goto c
            (.pushReady p :: .wakeLoop chan i :: k)) (.cpu c) r ↔ (m.cpu c).proc = some r ∨ p = r :=
          fun r => at_cpu_pushReady q.next_self
        have hp := q.frame.at_only h (p := p) (y := .cpu c)
          (fun c' _ => h.placed.not_at hx Place.noConfusion)
          (fun c' hne e => hne (Place.cpu.inj e).symm)
          (iff_of_false (h.placed.not_at (y := .ready) hx Place.noConfusion) Place.noConfusion)
          (iff_of_false (not_mem_eraseIdx h.placed.waiting hi) Place.noConfusion)
          (iff_of_true ((hcpu p).mpr (Or.inr rfl)) rfl)
        refine h.moved hpanic q rfl rfl rfl (by rw [hnext]; rfl) rfl
          ⟨htyped.1, htyped.1, htyped.2⟩ ?_ ?_ ((h.cpus c).thread.goto q hsettled rfl) ?_
          (h.adds.goto q.code ?_ rfl rfl fun _ => id) ?_
        · intro j hj
          rcases List.mem_cons.mp hj with rfl | hj
          · rfl
          · exact hstill j hj
        · intro r hr
          rw [List.head?_cons, Option.some.injEq, Instr.pushReady.injEq] at hr
          rw [← hr]
          exact ⟨(h.placed.user p hadd).1, hproc⟩
        · refine h.placed.move hx (fun r hr z => q.frame.at_iff h Iff.rfl ?_ ?_ z) hp (Or.inr hadd)
            rfl rfl (fun _ => Iff.rfl) h.placed.ready (h.placed.waiting.eraseIdx i)
          · exact mem_eraseIdx_ne hi hr
          · rw [hcpu, at_cpu_of_settled hsettled, or_iff_left (Ne.symm hr)]
        · intro r
          rw [← Machine.next, hnext]
          simp
        · rw [hnext]
          simp [InSched]
      · exact h.replace hpanic hnext rfl (soft_refl h) (f := [.wakeLoop chan (i + 1)])
          (List.all_eq_true.mp rfl) ⟨htyped.1, htyped.2⟩

theorem exec_pushReady (h : Inv m) (hpanic : (m.cpu c).panicked = none) {p : ProcId}
    (hnext : m.next c = .pushReady p :: k)
    (hexec : exec m c k (.pushReady p) = some m') : Inv m' := by
  cases hexec
  have htyped := (h.cpus c).typed
  rw [hnext] at htyped
  have hstill := h.still_tail hnext
  obtain ⟨⟨n, hn⟩, hproc⟩ := (h.cpus c).hand p (by rw [hnext]; rfl)
  have hx : At m (.cpu c) p := (at_cpu_pushReady hnext).mpr (Or.inr rfl)
  have hadd : p ∈ m.added := by
    rcases h.placed.origin p _ hx with hin | ⟨c', hc', _⟩
    · exact hin
    · rw [hn] at hc'
      cases hc'
  have q : Local m c k ({ m with readyQueue := m.readyQueue ++ [p] }.goto c k) :=
    local_goto rfl rfl rfl rfl
  have hcpu : ∀ r, At ({ m with readyQueue := m.readyQueue ++ [p] }.goto c k) (.cpu c) r ↔
      (m.cpu c).proc = some r :=
    fun r => at_cpu_of_settled (by rw [q.next_self]; exact hstill.settled)
  have hp := q.frame.at_only h (p := p) (y := .ready)
    (fun c' hne => h.placed.not_at hx fun e => hne (Place.cpu.inj e)) (fun _ _ => Place.noConfusion)
    (iff_of_true (List.mem_append_right _ (List.mem_singleton_self p)) rfl)
    (iff_of_false (h.placed.not_at (y := .waiting) hx Place.noConfusion) Place.noConfusion)
    (iff_of_false (fun hat => hproc ((hcpu p).mp hat)) Place.noConfusion)
  have hthread : OnThread ({ m with readyQueue := m.readyQueue ++ [p] }.goto c k) c := by
    cases (h.cpus c).thread with
    | sched hrun hnone => exact .sched hrun hnone
    | back r _ _ hback =>
        rw [hnext] at hback
        rcases hback with hback | hback <;> cases hback
    | proc r hrun hr hcode =>
        refine .proc r hrun hr ?_
        rw [Machine.goto_code_ne (by rw [hrun]; exact ThreadId.noConfusion)]
        exact hcode
  refine h.moved hpanic q rfl rfl rfl (by rw [hnext]; rfl) hstill.plain.spinning htyped.2 hstill.tail
    (fun r hr => absurd hr (hstill.settled.head_ne rfl)) hthread ?_
    (h.adds.goto q.code ?_ rfl rfl fun _ => id) ?_
  · refine h.placed.move hx (fun r hr z => q.frame.at_iff h (mem_push hr) Iff.rfl ?_ z) hp
      (Or.inr hadd) rfl rfl (fun _ => Iff.rfl) (nodup_push h.placed.ready ?_) h.placed.waiting
    · rw [hcpu, at_cpu_pushReady hnext, or_iff_left (Ne.symm hr)]
    · exact h.placed.not_at (y := .ready) hx Place.noConfusion
  · intro r
    rw [← Machine.next, hnext]
    simp
  · rw [hnext]
    simp [InSched]

/-! ## Back in the scheduler -/

theorem at_cpu_clearProc {q : ProcId} (hnext : m.next c = [.clearProc]) : ¬At m (.cpu c) q := by
  simp [At, hnext]

theorem at_cpu_requeue {q : ProcId} (hnext : m.next c = [.requeue]) :
    At m (.cpu c) q ↔ (m.cpu c).proc = some q := by
  simp [At, hnext]

/-- The thread of a CPU that goes on in its scheduler. -/
theorem Inv.running_cpu (h : Inv m) (hin : InScheduler (m.cpu c).running k' (m.held c)) :
    (m.cpu c).running = .cpu c := by
  obtain ⟨⟨c', hc'⟩, _⟩ := hin
  rcases (h.cpus c).thread.running_eq with hrun | ⟨p, hrun, _⟩
  · exact hrun
  · rw [hc'] at hrun
    cases hrun

theorem exec_requeue (h : Inv m) (hpanic : (m.cpu c).panicked = none)
    (hnext : m.next c = .requeue :: k) (hexec : exec m c k .requeue = some m') : Inv m' := by
  have hin := (h.cpus c).typed
  rw [hnext] at hin
  have hk : k = [] := hin.2.2
  subst hk
  have hrun := h.running_cpu hin
  have hlocal : ∀ rq wq, Local m c [.clearProc]
      { m.goto c [.clearProc] with readyQueue := rq, waitingQueue := wq } :=
    fun rq wq => local_goto rfl rfl rfl rfl
  -- Whichever queue the process goes to, the CPU has it no longer.
  have hat : ∀ rq wq r, ¬At { m.goto c [.clearProc] with readyQueue := rq, waitingQueue := wq }
      (.cpu c) r := fun rq wq r => at_cpu_clearProc (hlocal rq wq).next_self
  have hgo : ∀ rq wq, { m.goto c [.clearProc] with readyQueue := rq, waitingQueue := wq } = m' →
      Placed m' → Inv m' := by
    rintro rq wq rfl hplaced
    have q := hlocal rq wq
    have hthread : OnThread { m.goto c [.clearProc] with readyQueue := rq, waitingQueue := wq } c := by
      cases hproc : (m.cpu c).proc with
      | none => exact .sched hrun hproc
      | some p => exact .back p hrun hproc (Or.inr q.next_self)
    refine h.moved hpanic q rfl rfl rfl (by rw [hnext]; rfl) rfl hin
      (fun i hi => absurd hi List.not_mem_nil) (fun r hr => by cases hr) hthread hplaced
      (h.adds.goto q.code (fun r => by rw [← Machine.next, hnext]; simp) rfl rfl fun r => id) ?_
    rw [hnext]
    exact iff_of_true inSched_clearProc inSched_requeue
  have hother : ∀ {p} rq wq, (m.cpu c).proc = some p →
      (∀ r ≠ p, r ∈ rq ↔ r ∈ m.readyQueue) → (∀ r ≠ p, r ∈ wq ↔ r ∈ m.waitingQueue) →
      ∀ r ≠ p, ∀ x, At { m.goto c [.clearProc] with readyQueue := rq, waitingQueue := wq } x r ↔
        At m x r := by
    intro p rq wq hproc hr hw r hne x
    refine (hlocal rq wq).frame.at_iff h (hr r hne) (hw r hne) (iff_of_false (hat rq wq r) ?_) x
    rw [at_cpu_requeue hnext, hproc]
    exact fun e => hne (Option.some.inj e).symm
  simp only [exec] at hexec
  have hcpu : ((m.goto c [.clearProc]).cpu c).proc = (m.cpu c).proc := rfl
  rw [hcpu] at hexec
  cases hproc : (m.cpu c).proc with
  | none =>
      rw [hproc] at hexec
      cases hexec
      refine hgo m.readyQueue m.waitingQueue rfl (h.placed.congr ?_ rfl (fun _ hr => hr)
        (fun _ => id) rfl rfl)
      intro x r
      refine (hlocal m.readyQueue m.waitingQueue).frame.at_iff h Iff.rfl Iff.rfl
        (iff_of_false (hat m.readyQueue m.waitingQueue r) ?_) x
      rw [at_cpu_requeue hnext, hproc]
      exact fun e => by cases e
  | some p =>
      rw [hproc] at hexec
      have hx : At m (.cpu c) p := (at_cpu_requeue hnext).mpr hproc
      have hnr := h.placed.not_at (y := .ready) hx Place.noConfusion
      have hnw := h.placed.not_at (y := .waiting) hx Place.noConfusion
      have hno : ∀ c' ≠ c, ¬At m (.cpu c') p := fun c' hne =>
        h.placed.not_at hx fun e => hne (Place.cpu.inj e)
      dsimp only at hexec
      split at hexec
      · rename_i hidle
        subst hidle
        cases hexec
        have hnot : .idle c ∉ m.added := fun hmem => by
          obtain ⟨⟨n, hn⟩, _⟩ := h.placed.user _ hmem
          cases hn
        have hgone : ∀ x, ¬At { m.goto c [.clearProc] with
            readyQueue := m.readyQueue, waitingQueue := m.waitingQueue } x (.idle c) := by
          intro x
          cases x with
          | ready => exact hnr
          | waiting => exact hnw
          | cpu c' =>
              by_cases hne : c' = c
              · rw [hne]
                exact hat _ _ _
              · rw [(hlocal m.readyQueue m.waitingQueue).frame.at_cpu h hne]
                exact hno c' hne
        refine hgo m.readyQueue m.waitingQueue rfl (h.placed.change (p := .idle c)
          (hother _ _ hproc (fun _ _ => Iff.rfl) fun _ _ => Iff.rfl)
          (fun x _ hx' _ => absurd hx' (hgone x)) (fun hmem => absurd hmem hnot)
          (fun x hx' => absurd hx' (hgone x)) (fun hmem => absurd hmem hnot) (fun _ _ => Iff.rfl) rfl
          (fun _ => Iff.rfl) (h.placed.known _ _ hx) h.placed.ready h.placed.waiting)
      · rename_i hidle
        have hadd : p ∈ m.added := by
          rcases h.placed.origin p _ hx with hin | ⟨c', hc', hc⟩
          · exact hin
          · cases hc
            exact absurd hc' hidle
        split at hexec <;> cases hexec
        · have hp := (hlocal (m.readyQueue ++ [p]) m.waitingQueue).frame.at_only h (p := p)
            (y := .ready) hno (fun _ _ => Place.noConfusion)
            (iff_of_true (List.mem_append_right _ (List.mem_singleton_self p)) rfl)
            (iff_of_false hnw Place.noConfusion) (iff_of_false (hat _ _ p) Place.noConfusion)
          exact hgo (m.readyQueue ++ [p]) m.waitingQueue rfl (h.placed.move hx
            (hother _ _ hproc (fun _ hr => mem_push hr) fun _ _ => Iff.rfl) hp (Or.inr hadd) rfl rfl
            (fun _ => Iff.rfl) (nodup_push h.placed.ready hnr) h.placed.waiting)
        · have hp := (hlocal m.readyQueue (m.waitingQueue ++ [p])).frame.at_only h (p := p)
            (y := .waiting) hno (fun _ _ => Place.noConfusion)
            (iff_of_false hnr Place.noConfusion)
            (iff_of_true (List.mem_append_right _ (List.mem_singleton_self p)) rfl)
            (iff_of_false (hat _ _ p) Place.noConfusion)
          exact hgo m.readyQueue (m.waitingQueue ++ [p]) rfl (h.placed.move hx
            (hother _ _ hproc (fun _ _ => Iff.rfl) fun _ hr => mem_push hr) hp (Or.inr hadd) rfl rfl
            (fun _ => Iff.rfl) h.placed.ready (nodup_push h.placed.waiting hnw))

theorem exec_clearProc (h : Inv m) (hpanic : (m.cpu c).panicked = none)
    (hnext : m.next c = .clearProc :: k) (hexec : exec m c k .clearProc = some m') : Inv m' := by
  cases hexec
  have hin := (h.cpus c).typed
  rw [hnext] at hin
  have hk : k = [] := hin.2.2
  subst hk
  have hrun := h.running_cpu hin
  have q : Local m c [.pick] ((m.setCpu c { m.cpu c with proc := none }).goto c [.pick]) := by
    refine ⟨⟨fun c' hne => Machine.setCpu_cpu_ne hne, fun _ _ _ => Iff.rfl, fun t ht _ => ?_⟩, ?_,
      ?_, fun _ => Iff.rfl⟩
    · rw [Machine.goto_code_ne (by simpa using ht)]
      rfl
    · simp
    · simp [Machine.goto, Machine.setCpu]
  refine h.moved hpanic q (by simp) (by simp) rfl (by rw [hnext]; rfl) rfl hin
    (fun i hi => absurd hi List.not_mem_nil) (fun r hr => by cases hr)
    (.sched (by simp [hrun]) (by simp)) ?_
    (h.adds.goto q.code (fun r => by rw [← Machine.next, hnext]; simp) rfl rfl fun r => id) ?_
  · refine h.placed.congr (fun x r => q.frame.at_iff h Iff.rfl Iff.rfl (iff_of_false ?_ ?_) x) rfl
      (fun _ hr => hr) (fun _ => id) rfl rfl
    · exact at_cpu_none (by simp) (by rw [q.next_self]; exact settled_cons rfl)
    · exact at_cpu_clearProc hnext
  · rw [hnext]
    exact iff_of_true inSched_pick inSched_clearProc

/-! ## Context switches -/

/-- The process in hand waits to be switched to. -/
theorem Inv.resumable_of_dispatch (h : Inv m) {p : ProcId} (hrun : (m.cpu c).running = .cpu c)
    (hat : At m (.cpu c) p) : Resumable m p := by
  refine h.resume p (h.placed.known p _ hat) fun c' hrun' => ?_
  have := h.placed.unique p _ _ (h.at_running hrun') hat
  rw [Place.cpu.injEq] at this
  rw [this, hrun] at hrun'
  cases hrun'

theorem exec_dispatch (h : Inv m) (hpanic : (m.cpu c).panicked = none) {p : ProcId}
    (hnext : m.next c = .dispatch p :: k)
    (hexec : exec m c k (.dispatch p) = some m') : Inv m' := by
  have hin := (h.cpus c).typed
  rw [hnext] at hin
  have hk : k = [] := hin.2.2
  subst hk
  obtain ⟨hrun, hproc⟩ := h.scheduler hin (by rw [hnext]; simp) (by rw [hnext]; simp)
  have hat : ∀ q, At m (.cpu c) q ↔ p = q := fun q => at_cpu_dispatch hproc hnext
  obtain ⟨htyped, hstill, _⟩ := h.resumable_of_dispatch hrun ((hat p).mpr rfl)
  have hkp : Known m p := h.placed.known p _ ((hat p).mpr rfl)
  have hcpu : ∀ {m' : Machine}, m' = ((m.goto c [.requeue]).setProc p
      { m.proc p with state := .running }).setCpu c { m.cpu c with proc := some p, running := .proc p } →
      (m'.cpu c = { m.cpu c with proc := some p, running := .proc p } ∧
        m'.code (.proc p) = m.code (.proc p)) := by
    rintro _ rfl
    refine ⟨Machine.setCpu_cpu_self, ?_⟩
    show (m.goto c [.requeue]).code (.proc p) = _
    rw [Machine.goto_code_ne (by rw [hrun]; exact ThreadId.noConfusion)]
  have hm' := (Option.some.inj hexec).symm
  obtain ⟨hself, hcode⟩ := hcpu hm'
  have hupd : m'.code = Function.update m.code (m.cpu c).running [.requeue] := by
    rw [hm']
    rfl
  have hframe : Frame m c m' := by
    refine ⟨fun c' hne => ?_, fun _ _ _ => ?_, fun t ht _ => ?_⟩
    · rw [hm', Machine.setCpu_cpu_ne hne]
      rfl
    · rw [hm']
      rfl
    · rw [hupd, Function.update_of_ne ht]
  have hknown : ∀ q, Known m' q ↔ Known m q := by
    rw [hm']
    exact (soft_setProc (m := m) (c := c) (h.cpus c).off hkp ProcState.noConfusion).known
  have hnext' : m'.next c = m.code (.proc p) := by rw [Machine.next, hself, hcode]
  have hheld : m'.held c = m.held c := Machine.held_congr fun l => by rw [hm']; rfl
  have hlayer := (h.cpus c).layer (by simp [hpanic])
  refine h.of_frame hframe hupd hknown ⟨fun _ => ?_, ?_, ?_, ?_, ?_, ?_⟩ ?_
    (h.adds.goto hupd (fun r => by rw [← Machine.next, hnext]; simp) (by rw [hm']; rfl)
      (by rw [hm']; rfl) fun q => (hknown q).mpr) ?_ ?_
  · rw [hself, hheld, hnext', hstill.plain.spinning]
    rw [hnext] at hlayer
    exact hlayer
  · rw [hself]
    exact (h.cpus c).off
  · rw [hself, hheld, hnext', hin.2.1]
    exact htyped
  · rw [hnext']
    exact hstill.tail
  · intro q hq
    rw [hnext'] at hq
    exact absurd hq (hstill.settled.head_ne rfl)
  · refine .proc p (by rw [hself]) (by rw [hself]) ?_
    rw [hupd, hrun, Function.update_self]
  · refine h.placed.congr (fun x q => hframe.at_iff h ?_ ?_ ?_ x) ?_ ?_
      (fun q => (hknown q).mpr) ?_ ?_
    · rw [hm']
      rfl
    · rw [hm']
      rfl
    · rw [hat, at_cpu_of_settled (by rw [hnext']; exact hstill.settled), hself]
      exact Option.some_inj
    · rw [hm']
      rfl
    · rw [hm']
      exact fun _ hr => hr
    · rw [hm']
      rfl
    · rw [hm']
      rfl
  · intro q hq
    rw [hrun] at hq
    cases hq
  · rw [hnext]
    exact iff_of_true inSched_requeue (inSched_dispatch p)

/-- A counter of one and `sched.lock` mean that no other lock is held. -/
theorem held_eq_sched (h : Inv m) (hpanic : (m.cpu c).panicked = none) (hplain : Plain (m.next c))
    (hown : m.owner .sched = some c) (hlayer : (m.cpu c).intDisableLayer = 1) :
    m.held c = {.sched} := by
  have hcard := (h.cpus c).layer (by simp [hpanic])
  rw [hlayer, hplain.spinning] at hcard
  have hone : (m.held c).card = 1 := hcard.symm
  obtain ⟨l, hl⟩ := Finset.card_eq_one.mp hone
  have : LockId.sched ∈ m.held c := Machine.mem_held.mpr hown
  rw [hl, Finset.mem_singleton] at this
  rw [hl, this]

theorem exec_switchOut (h : Inv m) (hpanic : (m.cpu c).panicked = none)
    (hnext : m.next c = .switchOut :: k) (hexec : exec m c k .switchOut = some m') : Inv m' := by
  have htyped := (h.cpus c).typed
  have hplain : Plain (m.next c) := plain_of_ordinary hnext rfl
  have hcall := soft_callCurproc (c := c) h
  have hproc' : ((m.callCurproc c).cpu c).proc = (m.cpu c).proc := hcall.proc
  have hlayer' : ((m.callCurproc c).cpu c).intDisableLayer = (m.cpu c).intDisableLayer := hcall.layer
  rw [hnext] at htyped
  simp only [exec, hproc', hlayer'] at hexec
  split at hexec
  · cases hexec
    exact h.stop hpanic hplain (hcall.trans (soft_fail _))
  rename_i hown
  split at hexec
  · cases hexec
    exact h.stop hpanic hplain (hcall.trans (soft_fail _))
  rename_i hlayer
  have hheld := held_eq_sched h hpanic hplain (not_not.mp hown) (not_not.mp hlayer)
  cases hproc : (m.cpu c).proc with
  | none =>
      rw [hproc] at hexec
      cases hexec
      exact h.stop hpanic hplain (hcall.trans (soft_fail _))
  | some p =>
      rw [hproc] at hexec
      dsimp only at hexec
      split at hexec
      · cases hexec
        exact h.stop hpanic hplain (hcall.trans (soft_fail _))
      obtain ⟨hrun, hkp⟩ := h.running_of_proc hplain hproc
      have hstill := h.still_tail hnext
      have hback : m.code (.cpu c) = [.requeue] := by
        cases (h.cpus c).thread with
        | sched hrun' _ =>
            rw [hrun] at hrun'
            cases hrun'
        | back _ hrun' _ _ =>
            rw [hrun] at hrun'
            cases hrun'
        | proc _ _ _ hcode => exact hcode
      have hm' := (Option.some.inj hexec).symm
      have hself : m'.cpu c = { (m.callCurproc c).cpu c with running := .cpu c } := by
        rw [hm', Machine.setCpu_cpu_self]
        simp only [hproc', hlayer', hproc]
      have hupd : m'.code = Function.update m.code (m.cpu c).running
          (.restoreInt ((m.callCurproc c).cpu c).intEnabled :: k) := by
        rw [hm', hrun]
        rfl
      have hframe : Frame m c m' := by
        refine ⟨fun c' hne => ?_, fun _ _ _ => ?_, fun t ht _ => ?_⟩
        · rw [hm', Machine.setCpu_cpu_ne hne]
          exact hcall.cpu c' hne
        · rw [hm']
          rfl
        · rw [hupd, Function.update_of_ne ht]
      have hknown : ∀ q, Known m' q ↔ Known m q := by
        rw [hm']
        exact fun _ => Iff.rfl
      have hnext' : m'.next c = [.requeue] := by
        rw [Machine.next, hself, hupd, hrun, Function.update_of_ne ThreadId.noConfusion, hback]
      have hheld' : m'.held c = {.sched} := by
        rw [← hheld]
        exact Machine.held_congr fun l => by rw [hm']; rfl
      have hp' : (m'.cpu c).proc = some p := by rw [hself, ← hproc, ← hproc']
      refine h.of_frame hframe hupd hknown ⟨fun _ => ?_, ?_, ?_, ?_, ?_, ?_⟩ ?_
        (h.adds.goto hupd (fun r => ?_) (by rw [hm']; rfl) (by rw [hm']; rfl)
          fun q => (hknown q).mpr) ?_ ?_
      · rw [hheld', hnext', hself]
        show ((m.callCurproc c).cpu c).intDisableLayer.toNat = 1
        rw [hlayer', not_not.mp hlayer]
        rfl
      · rw [hself]
        exact hcall.off
      · rw [hheld', hnext', hself]
        exact ⟨⟨c, rfl⟩, rfl, rfl⟩
      · rw [hnext']
        exact fun i hi => absurd hi List.not_mem_nil
      · intro q hq
        rw [hnext'] at hq
        cases hq
      · exact .back p (by rw [hself]) hp' (Or.inl hnext')
      · refine h.placed.congr (fun x q => hframe.at_iff h ?_ ?_ ?_ x) ?_ ?_
          (fun q => (hknown q).mpr) ?_ ?_
        · rw [hm']
          rfl
        · rw [hm']
          rfl
        · rw [at_cpu_requeue hnext', hp', at_cpu_of_settled hplain.settled, hproc]
        · rw [hm']
          rfl
        · rw [hm']
          exact fun _ hr => hr
        · rw [hm']
          rfl
        · rw [hm']
          rfl
      · rw [← Machine.next, hnext]
        simp
      · intro q hq _
        rw [hrun, ThreadId.proc.injEq] at hq
        subst hq
        have hcode : m'.code (.proc p) =
            .restoreInt ((m.callCurproc c).cpu c).intEnabled :: k := by
          rw [hupd, hrun, Function.update_self]
        rw [hrun, hheld] at htyped
        refine ⟨?_, ?_, Or.inl ⟨_, _, hcode⟩⟩
        · rw [hcode]
          exact ⟨rfl, htyped rfl⟩
        · rw [hcode]
          intro i hi
          rcases List.mem_cons.mp hi with rfl | hi
          · rfl
          · exact hstill i hi
      · rw [hnext]
        simp [InSched]

end

end Sched
end GuideOS
