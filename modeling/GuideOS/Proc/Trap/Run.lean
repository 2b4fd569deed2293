import GuideOS.Proc.Trap.Frame

/-!
# Runs with interrupts

The interrupts of a thread lie on its stack above its stack pointer, each in its own
frame, and what they interrupted lies above the frame.  No step of another thread
reaches them, and no step of the thread itself before the handler returns.
-/

namespace GuideOS
namespace Trap

open Lib Ctxsw

/-! ## The frames on a stack -/

/-- The frame lies between `base` and `top`, and above it what the interrupt found. -/
structure Frame.Stored (F : Frame) (sym : Symbols) (base top : Nat) (m : Bytes) : Prop where
  low : base + 8 ≤ F.tf
  rsp : F.tf + 176 ≤ (F.core.reg .rsp).toNat
  high : (F.core.reg .rsp).toNat ≤ top
  words : Words m (F.tf - 8) (sym.returnFromIsr :: trapWords F.core F.trapNo F.errorCode)
  mem : ∀ b, (F.core.reg .rsp).toNat ≤ b → b < top → m b = F.mem b

/-- The frames lie one above the other, over the stack pointer `sp`. -/
def Stacked (sym : Symbols) (base top : Nat) (m : Bytes) : Nat → List Frame → Prop
  | _, [] => True
  | sp, F :: rest => sp + 8 ≤ F.tf ∧ F.Stored sym base top m ∧
      Stacked sym base top m (F.core.reg .rsp).toNat rest

section

variable {sym : Symbols} {base top sp : Nat} {m m' : Bytes} {F : Frame} {fs : List Frame}

theorem Frame.Stored.congr (h : F.Stored sym base top m) (hm : ∀ b, F.tf ≤ b + 8 → b < top → m' b = m b) :
    F.Stored sym base top m' := by
  have hlow := h.low
  have hrsp := h.rsp
  have hhigh := h.high
  refine ⟨hlow, hrsp, hhigh, h.words.congr fun b hb hb' => hm b (by omega) ?_, fun b hb hb' => ?_⟩
  · have hlen : (sym.returnFromIsr :: trapWords F.core F.trapNo F.errorCode).length = 23 := rfl
    rw [hlen] at hb'
    omega
  · rw [hm b (by omega) hb', h.mem b hb hb']

theorem Stacked.congr (h : Stacked sym base top m sp fs) (hm : ∀ b, sp ≤ b → b < top → m' b = m b) :
    Stacked sym base top m' sp fs := by
  induction fs generalizing sp with
  | nil => trivial
  | cons F fs ih =>
      obtain ⟨hsp, hF, hrest⟩ := h
      have hrsp := hF.rsp
      exact ⟨hsp, hF.congr fun b hb hb' => hm b (by omega) hb',
        ih hrest fun b hb hb' => hm b (by omega) hb'⟩

/-- The stack is left alone. -/
theorem Stacked.same (h : Stacked sym base top m sp fs) (hm : ∀ b, base ≤ b → b < top → m' b = m b) :
    Stacked sym base top m' sp fs := by
  cases fs with
  | nil => trivial
  | cons F fs =>
      obtain ⟨hsp, hF, hrest⟩ := h
      have hlow := hF.low
      have hrsp := hF.rsp
      exact ⟨hsp, hF.congr fun b hb hb' => hm b (by omega) hb', hrest.congr fun b hb hb' => hm b (by omega) hb'⟩

/-- The thread may move its stack pointer, below the last frame. -/
theorem Stacked.move (h : Stacked sym base top m sp fs) {sp' : Nat} (hsp : ∀ F ∈ fs.head?, sp' + 8 ≤ F.tf)
    (hm : ∀ F ∈ fs.head?, ∀ b, F.tf ≤ b + 8 → b < top → m' b = m b) : Stacked sym base top m' sp' fs := by
  cases fs with
  | nil => trivial
  | cons F fs =>
      obtain ⟨_, hF, hrest⟩ := h
      have hrsp := hF.rsp
      exact ⟨hsp F rfl, hF.congr (hm F rfl), hrest.congr fun b hb hb' => hm F rfl b (by omega) hb'⟩

end

/-! ## The invariant -/

section

variable {C P : Type} {sym : Symbols} {L : Layout C P}

/-- The stack pointer of a thread that runs, or the one that it will find again. -/
def System.At (s : System C P) (L : Layout C P) (t : Thread C P) (sp : Nat) : Prop :=
  (∃ c, s.running c = t ∧ ((s.core c).reg .rsp).toNat = sp) ∨
    ∃ q, ∃ x : Context, L.base t ≤ q ∧ q + 56 = x.rsp.toNat ∧ x.rsp.toNat ≤ L.top t ∧ x.rsp.toNat = sp ∧
      Suspended L.toLayout t q x.words s.toSystem

structure Inv (sym : Symbols) (L : Layout C P) (s : System C P) : Prop where
  placed : Placed s.toSystem
  stacked : ∀ t, s.Live t → ∃ sp, s.At L t sp ∧ Stacked sym (L.base t) (L.top t) s.mem sp (s.frames t)
  idt : ∀ i < 256, gateAt s.mem (L.idt + 16 * i) = gate sym i

theorem gateAt_idt {m m' : Bytes} (hm : ∀ b, L.idt ≤ b → b < L.idt + idtSize → m' b = m b)
    (h : ∀ i < 256, gateAt m (L.idt + 16 * i) = gate sym i) :
    ∀ i < 256, gateAt m' (L.idt + 16 * i) = gate sym i := by
  intro i hi
  have hsize : idtSize = 16 * 256 := rfl
  rw [gateAt_congr fun b hb hb' => hm b (by omega) (by omega)]
  exact h i hi

variable [DecidableEq C] [DecidableEq P]
variable {s s' : System C P} {t : Ctxsw.System C P} {e : Event C P} {c : C} {fs : Thread C P → List Frame}

omit [DecidableEq C] [DecidableEq P] in
theorem Start.inv (h : Start sym L s) : Inv sym L s where
  placed := h.threads.placed
  stacked u hu := by
    cases u with
    | sched c => exact ⟨_, Or.inl ⟨c, h.threads.running c, rfl⟩, by rw [h.frames]; trivial⟩
    | proc p =>
        rw [System.Live, h.threads.created] at hu
        cases hu
  idt := by
    obtain ⟨m, hm⟩ := h.idt
    exact gateAt_idt hm fun i hi => gateAt_interruptInit sym m L.idt hi

/-- A thread that has no part in what CPU `c` does keeps its frames. -/
theorem At.idle {e : Ctxsw.Event C P} (hstep : Ctxsw.Step sym.toSymbols L.toLayout s.toSystem e t)
    {u : Thread C P} {sp : Nat} (hat : s.At L u sp) (hu : s.running c ≠ u)
    (hrun : ∀ d, d ≠ c → t.running d = s.running d ∧ t.core d = s.core d) (hret : ∀ i, ¬e.Returns u i) :
    System.At ⟨t, fs⟩ L u sp := by
  rcases hat with ⟨d, hd, hsp⟩ | ⟨q, x, hbase, hq, htop, hsp, hsusp⟩
  · have hdc : d ≠ c := by
      rintro rfl
      exact hu hd
    obtain ⟨hrunning, hcore⟩ := hrun d hdc
    exact Or.inl ⟨d, hrunning.trans hd, by rw [← hsp, ← hcore]⟩
  · refine Or.inr ⟨q, x, hbase, hq, htop, hsp, hsusp.step ⟨hbase, ?_⟩ hstep hret⟩
    have hlen : x.words.length = 7 := rfl
    omega

/-- What a thread does itself. -/
theorem Inv.work (h : Inv sym L s) {k : Core} {m : Bytes}
    (hstep : Ctxsw.Step sym.toSymbols L.toLayout s.toSystem (.work c k m) t)
    (hfs : ∀ u, u ≠ s.running c → fs u = s.frames u)
    (hown : Stacked sym (L.base (s.running c)) (L.top (s.running c)) m (k.reg .rsp).toNat (fs (s.running c)))
    (hidt : ∀ b, L.idt ≤ b → b < L.idt + idtSize → m b = s.mem b) : Inv sym L ⟨t, fs⟩ := by
  have hplaced := hstep.placed h.placed
  have hother : ∀ u, s.running c ≠ u → s.Live u → ∀ b, L.base u ≤ b → b < L.top u → t.mem b = s.mem b :=
    fun u hu hlive b hb hb' => hstep.stack_mem hlive hb hb' fun hc => absurd hc hu
  have hat : ∀ u sp, s.running c ≠ u → s.At L u sp →
      (∀ d, d ≠ c → t.running d = s.running d ∧ t.core d = s.core d) → System.At ⟨t, fs⟩ L u sp :=
    fun u sp hu hat hrun => At.idle hstep hat hu hrun fun _ hret => hret
  cases hstep with
  | work hstack hslot =>
      have hrun : ∀ d, d ≠ c → s.running d = s.running d ∧ Function.update s.core c k d = s.core d :=
        fun d hd => ⟨rfl, Function.update_of_ne hd ..⟩
      refine ⟨⟨hplaced.home, hplaced.alone, hplaced.live⟩, fun u hu => ?_, gateAt_idt hidt h.idt⟩
      by_cases hc : s.running c = u
      · refine ⟨(k.reg .rsp).toNat, Or.inl ⟨c, hc, ?_⟩, by rw [← hc]; exact hown⟩
        show ((Function.update s.core c k c).reg .rsp).toNat = _
        rw [Function.update_self]
      · have hlive : s.Live u := by cases u <;> exact hu
        obtain ⟨sp, hsp, hstacked⟩ := h.stacked u hlive
        refine ⟨sp, hat u sp hc hsp hrun, ?_⟩
        show Stacked sym _ _ m sp (fs u)
        rw [hfs u (Ne.symm hc)]
        exact hstacked.same (hother u hc hlive)

/-- A switch from `a` to `b`. -/
theorem Inv.switch (h : Inv sym L s) {a b : Thread C P} {e : Ctxsw.Event C P}
    (hstep : Ctxsw.Step sym.toSymbols L.toLayout s.toSystem e (s.toSystem.ctxsw L.toLayout c a b))
    (hc : s.running c = a) (hroom : s.toSystem.Room L.toLayout c) (hcalls : e.Calls a c) (hne : a ≠ b)
    (hrets : ∀ u i, e.Returns u i ↔ u = b ∧ i = c)
    (hspares : ∀ u x, (u = a → ((s.core c).reg .rsp).toNat ≤ x) → Spares s.toSystem u x e) :
    Inv sym L ⟨s.toSystem.ctxsw L.toLayout c a b, s.frames⟩ := by
  have hplaced := hstep.placed h.placed
  refine ⟨⟨hplaced.home, hplaced.alone, hplaced.live⟩, fun u hu => ?_, gateAt_idt (fun x hx hx' => ?_) h.idt⟩
  · have hlive : s.Live u := by cases u <;> exact hu
    obtain ⟨sp, hsp, hstacked⟩ := h.stacked u hlive
    by_cases hu : u = a
    · subst hu
      have hrsp : ((s.core c).reg .rsp).toNat = sp := by
        rcases hsp with ⟨d, hd, hsp⟩ | ⟨q, x, _, _, _, _, hsusp⟩
        · rw [← hsp, h.placed.running_inj (hd.trans hc.symm)]
        · exact absurd hc (hsusp.idle c)
      obtain ⟨q, hq, hbase, htop, hsusp⟩ := hstep.suspended h.placed hcalls
      refine ⟨sp, Or.inr ⟨q, context (s.core c), hbase, hq, ?_, hrsp, hsusp⟩, hstacked.congr fun x hx hx' => ?_⟩
      · show ((s.core c).reg .rsp).toNat ≤ _
        omega
      · have hlow := hroom.1
        rw [hc] at hlow
        exact hstep.stack_mem hlive (show L.base u ≤ x by omega) hx' (hspares u x fun _ => by omega)
    · have hsame := hstacked.same fun x hx hx' =>
        hstep.stack_mem hlive hx hx' (hspares u x fun hua => absurd hua hu)
      refine ⟨sp, ?_, hsame⟩
      by_cases hub : u = b
      · subst hub
        have hret := (hrets u c).mpr ⟨rfl, rfl⟩
        obtain ⟨_, hidle⟩ := hstep.idle_of_returns h.placed hret
        rcases hsp with ⟨d, hd, _⟩ | ⟨q, x, hbase, hq, htop, hsp, hsusp⟩
        · exact absurd hd (hidle d)
        · rw [← List.append_nil x.words] at hsusp
          have hx := hsusp.returns hbase hq htop hstep hret
          refine Or.inl ⟨c, ?_, by rw [← hsp, ← hx]; rfl⟩
          show (s.toSystem.ctxsw L.toLayout c a u).running c = u
          rw [System.running_ctxsw, if_pos rfl]
      · refine At.idle hstep hsp (fun hcu => hu (hcu.symm.trans hc)) (fun d hd => ⟨?_, ?_⟩) fun i hi =>
          hub ((hrets u i).mp hi).1
        · rw [System.running_ctxsw, if_neg hd]
        · exact Function.update_of_ne hd ..
  · have hstack := L.idt_stack a
    have hslot := L.idt_slot a
    exact ctxsw_mem hc hroom (by omega) (by omega) b

/-- A new process waits with its first frame. -/
theorem Inv.create (h : Inv sym L s) {p : P} {func : BitVec 64}
    (hstep : Ctxsw.Step sym.toSymbols L.toLayout s.toSystem (.create p func) t) :
    Inv sym L ⟨t, Function.update s.frames (.proc p) [firstFrame (L.top (.proc p)) func t.mem]⟩ := by
  have hplaced := hstep.placed h.placed
  obtain ⟨hroom, hsusp⟩ := hstep.created h.placed
  have hpage : L.top (.proc p) = L.base (.proc p) + pgSize := L.kstack p
  have hlt := L.top_lt (.proc p)
  have hother : ∀ u, s.Live u → ∀ b, L.base u ≤ b → b < L.top u → t.mem b = s.mem b :=
    fun u hlive b hb hb' => hstep.stack_mem hlive hb hb' trivial
  have hat : ∀ u sp, (∀ c, s.running c = u → (t.running c = u ∧ t.core c = s.core c)) → s.At L u sp →
      System.At ⟨t, Function.update s.frames (.proc p) [firstFrame (L.top (.proc p)) func t.mem]⟩ L u sp := by
    intro u sp hrun hat
    rcases hat with ⟨c, hc, hsp⟩ | ⟨q, x, hbase, hq, htop, hsp, hsusp⟩
    · obtain ⟨hrunning, hcore⟩ := hrun c hc
      exact Or.inl ⟨c, hrunning, by rw [← hsp, ← hcore]⟩
    · refine Or.inr ⟨q, x, hbase, hq, htop, hsp, hsusp.step ⟨hbase, ?_⟩ hstep fun _ hret => hret⟩
      have hlen : x.words.length = 7 := rfl
      omega
  have hidt : ∀ b, L.idt ≤ b → b < L.idt + idtSize → t.mem b = s.mem b := by
    intro b hb hb'
    have hstack := L.idt_stack (.proc p)
    have hslot := L.idt_slot (.proc p)
    have hown := L.apart (.proc p) (.proc p)
    rw [hpage] at hstack hown hlt
    have hsize : pgSize = 4096 := rfl
    cases hstep with
    | create hnew => exact (createKproc_built sym.toSymbols s.mem func hlt hown).mem b (by omega) (by omega)
  have hlive : ∀ u, System.Live t u → u ≠ .proc p → s.Live u := by
    intro u hu hne
    cases u with
    | sched c => trivial
    | proc q =>
        cases hstep with
        | create hnew => exact (Function.update_of_ne (fun hq => hne (by rw [hq])) ..).symm.trans hu
  have hrun : ∀ c, t.running c = s.running c ∧ t.core c = s.core c := by
    intro c
    cases hstep with
    | create hnew => exact ⟨rfl, rfl⟩
  refine ⟨⟨hplaced.home, hplaced.alone, hplaced.live⟩, fun u hu => ?_, gateAt_idt hidt h.idt⟩
  by_cases hp : u = .proc p
  · subst hp
    have hrsp : (firstContext sym.toSymbols (L.top (.proc p))).rsp.toNat = L.top (.proc p) - 184 := by
      rw [firstContext, BitVec.toNat_ofNat, Nat.mod_eq_of_lt (by omega)]
    obtain ⟨hcontext, hwords⟩ := words_append.mp hsusp.words
    have hlen : (firstContext sym.toSymbols (L.top (.proc p))).words.length = 7 := rfl
    have htf : Ctxsw.sizeOf trapframe = 176 := rfl
    have hsp : ((firstCore (L.top (.proc p)) func).reg .rsp).toNat = L.top (.proc p) := by
      show (BitVec.ofNat 64 _).toNat = _
      rw [BitVec.toNat_ofNat, Nat.mod_eq_of_lt hlt]
    refine ⟨L.top (.proc p) - 184, Or.inr ⟨L.top (.proc p) - 240,
      firstContext sym.toSymbols (L.top (.proc p)), by omega, by omega, by omega, hrsp,
      ⟨hsusp.live, hsusp.idle, hsusp.pointer, hcontext⟩⟩, ?_⟩
    show Stacked sym _ _ t.mem _ (Function.update s.frames (.proc p) _ (.proc p))
    rw [Function.update_self]
    refine ⟨?_, ⟨?_, ?_, ?_, ?_, fun b hb hb' => ?_⟩, trivial⟩
    · show _ ≤ L.top (.proc p) - Ctxsw.sizeOf trapframe
      omega
    · show _ ≤ L.top (.proc p) - Ctxsw.sizeOf trapframe
      omega
    · show L.top (.proc p) - Ctxsw.sizeOf trapframe + 176 ≤ ((firstCore (L.top (.proc p)) func).reg .rsp).toNat
      omega
    · show ((firstCore (L.top (.proc p)) func).reg .rsp).toNat ≤ _
      omega
    · have hlow : L.top (.proc p) - Ctxsw.sizeOf trapframe - 8 = L.top (.proc p) - 240 + 8 * 7 := by omega
      show Words t.mem (L.top (.proc p) - Ctxsw.sizeOf trapframe - 8)
        (sym.returnFromIsr :: trapWords (firstCore (L.top (.proc p)) func) 0 0)
      rw [hlow, ← firstTrapframe_eq]
      rw [hlen] at hwords
      exact hwords
    · have hb : ((firstCore (L.top (.proc p)) func).reg .rsp).toNat ≤ b := hb
      omega
  · obtain ⟨sp, hsp, hstacked⟩ := h.stacked u (hlive u hu hp)
    refine ⟨sp, hat u sp (fun c hc => ⟨(hrun c).1.trans hc, (hrun c).2⟩) hsp, ?_⟩
    show Stacked sym _ _ t.mem _ (Function.update s.frames (.proc p) _ u)
    rw [Function.update_of_ne hp]
    exact hstacked.same (hother u (hlive u hu hp))

/-! ## Interrupts -/

/-- What CPU `c` does on the stack of its thread is a step of the thread. -/
theorem trap_work {k : Machine} (fs' : List Frame)
    (hm : ∀ b, b < L.base (s.running c) ∨ L.top (s.running c) ≤ b → k.mem b = s.mem b) :
    Ctxsw.Step sym.toSymbols L.toLayout s.toSystem (.work c k.toCore k.mem) (s.trap c k fs').toSystem := by
  refine .work (fun u hu _ b hb hb' => hm b ?_) fun u _ b hb hb' => hm b ?_
  · have := L.disjoint u (s.running c) hu
    omega
  · have := L.apart u (s.running c)
    omega

theorem Inv.trap (h : Inv sym L s) {k : Machine} {fs' : List Frame}
    (hm : ∀ b, b < L.base (s.running c) ∨ L.top (s.running c) ≤ b → k.mem b = s.mem b)
    (hown : Stacked sym (L.base (s.running c)) (L.top (s.running c)) k.mem (k.reg .rsp).toNat fs') :
    Inv sym L (s.trap c k fs') := by
  refine h.work (trap_work fs' hm) (fun u hu => Function.update_of_ne hu ..) ?_ fun b hb hb' => hm b ?_
  · rw [Function.update_self]
    exact hown
  · have := L.idt_stack (s.running c)
    omega

omit [DecidableEq C] [DecidableEq P] in
/-- The running thread's frames. -/
theorem Inv.running (h : Inv sym L s) (c : C) : Stacked sym (L.base (s.running c)) (L.top (s.running c)) s.mem
    ((s.core c).reg .rsp).toNat (s.frames (s.running c)) := by
  obtain ⟨sp, hsp, hstacked⟩ := h.stacked _ (h.placed.live_running c)
  rcases hsp with ⟨d, hd, hsp⟩ | ⟨q, x, _, _, _, _, hsusp⟩
  · have hdc := h.placed.running_inj hd
    subst hdc
    rw [hsp]
    exact hstacked
  · exact absurd rfl (hsusp.idle c)

theorem Inv.interrupt (h : Inv sym L s) {i : Fin 256} {err : Option (BitVec 64)}
    (herr : err.isSome ↔ i.val ∈ errorCodeVectors) (hroom : s.FrameRoom L c) :
    Inv sym L (s.trap c (enter sym (s.machine c) (gateAt s.mem (L.idt + 16 * i)) i err)
      (⟨((enter sym (s.machine c) (gateAt s.mem (L.idt + 16 * i)) i err).reg .rdi).toNat, i,
        err.getD 0, s.core c, s.mem, decide (i.val = vectorSyscall)⟩ :: s.frames (s.running c))) := by
  have hrunning := h.running c
  obtain ⟨hlow, hhigh⟩ := hroom
  have hentered := enter_entered sym (s := s.machine c) (g := gateAt s.mem (L.idt + 16 * i)) herr
    (show 184 ≤ ((s.core c).reg .rsp).toNat / 16 * 16 by omega)
  generalize enter sym (s.machine c) (gateAt s.mem (L.idt + 16 * i)) i err = t at *
  have hframe : (t.reg .rdi).toNat + 176 = ((s.core c).reg .rsp).toNat / 16 * 16 := hentered.frame
  have hrsp := hentered.rsp
  have hmem : ∀ b, b + 8 < (t.reg .rdi).toNat ∨ (t.reg .rdi).toNat + 176 ≤ b → t.mem b = s.mem b := hentered.mem
  refine h.trap (fun b hb => hmem b (by omega)) ⟨?_, ⟨?_, ?_, hhigh, hentered.words, fun b hb hb' => ?_⟩, ?_⟩
  · exact Nat.le_of_eq hrsp
  · show _ ≤ (t.reg .rdi).toNat
    omega
  · show (t.reg .rdi).toNat + 176 ≤ ((s.core c).reg .rsp).toNat
    omega
  · have hb : ((s.core c).reg .rsp).toNat ≤ b := hb
    exact hmem b (by omega)
  · show Stacked sym _ _ t.mem ((s.core c).reg .rsp).toNat _
    exact hrunning.congr fun b hb hb' => hmem b (by omega)

theorem Frame.setRax_rsp (F : Frame) (v : BitVec 64) : (F.setRax v).core.reg .rsp = F.core.reg .rsp :=
  Function.update_of_ne (show Reg.rsp ≠ Reg.rax by decide) v F.core.reg

/-- The result of a system call goes into the frame. -/
theorem handleSyscall_stored {F : Frame} {base top : Nat} {m : Bytes} (h : F.Stored sym base top m) :
    (F.setRax (BitVec.ofNat 64 (load64 (handleSyscall m F.tf) F.tf))).Stored sym base top (handleSyscall m F.tf) ∧
      ∀ b, b < F.tf ∨ F.tf + 8 ≤ b → handleSyscall m F.tf b = m b := by
  have hlow := h.low
  have hrsp := h.rsp
  have hrax : load64 m F.tf = (F.core.reg .rax).toNat := by
    have hwords := (words_cons.mp (words_cons.mp h.words).2).1
    rwa [show F.tf - 8 + 8 = F.tf by omega] at hwords
  have hoffset : F.tf + offsetOf trapframe .rax = F.tf := rfl
  simp only [handleSyscall, hoffset]
  split_ifs with hknown
  · have hload : BitVec.ofNat 64 (load64 (store64 m F.tf 0) F.tf) = 0 := by
      rw [load64_store64 m (by decide)]
      rfl
    have hset := h.words.set 1 0
    rw [show F.tf - 8 + 8 * 1 = F.tf by omega] at hset
    have houtside : ∀ b, b < F.tf ∨ F.tf + 8 ≤ b → store64 m F.tf 0 b = m b := fun b hb => store64_outside hb
    rw [hload]
    refine ⟨⟨hlow, by rw [Frame.setRax_rsp]; exact hrsp, by rw [Frame.setRax_rsp]; exact h.high, hset, fun b hb hb' => ?_⟩, houtside⟩
    rw [Frame.setRax_rsp] at hb
    rw [houtside b (by omega)]
    exact h.mem b hb hb'
  · have hsame : (F.setRax (BitVec.ofNat 64 (load64 m F.tf))).core = F.core := by
      rw [hrax, BitVec.ofNat_toNat, BitVec.setWidth_eq, Frame.setRax, Function.update_eq_self]
    refine ⟨⟨hlow, by rw [hsame]; exact hrsp, by rw [hsame]; exact h.high, by rw [hsame]; exact h.words, ?_⟩,
      fun _ _ => rfl⟩
    rw [hsame]
    exact h.mem

theorem Inv.syscall (h : Inv sym L s) {F : Frame} {rest : List Frame}
    (hframe : s.frames (s.running c) = F :: rest) :
    Inv sym L (s.trap c { s.core c with mem := handleSyscall s.mem F.tf }
      (F.setRax (BitVec.ofNat 64 (load64 (handleSyscall s.mem F.tf) F.tf)) :: rest)) := by
  have hrunning := h.running c
  rw [hframe] at hrunning
  obtain ⟨hsp, hF, hrest⟩ := hrunning
  obtain ⟨hstored, houtside⟩ := handleSyscall_stored hF
  have hlow := hF.low
  have hrsp := hF.rsp
  have hhigh := hF.high
  generalize BitVec.ofNat 64 (load64 (handleSyscall s.mem F.tf) F.tf) = v at hstored ⊢
  generalize handleSyscall s.mem F.tf = m at houtside hstored ⊢
  have hrest' : Stacked sym (L.base (s.running c)) (L.top (s.running c)) m (F.core.reg .rsp).toNat rest :=
    hrest.congr fun b hb hb' => houtside b (by omega)
  rw [← F.setRax_rsp v] at hrest'
  have hstacked : Stacked sym (L.base (s.running c)) (L.top (s.running c)) m ((s.core c).reg .rsp).toNat
      (F.setRax v :: rest) := ⟨hsp, hstored, hrest'⟩
  exact h.trap (fun b hb => houtside b (by omega)) hstacked

omit [DecidableEq C] [DecidableEq P] in
/-- A handler that returns goes on with what its interrupt hit. -/
theorem Inv.resumed (h : Inv sym L s) {F : Frame} {rest : List Frame} (hframe : s.frames (s.running c) = F :: rest)
    (hrsp : ((s.core c).reg .rsp).toNat + 8 = F.tf) :
    ((s.machine c).exec .ret).rip = sym.returnFromIsr ∧ (leave (s.machine c)).toCore = F.core ∧
      (leave (s.machine c)).mem = s.mem ∧
      ∀ b, (F.core.reg .rsp).toNat ≤ b → b < L.top (s.running c) → s.mem b = F.mem b := by
  have hrunning := h.running c
  have htop := L.top_lt (s.running c)
  rw [hframe] at hrunning
  obtain ⟨hsp, hF, hrest⟩ := hrunning
  have hroom := hF.rsp
  have hhigh := hF.high
  have hwords := hF.words
  rw [show F.tf - 8 = ((s.core c).reg .rsp).toNat by omega] at hwords
  obtain ⟨hrip, hcore, hmem⟩ := leave_core (s := s.machine c) hwords
    (show ((s.core c).reg .rsp).toNat + 184 < 2 ^ 64 by omega)
  exact ⟨hrip, hcore, hmem, hF.mem⟩

theorem Inv.returned (h : Inv sym L s) {F : Frame} {rest : List Frame} (hframe : s.frames (s.running c) = F :: rest)
    (hrsp : ((s.core c).reg .rsp).toNat + 8 = F.tf) : Inv sym L (s.trap c (leave (s.machine c)) rest) := by
  obtain ⟨_, hcore, hmem, _⟩ := h.resumed hframe hrsp
  have hrunning := h.running c
  rw [hframe] at hrunning
  have hsp : (leave (s.machine c)).reg .rsp = F.core.reg .rsp := congrArg (fun k : Core => k.reg .rsp) hcore
  refine h.trap (fun b _ => by rw [hmem]) ?_
  rw [hmem, hsp]
  exact hrunning.2.2

theorem Step.inv (hstep : Step sym L s e s') (h : Inv sym L s) : Inv sym L s' := by
  cases hstep with
  | @work t c k m hstep hcaller hidt =>
      refine h.work hstep (fun _ _ => rfl) ((h.running c).move (fun F hF => (hcaller F hF).1) fun F hF =>
        (hcaller F hF).2) hidt
  | create hstep => exact h.create hstep
  | @switchIn t c p hstep =>
      cases hstep with
      | switchIn hc hp hfree hroom =>
          exact h.switch (.switchIn hc hp hfree hroom) hc hroom ⟨rfl, rfl⟩ (by simp) (fun _ _ => Iff.rfl)
            fun _ _ hx => hx
  | @switchOut t c p hstep =>
      cases hstep with
      | switchOut hc hroom =>
          exact h.switch (.switchOut hc hroom) hc hroom ⟨rfl, rfl⟩ (by simp) (fun _ _ => Iff.rfl)
            fun _ _ hx => hx
  | interrupt herr hroom => exact h.interrupt herr hroom
  | syscall hframe _ => exact h.syscall hframe
  | leave hframe _ hrsp => exact h.returned hframe hrsp

theorem run_inv {l : List (System C P × Event C P × System C P)} (hrun : Trace (Step sym L) s l s')
    (hstart : Start sym L s) : Inv sym L s' :=
  hrun.invariant (fun h hstep => hstep.inv h) hstart.inv

/-! ## An interrupt and its return -/

/-- What a thread finds in `rax` when an interrupt is over. -/
def result (i : Nat) (rax : BitVec 64) : BitVec 64 :=
  if i = vectorSyscall ∧ (rax.toNat = sysYield ∨ rax.toNat = sysConRead) then 0 else rax

/-- The frame with the result of the system call. -/
def Frame.served (F : Frame) : Frame := F.setRax (result F.trapNo (F.core.reg .rax))

/-- The thread goes on as if there had been no interrupt, with the result of a system call. -/
structure Continues (i : Nat) (k k' : Core) : Prop where
  reg : ∀ r ≠ .rax, k'.reg r = k.reg r
  rax : k'.reg .rax = result i (k.reg .rax)
  rip : k'.rip = k.rip
  flags : k'.flags = k.flags
  cs : k'.cs = k.cs
  ss : k'.ss = k.ss

/-- The event ends an interrupt of thread `t` that hit it in the middle of `n` others. -/
def Ends (t : Thread C P) (n : Nat) (s : System C P) (e : Event C P) : Prop :=
  ∃ c, e = .leave c ∧ s.running c = t ∧ (s.frames t).length = n + 1

/-- Interrupt `F` of thread `t` is not over. -/
structure Open (t : Thread C P) (F : Frame) (rest : List Frame) (s : System C P) : Prop where
  live : s.Live t
  frames : ∃ fs F', s.frames t = fs ++ F' :: rest ∧ (F' = F ∨ F.pending = true ∧ F' = F.served)

theorem load_handleSyscall {F : Frame} {base top : Nat} {m : Bytes} (h : F.Stored sym base top m)
    (htrap : F.trapNo = vectorSyscall) :
    BitVec.ofNat 64 (load64 (handleSyscall m F.tf) F.tf) = result F.trapNo (F.core.reg .rax) := by
  have hlow := h.low
  have hrax : load64 m F.tf = (F.core.reg .rax).toNat := by
    have hwords := (words_cons.mp (words_cons.mp h.words).2).1
    rwa [show F.tf - 8 + 8 = F.tf by omega] at hwords
  have hoffset : F.tf + offsetOf trapframe .rax = F.tf := rfl
  simp only [handleSyscall, hoffset, result, htrap, true_and, hrax]
  split_ifs with hknown
  · rw [load64_store64 m (by decide)]
    rfl
  · rw [hrax, BitVec.ofNat_toNat, BitVec.setWidth_eq]

variable {u : Thread C P} {F : Frame} {rest : List Frame}

/-- Other threads, and interrupts on top of it, leave an interrupt alone. -/
theorem Step.open (hstep : Step sym L s e s') (hinv : Inv sym L s) (h : Open u F rest s)
    (htrap : F.pending = true → F.trapNo = vectorSyscall) (hends : ¬Ends u rest.length s e) :
    Open u F rest s' := by
  obtain ⟨fs, F', hframes, hF⟩ := h.frames
  have hlive : ∀ {e' : Ctxsw.Event C P}, Ctxsw.Step sym.toSymbols L.toLayout s.toSystem e' s'.toSystem →
      s'.Live u := fun hs => hs.live h.live
  have hself : ∀ c t fs', s' = s.trap c t fs' → s.running c ≠ u → Open u F rest s' := by
    rintro c t fs' rfl hc
    refine ⟨?_, fs, F', ?_, hF⟩
    · cases u <;> exact h.live
    · exact (Function.update_of_ne (Ne.symm hc) ..).trans hframes
  have hown : ∀ c t fs', s' = s.trap c t fs' → s.running c = u → (∃ fs F', fs' = fs ++ F' :: rest ∧
      (F' = F ∨ F.pending = true ∧ F' = F.served)) → Open u F rest s' := by
    rintro c t fs' rfl hc hfs
    refine ⟨by cases u <;> exact h.live, ?_⟩
    show ∃ fs F', Function.update s.frames (s.running c) fs' u = _ ∧ _
    rw [hc, Function.update_self]
    exact hfs
  cases hstep with
  | work hs _ _ => exact ⟨hlive hs, fs, F', hframes, hF⟩
  | @create t p func hs =>
      have hp : u ≠ .proc p := by
        rintro rfl
        cases hs with
        | create hnew =>
            have hcreated := h.live
            rw [System.Live, hnew] at hcreated
            cases hcreated
      exact ⟨hlive hs, fs, F', (Function.update_of_ne hp ..).trans hframes, hF⟩
  | switchIn hs => exact ⟨hlive hs, fs, F', hframes, hF⟩
  | switchOut hs => exact ⟨hlive hs, fs, F', hframes, hF⟩
  | @interrupt c i err herr hroom =>
      by_cases hc : s.running c = u
      · refine hown c _ _ rfl hc ?_
        rw [hc, hframes]
        exact ⟨_ :: fs, F', rfl, hF⟩
      · exact hself c _ _ rfl hc
  | @syscall c G rest' hframe hpending =>
      by_cases hc : s.running c = u
      · refine hown c _ _ rfl hc ?_
        rw [hc, hframes] at hframe
        cases fs with
        | nil =>
            obtain ⟨rfl, rfl⟩ := List.cons.inj hframe
            rcases hF with rfl | ⟨_, rfl⟩
            · have hstored := hinv.running c
              rw [hc, hframes] at hstored
              refine ⟨[], _, rfl, Or.inr ⟨hpending, ?_⟩⟩
              rw [load_handleSyscall hstored.2.1 (htrap hpending)]
              rfl
            · cases hpending
        | cons G' fs =>
            obtain ⟨rfl, rfl⟩ := List.cons.inj hframe
            exact ⟨_ :: fs, F', rfl, hF⟩
      · exact hself c _ _ rfl hc
  | @leave c G rest' hframe hpending hrsp =>
      by_cases hc : s.running c = u
      · refine hown c _ _ rfl hc ?_
        rw [hc, hframes] at hframe
        cases fs with
        | nil => exact absurd ⟨c, rfl, hc, by rw [hframes]; rfl⟩ hends
        | cons G' fs =>
            obtain ⟨_, rfl⟩ := List.cons.inj hframe
            exact ⟨fs, F', rfl, hF⟩
      · exact hself c _ _ rfl hc

theorem Continues.refl {i : Nat} (k : Core) (h : result i (k.reg .rax) = k.reg .rax) : Continues i k k :=
  ⟨fun _ _ => rfl, h.symm, rfl, rfl, rfl, rfl⟩

theorem Frame.served_continues (F : Frame) : Continues F.trapNo F.core F.served.core where
  reg _ hr := Function.update_of_ne hr ..
  rax := by
    show Function.update F.core.reg .rax (result F.trapNo (F.core.reg .rax)) .rax = _
    rw [Function.update_self]
  rip := rfl
  flags := rfl
  cs := rfl
  ss := rfl

/-- **An interrupt is invisible to the thread that it hits.**  The thread may be switched out and be
resumed on another CPU, other interrupts may hit the handler: when the handler returns, all
registers are as they were but for the result of a system call, and so is the stack above the stack
pointer. -/
theorem interrupt_transparent {l₁ l₂ l₃ : List (System C P × Event C P × System C P)}
    {x y : System C P × Event C P × System C P} {i : Fin 256} {err : Option (BitVec 64)} {d : C}
    (hstart : Start sym L s) (hrun : Trace (Step sym L) s (l₁ ++ x :: (l₂ ++ y :: l₃)) s')
    (hx : x.2.1 = .interrupt c i err)
    (hbetween : ∀ z ∈ l₂, ¬Ends (x.1.running c) (x.1.frames (x.1.running c)).length z.1 z.2.1)
    (hy : y.2.1 = .leave d) (hends : Ends (x.1.running c) (x.1.frames (x.1.running c)).length y.1 y.2.1) :
    ((y.1.machine d).exec .ret).rip = sym.returnFromIsr ∧
    Continues i (x.1.core c) (y.2.2.core d) ∧
    ∀ b, ((x.1.core c).reg .rsp).toNat ≤ b → b < L.top (x.1.running c) → y.2.2.mem b = x.1.mem b := by
  obtain ⟨hbefore, hxstep, hafter⟩ := hrun.of_append_cons
  obtain ⟨hl₂, hystep, _⟩ := hafter.of_append_cons
  have hinv := run_inv hbefore hstart
  obtain ⟨s₁, e₁, s₂⟩ := x
  obtain ⟨s₃, e₂, s₄⟩ := y
  simp only at *
  subst hx hy
  cases hxstep with
  | interrupt herr hroom =>
      have hinv₂ := hinv.interrupt herr hroom
      have hlive := hinv.placed.live_running c
      generalize enter sym (s₁.machine c) (gateAt s₁.mem (L.idt + 16 * i)) i err = t at *
      generalize hF : (⟨(t.reg .rdi).toNat, i, err.getD 0, s₁.core c, s₁.mem, decide (i.val = vectorSyscall)⟩ :
        Frame) = F at *
      have htrap : F.pending = true → F.trapNo = vectorSyscall := by
        rw [← hF]
        exact fun h => of_decide_eq_true h
      have hopen : Open (s₁.running c) F (s₁.frames (s₁.running c)) (s₁.trap c t (F :: s₁.frames (s₁.running c))) := by
        refine ⟨?_, [], F, Function.update_self .., Or.inl rfl⟩
        generalize s₁.running c = u at hlive ⊢
        cases u <;> exact hlive
      obtain ⟨hinv₃, hopen₃⟩ := hl₂.forward
        (P := fun s => Inv sym L s ∧ Open (s₁.running c) F (s₁.frames (s₁.running c)) s)
        (A := fun s e => ¬Ends (s₁.running c) (s₁.frames (s₁.running c)).length s e)
        (fun hA hP hs => ⟨hs.inv hP.1, hs.open hP.1 hP.2 htrap hA⟩) hbetween ⟨hinv₂, hopen⟩
      obtain ⟨d', hd', hrunning, hlength⟩ := hends
      cases hd'
      obtain ⟨fs, F', hframes, hF'⟩ := hopen₃.frames
      have hfs : fs = [] := by
        rw [hframes, List.length_append, List.length_cons] at hlength
        exact List.eq_nil_of_length_eq_zero (by omega)
      rw [hfs, List.nil_append] at hframes
      cases hystep with
      | @leave _ G rest hframe hpending hrsp =>
          obtain ⟨rfl, rfl⟩ := List.cons.inj (hframe.symm.trans (hrunning ▸ hframes))
          obtain ⟨hrip, hcore, hmem, habove⟩ := hinv₃.resumed hframe hrsp
          have hcore' : ∀ fs', (s₃.trap d (leave (s₃.machine d)) fs').core d = G.core :=
            fun _ => (Function.update_self ..).trans hcore
          have hGmem : G.mem = s₁.mem ∧ G.core.reg .rsp = (s₁.core c).reg .rsp := by
            rcases hF' with rfl | ⟨_, rfl⟩
            · rw [← hF]
              exact ⟨rfl, rfl⟩
            · rw [Frame.served, Frame.setRax_rsp, ← hF]
              exact ⟨rfl, rfl⟩
          refine ⟨hrip, ?_, fun b hb hb' => ?_⟩
          · rw [hcore']
            rcases hF' with rfl | ⟨_, rfl⟩
            · have hother : i.val ≠ vectorSyscall := by
                rw [← hF] at hpending
                exact of_decide_eq_false hpending
              rw [← hF]
              exact Continues.refl _ (if_neg fun h => hother h.1)
            · rw [← hF]
              exact Frame.served_continues
                ⟨(t.reg .rdi).toNat, i, err.getD 0, s₁.core c, s₁.mem, decide (i.val = vectorSyscall)⟩
          · rw [← hGmem.2] at hb
            rw [← hGmem.1, ← habove b hb (by rw [hrunning]; exact hb')]
            exact congrFun hmem b

theorem maskFlags_if (sym : Symbols) (i : Nat) (flags : BitVec 64) :
    ((gate sym i).maskFlags flags).getLsbD 9 = if i = vectorSyscall then flags.getLsbD 9 else false := by
  rw [Gate.maskFlags, BitVec.getLsbD_and, gate]
  by_cases h : i = vectorSyscall
  · simp [h]
  · simp [h]

/-- **Every interrupt of a run enters its handler with all that it interrupted in the trap frame.**  It
goes through the gate that `interrupt_init` wrote; interrupts are off unless it is a system call.  Only
the frame and the return address below it change in memory. -/
theorem interrupt_entered {l : List (System C P × Event C P × System C P)} {x : System C P × Event C P × System C P}
    {i : Fin 256} {err : Option (BitVec 64)} (hstart : Start sym L s) (hrun : Trace (Step sym L) s l s')
    (hx : x ∈ l) (he : x.2.1 = .interrupt c i err) :
    gateAt x.1.mem (L.idt + 16 * i) = gate sym i ∧
    (x.2.2.core c).rip = sym.handleInterrupt ∧
    (x.2.2.core c).flags.getLsbD 9 = (if i.val = vectorSyscall then (x.1.core c).flags.getLsbD 9 else false) ∧
    (∀ f, load64 x.2.2.mem (((x.2.2.core c).reg .rdi).toNat + offsetOf trapframe f) =
      (tfValue (x.1.core c) i (err.getD 0) f).toNat) ∧
    load64 x.2.2.mem (((x.2.2.core c).reg .rdi).toNat - 8) = sym.returnFromIsr.toNat ∧
    L.base (x.1.running c) + 8 ≤ ((x.2.2.core c).reg .rdi).toNat ∧
    ((x.2.2.core c).reg .rdi).toNat + 176 = ((x.1.core c).reg .rsp).toNat / 16 * 16 ∧
    (∀ b, b + 8 < ((x.2.2.core c).reg .rdi).toNat ∨ ((x.2.2.core c).reg .rdi).toNat + 176 ≤ b →
      x.2.2.mem b = x.1.mem b) := by
  obtain ⟨l₁, l₂, hbefore, hstep, _⟩ := hrun.split hx
  have hinv := run_inv hbefore hstart
  obtain ⟨s₁, e₁, s₂⟩ := x
  simp only at *
  subst he
  have hgate := hinv.idt i i.isLt
  cases hstep with
  | interrupt herr hroom =>
      obtain ⟨hlow, hhigh⟩ := hroom
      have hentered := enter_entered sym (s := s₁.machine c) (g := gateAt s₁.mem (L.idt + 16 * i)) herr
        (show 184 ≤ ((s₁.core c).reg .rsp).toNat / 16 * 16 by omega)
      have hcore : ∀ t fs', (s₁.trap c t fs').core c = t.toCore := fun t fs' => Function.update_self ..
      have hmem : ∀ t fs', (s₁.trap c t fs').mem = t.mem := fun _ _ => rfl
      rw [hcore, hmem]
      generalize enter sym (s₁.machine c) (gateAt s₁.mem (L.idt + 16 * i)) i err = t at *
      have hframe : (t.reg .rdi).toNat + 176 = ((s₁.core c).reg .rsp).toNat / 16 * 16 := hentered.frame
      refine ⟨hgate, hentered.rip, ?_, fun f => ?_, (words_cons.mp hentered.words).1, ?_, hframe, hentered.mem⟩
      · rw [hentered.flags, hgate, maskFlags_if]
        rfl
      · have hwords := (words_cons.mp hentered.words).2
        rw [show (t.reg .rdi).toNat - 8 + 8 = (t.reg .rdi).toNat by omega] at hwords
        exact words_trapframe hwords f
      · omega

theorem exists_interrupt (sym : Symbols) (i : Fin 256) (err : Option (BitVec 64))
    (herr : err.isSome ↔ i.val ∈ errorCodeVectors) (hroom : s.FrameRoom L c) :
    ∃ s', Step sym L s (.interrupt c i err) s' ∧ s'.running = s.running ∧
      ∃ F, s'.frames (s.running c) = F :: s.frames (s.running c) ∧ F.pending = decide (i.val = vectorSyscall) ∧
        ((s'.core c).reg .rsp).toNat + 8 = F.tf := by
  have hentered := enter_entered sym (s := s.machine c) (g := gateAt s.mem (L.idt + 16 * i)) herr
    (show 184 ≤ ((s.core c).reg .rsp).toNat / 16 * 16 by have := hroom.1; omega)
  have hstep : Step sym L s (.interrupt c i err) _ := .interrupt herr hroom
  generalize enter sym (s.machine c) (gateAt s.mem (L.idt + 16 * i)) i err = t at hentered hstep
  refine ⟨_, hstep, rfl,
    ⟨(t.reg .rdi).toNat, i, err.getD 0, s.core c, s.mem, decide (i.val = vectorSyscall)⟩,
    Function.update_self .., rfl, ?_⟩
  have hcore : ∀ fs', (s.trap c t fs').core c = t.toCore := fun _ => Function.update_self ..
  rw [hcore]
  exact hentered.rsp

theorem exists_syscall (sym : Symbols) {F : Frame} {rest : List Frame}
    (hframe : s.frames (s.running c) = F :: rest) (hpending : F.pending = true) :
    ∃ s', Step sym L s (.syscall c) s' ∧ s'.running = s.running ∧ s'.core c = s.core c ∧
      ∃ F', s'.frames (s.running c) = F' :: rest ∧ F'.pending = false ∧ F'.tf = F.tf := by
  have hstep : Step sym L s (.syscall c) _ := .syscall hframe hpending
  generalize BitVec.ofNat 64 (load64 (handleSyscall s.mem F.tf) F.tf) = v at hstep
  generalize handleSyscall s.mem F.tf = m at hstep
  exact ⟨_, hstep, rfl, Function.update_self .., F.setRax v, Function.update_self .., rfl, rfl⟩

end

/-- The stacks of `twoProcs`, and a descriptor table. -/
def twoTraps : Layout Unit Bool where
  toLayout := twoProcs
  idt := 0x100000
  idt_stack t := by
    have := threadIndex_le t
    simp only [twoProcs, pgSize]
    omega
  idt_slot t := by
    have := threadIndex_le t
    simp only [twoProcs]
    omega

def twoSymbols : Symbols := ⟨⟨0x8000, 0x9000⟩, 0x7000, fun i => BitVec.ofNat 64 (0x4000 + 16 * i)⟩

def twoStart : System Unit Bool where
  mem := interruptInit twoSymbols.vectors (fun _ => 0) twoTraps.idt
  core _ := coreAt 0x10800 1
  running c := .sched c
  created _ := false
  frames _ := []

theorem start_twoStart : Start twoSymbols twoTraps twoStart where
  threads := ⟨fun _ => rfl, fun _ => rfl⟩
  frames _ := rfl
  idt := ⟨fun _ => 0, fun b _ _ => by rw [twoStart]⟩

theorem frameRoom_twoStart : twoStart.FrameRoom twoTraps () := by
  constructor <;> decide

/-- `int 0x80` with `SYS_YIELD` in `rax` -/
theorem interrupt_transparent_yield : ∃ l s', Trace (Step twoSymbols twoTraps) twoStart l s' ∧
    Continues vectorSyscall (coreAt 0x10800 1) (s'.core ()) ∧ (s'.core ()).reg .rax = 0 := by
  obtain ⟨s₁, h₁, hrun₁, F, hF, hpending, hrsp⟩ := exists_interrupt twoSymbols 128 none
    (by decide) frameRoom_twoStart
  have hframe₁ : s₁.frames (s₁.running ()) = F :: [] := by rw [hrun₁]; exact hF
  obtain ⟨s₂, h₂, hrun₂, hcore₂, F', hF', hpending', htf⟩ := exists_syscall twoSymbols (L := twoTraps) hframe₁ hpending
  have hframe : s₂.frames (s₂.running ()) = F' :: [] := by rw [hrun₂]; exact hF'
  have h₃ : Step twoSymbols twoTraps s₂ (.leave ()) _ := .leave hframe hpending' (by rw [hcore₂, htf]; exact hrsp)
  have htrace := Trace.cons h₁ (.cons h₂ (.cons h₃ (.nil _)))
  have hdepth : (s₂.frames (twoStart.running ())).length = (twoStart.frames (twoStart.running ())).length + 1 := by
    rw [← hrun₁, hF']
    rfl
  obtain ⟨_, hcontinues, _⟩ := interrupt_transparent start_twoStart
    (show Trace _ _ ([] ++ _ :: ([_] ++ _ :: [])) _ from htrace) rfl
    (fun z hz => by rw [List.mem_singleton.mp hz]; exact fun ⟨_, h, _⟩ => by cases h) rfl
    ⟨(), rfl, by rw [hrun₂, hrun₁], hdepth⟩
  exact ⟨_, _, htrace, hcontinues, hcontinues.rax⟩

/-- A general protection fault with error code 5 -/
theorem interrupt_entered_fault : ∃ s', Trace (Step twoSymbols twoTraps) twoStart
    [(twoStart, .interrupt () 13 (some 5), s')] s' ∧
    load64 s'.mem (((s'.core ()).reg .rdi).toNat + offsetOf trapframe .errorCode) = 5 := by
  obtain ⟨s₁, h₁, _⟩ := exists_interrupt twoSymbols 13 (some 5) (by decide) frameRoom_twoStart
  have htrace := Trace.cons h₁ (.nil s₁)
  obtain ⟨_, _, _, hfields, _⟩ := interrupt_entered start_twoStart htrace List.mem_cons_self rfl
  exact ⟨s₁, htrace, hfields .errorCode⟩

end Trap
end GuideOS
