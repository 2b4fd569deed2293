import GuideOS.Proc.Ctxsw.Frame

/-!
# Runs of context switches

A thread that does not run has its context on its own stack, where no step of
another thread writes, until the switch that returns to it.
-/

namespace GuideOS
namespace Ctxsw

open Lib

section

variable {C P : Type} {s : System C P} {a : Thread C P} {c d : C}
variable {l : List (System C P × Event C P × System C P)}

/-! ## Which thread runs where -/

structure Placed (s : System C P) : Prop where
  home : ∀ {c d}, s.running c = .sched d → d = c
  alone : ∀ {c d p}, s.running c = .proc p → s.running d = .proc p → c = d
  live : ∀ {c p}, s.running c = .proc p → s.created p = true

theorem Start.placed (h : Start s) : Placed s where
  home {c d} hc := by
    rw [h.running, Thread.sched.injEq] at hc
    exact hc.symm
  alone {c d p} hc _ := by
    rw [h.running] at hc
    cases hc
  live {c p} hc := by
    rw [h.running] at hc
    cases hc

theorem Placed.running_inj (h : Placed s) (hcd : s.running c = s.running d) : c = d := by
  cases hc : s.running c with
  | sched x => exact (h.home hc).symm.trans (h.home (hcd ▸ hc))
  | proc p => exact h.alone hc (hcd ▸ hc)

theorem Placed.live_running (h : Placed s) (c : C) : s.Live (s.running c) := by
  cases hc : s.running c with
  | sched x => trivial
  | proc p => exact h.live hc

/-! ## Since when a thread waits -/

/-- The event from which thread `a` waits: its call of `sched_ctxsw`, or its creation. -/
def Event.Parks (e : Event C P) (a : Thread C P) : Prop :=
  (∃ c, e.Calls a c) ∨ ∃ p func, a = .proc p ∧ e = .create p func

/-- Thread `a` has not returned since the last event from which it waits. -/
def Parked (a : Thread C P) (l : List (System C P × Event C P × System C P)) : Prop :=
  ∃ l₁ x l₂, l = l₁ ++ x :: l₂ ∧ x.2.1.Parks a ∧ ∀ z ∈ l₂, ∀ i, ¬z.2.1.Returns a i

theorem Parked.append {x : System C P × Event C P × System C P} (h : Parked a l)
    (hx : ∀ i, ¬x.2.1.Returns a i) : Parked a (l ++ [x]) := by
  obtain ⟨l₁, y, l₂, rfl, hparks, hnot⟩ := h
  refine ⟨l₁, y, l₂ ++ [x], by simp, hparks, fun z hz => ?_⟩
  rcases List.mem_append.mp hz with hz | hz
  · exact hnot z hz
  · rw [List.mem_singleton.mp hz]
    exact hx

theorem parked_of_parks {x : System C P × Event C P × System C P} (hx : x.2.1.Parks a) :
    Parked a (l ++ [x]) :=
  ⟨l, x, [], rfl, hx, fun _ hz => absurd hz List.not_mem_nil⟩

theorem Start.parked (h : Start s) (a : Thread C P) (ha : s.Live a) :
    (∃ c, s.running c = a) ∨ Parked a [] := by
  cases a with
  | sched c => exact Or.inl ⟨c, h.running c⟩
  | proc p =>
      rw [System.Live, h.created] at ha
      cases ha

end

section

variable {C P : Type} [DecidableEq C] {L : Layout C P} {s s' : System C P} {e : Event C P}
variable {a t : Thread C P} {c d : C} {b : Nat} {l : List (System C P × Event C P × System C P)}

/-! ## One switch -/

/-- A switch from `a` writes the stack of `a` and its slot. -/
theorem ctxsw_saved (hc : s.running c = a) (hroom : s.Room L c) (t : Thread C P) :
    Saved (s.core c) s.mem (L.slot a) (s.ctxsw L c a t).mem := by
  have hslot := L.slot_lt a
  have hapart := L.apart a a
  obtain ⟨hlow, hhigh⟩ := hroom
  rw [hc] at hlow hhigh
  have hold : (BitVec.ofNat 64 (L.slot a)).toNat = L.slot a := by
    rw [BitVec.toNat_ofNat, Nat.mod_eq_of_lt (by omega)]
  have hsaved := callCtxsw_saved (k := s.core c) s.mem (BitVec.ofNat 64 (L.slot a))
    (BitVec.ofNat 64 (load64 s.mem (L.slot t))) (by omega) (by rw [hold]; omega)
  rw [hold] at hsaved
  rw [System.ctxsw, System.mem_resume]
  exact hsaved

/-- A switch leaves the bytes alone that are not on the caller's stack below its stack
pointer and not in its slot. -/
theorem ctxsw_mem (hc : s.running c = a) (hroom : s.Room L c)
    (hstack : b < L.base a ∨ L.top a ≤ b ∨ ((s.core c).reg .rsp).toNat ≤ b)
    (hslot : b < L.slot a ∨ L.slot a + 8 ≤ b) (u : Thread C P) :
    (s.ctxsw L c a u).mem b = s.mem b := by
  have hsaved := ctxsw_saved hc hroom u
  obtain ⟨hlow, hhigh⟩ := hroom
  rw [hc] at hlow hhigh
  exact hsaved.mem b (by omega) hslot

variable [DecidableEq P] {sym : Symbols}

theorem Step.placed (hstep : Step sym L s e s') (h : Placed s) : Placed s' := by
  cases hstep with
  | work _ _ => exact ⟨h.home, h.alone, h.live⟩
  | @create p func hnew =>
      refine ⟨h.home, h.alone, fun {c q} hc => ?_⟩
      by_cases hq : q = p
      · rw [hq]
        exact Function.update_self ..
      · exact (Function.update_of_ne hq ..).trans (h.live hc)
  | @switchIn c p hc hp hfree _ =>
      refine ⟨fun {x y} hx => ?_, fun {x y q} hx hy => ?_, fun {x q} hx => ?_⟩
      · rw [System.running_ctxsw] at hx
        split at hx
        · cases hx
        · exact h.home hx
      · rw [System.running_ctxsw] at hx hy
        split at hx
        · rename_i hxc
          cases hx
          split at hy
          · rename_i hyc
            rw [hxc, hyc]
          · exact absurd hy (hfree y)
        · split at hy
          · cases hy
            exact absurd hx (hfree x)
          · exact h.alone hx hy
      · rw [System.running_ctxsw] at hx
        split at hx
        · cases hx
          exact hp
        · exact h.live hx
  | @switchOut c p hc _ =>
      refine ⟨fun {x y} hx => ?_, fun {x y q} hx hy => ?_, fun {x q} hx => ?_⟩
      · rw [System.running_ctxsw] at hx
        split at hx
        · rename_i hxc
          cases hx
          exact hxc.symm
        · exact h.home hx
      · rw [System.running_ctxsw] at hx hy
        split at hx
        · cases hx
        · split at hy
          · cases hy
          · exact h.alone hx hy
      · rw [System.running_ctxsw] at hx
        split at hx
        · cases hx
        · exact h.live hx

/-! ## What a step writes -/

/-- An event leaves byte `b` on the stack of thread `t` alone, as far as `t` has part in
the event. -/
def Spares (s : System C P) (t : Thread C P) (b : Nat) : Event C P → Prop
  | .work c _ m => s.running c = t → m b = s.mem b
  | .create _ _ => True
  | .switchIn c _ => t = .sched c → ((s.core c).reg .rsp).toNat ≤ b
  | .switchOut c p => t = .proc p → ((s.core c).reg .rsp).toNat ≤ b

theorem spares_of_idle (hstep : Step sym L s e s') (hidle : ∀ c, s.running c ≠ t) (b : Nat) :
    Spares s t b e := by
  cases hstep with
  | @work c k m _ _ => exact fun hc => absurd hc (hidle c)
  | create _ => trivial
  | @switchIn c p hc _ _ _ =>
      intro ht
      exact absurd (ht ▸ hc) (hidle c)
  | @switchOut c p hc _ =>
      intro ht
      exact absurd (ht ▸ hc) (hidle c)

theorem Step.stack_mem (hstep : Step sym L s e s') (hlive : s.Live t) (hb : L.base t ≤ b)
    (hb' : b < L.top t) (hspares : Spares s t b e) : s'.mem b = s.mem b := by
  have hother : ∀ (c : C) (u : Thread C P), s.running c = u → s.Room L c →
      (t = u → ((s.core c).reg .rsp).toNat ≤ b) → ∀ v, (s.ctxsw L c u v).mem b = s.mem b := by
    intro c u hc hroom hown v
    have hslot := L.apart u t
    by_cases ht : t = u
    · exact ctxsw_mem hc hroom (Or.inr (Or.inr (hown ht))) (by omega) v
    · have hdisjoint := L.disjoint t u ht
      exact ctxsw_mem hc hroom (by omega) (by omega) v
  cases hstep with
  | @work c k m hstack hslot =>
      by_cases hc : s.running c = t
      · exact hspares hc
      · exact hstack t (Ne.symm hc) hlive b hb hb'
  | @create p func hnew =>
      have hne : t ≠ .proc p := by
        rintro rfl
        rw [System.Live, hnew] at hlive
        cases hlive
      have hdisjoint := L.disjoint t (.proc p) hne
      have hslot := L.apart (.proc p) t
      have hown := L.apart (.proc p) (.proc p)
      have htop := L.top_lt (.proc p)
      rw [L.kstack p] at hdisjoint htop hown
      have hpage : pgSize = 4096 := rfl
      exact (createKproc_built sym s.mem func htop hown).mem b (by omega) (by omega)
  | @switchIn c p hc _ _ hroom => exact hother c (.sched c) hc hroom hspares (.proc p)
  | @switchOut c p hc hroom => exact hother c (.proc p) hc hroom hspares (.sched c)

theorem Step.slot_mem (hstep : Step sym L s e s') (hlive : s.Live t) (hidle : ∀ c, s.running c ≠ t)
    (hb : L.slot t ≤ b) (hb' : b < L.slot t + 8) : s'.mem b = s.mem b := by
  have hother : ∀ (c : C) (u : Thread C P), s.running c = u → s.Room L c →
      ∀ v, (s.ctxsw L c u v).mem b = s.mem b := by
    intro c u hc hroom v
    have hne : t ≠ u := by
      rintro rfl
      exact hidle c hc
    have hstack := L.apart t u
    have hslot := L.slots t u hne
    exact ctxsw_mem hc hroom (by omega) (by omega) v
  cases hstep with
  | @work c k m _ hslot => exact hslot t hlive b hb hb'
  | @create p func hnew =>
      have hne : t ≠ .proc p := by
        rintro rfl
        rw [System.Live, hnew] at hlive
        cases hlive
      have hslot := L.slots t (.proc p) hne
      have hstack := L.apart t (.proc p)
      have hown := L.apart (.proc p) (.proc p)
      have htop := L.top_lt (.proc p)
      rw [L.kstack p] at hstack htop hown
      have hpage : pgSize = 4096 := rfl
      exact (createKproc_built sym s.mem func htop hown).mem b (by omega) (by omega)
  | @switchIn c p hc _ _ hroom => exact hother c (.sched c) hc hroom (.proc p)
  | @switchOut c p hc hroom => exact hother c (.proc p) hc hroom (.sched c)

/-! ## Threads that wait in `sched_ctxsw` -/

/-- Thread `t` waits, and the words `ws` lie on its stack where its context is. -/
structure Suspended (L : Layout C P) (t : Thread C P) (q : Nat) (ws : List (BitVec 64))
    (s : System C P) : Prop where
  live : s.Live t
  idle : ∀ c, s.running c ≠ t
  pointer : load64 s.mem (L.slot t) = q
  words : Words s.mem q ws

theorem Step.live (hstep : Step sym L s e s') (hlive : s.Live t) : s'.Live t := by
  cases t with
  | sched c => trivial
  | proc q =>
      cases hstep with
      | work _ _ => exact hlive
      | @create p func hnew =>
          by_cases hq : q = p
          · rw [hq]
            exact Function.update_self ..
          · exact (Function.update_of_ne hq ..).trans hlive
      | switchIn _ _ _ _ => exact hlive
      | switchOut _ _ => exact hlive

theorem Step.idle (hstep : Step sym L s e s') (hidle : ∀ c, s.running c ≠ t)
    (hret : ∀ c, ¬e.Returns t c) (d : C) : s'.running d ≠ t := by
  cases hstep with
  | work _ _ => exact hidle d
  | create _ => exact hidle d
  | @switchIn c p _ _ _ _ =>
      rw [System.running_ctxsw]
      split
      · exact fun ht => hret c ⟨ht.symm, rfl⟩
      · exact hidle d
  | @switchOut c p _ _ =>
      rw [System.running_ctxsw]
      split
      · exact fun ht => hret c ⟨ht.symm, rfl⟩
      · exact hidle d

/-- A waiting thread goes on waiting until a switch returns to it. -/
theorem Suspended.step {q : Nat} {ws : List (BitVec 64)} (h : Suspended L t q ws s)
    (hq : L.base t ≤ q ∧ q + 8 * ws.length ≤ L.top t) (hstep : Step sym L s e s')
    (hret : ∀ c, ¬e.Returns t c) : Suspended L t q ws s' where
  live := hstep.live h.live
  idle := hstep.idle h.idle hret
  pointer := by
    rw [← h.pointer]
    exact load64_congr fun b hb hb' => hstep.slot_mem h.live h.idle hb hb'
  words := h.words.congr fun b hb hb' =>
    hstep.stack_mem h.live (by omega) (by omega) (spares_of_idle hstep h.idle b)

/-- The caller of `sched_ctxsw` waits. -/
theorem Step.suspended (hstep : Step sym L s e s') (hplaced : Placed s) (hcall : e.Calls a c) :
    ∃ q, q + 56 = ((s.core c).reg .rsp).toNat ∧ L.base a ≤ q ∧ q + 56 ≤ L.top a ∧
      Suspended L a q (context (s.core c)).words s' := by
  have hswitch : ∀ u, s.running c = a → s.Room L c → a ≠ u →
      ∃ q, q + 56 = ((s.core c).reg .rsp).toNat ∧ L.base a ≤ q ∧ q + 56 ≤ L.top a ∧
        Suspended L a q (context (s.core c)).words (s.ctxsw L c a u) := by
    intro u hc hroom hu
    have hsaved := ctxsw_saved hc hroom u
    have hlive := hplaced.live_running c
    obtain ⟨hlow, hhigh⟩ := hroom
    rw [hc] at hlow hhigh hlive
    have hpointer := hsaved.pointer
    refine ⟨_, hpointer, by omega, by omega, ?_, fun d => ?_, rfl, hsaved.words⟩
    · cases a with
      | sched x => trivial
      | proc p => exact hlive
    · rw [System.running_ctxsw]
      split
      · exact Ne.symm hu
      · rename_i hd
        intro hrun
        exact hd (hplaced.running_inj (hrun.trans hc.symm))
  cases hstep with
  | work _ _ => cases hcall
  | create _ => cases hcall
  | @switchIn c p hc _ _ hroom =>
      obtain ⟨rfl, rfl⟩ := hcall
      exact hswitch (.proc p) hc hroom (by simp)
  | @switchOut c p hc hroom =>
      obtain ⟨rfl, rfl⟩ := hcall
      exact hswitch (.sched c) hc hroom (by simp)

/-- The switch that returns to a waiting thread restores its context. -/
theorem Suspended.returns {q : Nat} {x : Context} {ws : List (BitVec 64)}
    (h : Suspended L t q (x.words ++ ws) s) (hq : L.base t ≤ q) (hx : q + 56 = x.rsp.toNat)
    (hx' : x.rsp.toNat ≤ L.top t) (hstep : Step sym L s e s') (hret : e.Returns t c) :
    context (s'.core c) = x := by
  have hswitch : ∀ a, s.running c = a → s.Room L c → context ((s.ctxsw L c a t).core c) = x := by
    intro a hc hroom
    have hne : t ≠ a := by
      rintro rfl
      exact h.idle c hc
    have hslot := L.slot_lt a
    have hown := L.apart a a
    have hapart := L.apart a t
    have hdisjoint := L.disjoint t a hne
    have htop := L.top_lt t
    obtain ⟨hlow, hhigh⟩ := hroom
    rw [hc] at hlow hhigh
    have hold : (BitVec.ofNat 64 (L.slot a)).toNat = L.slot a := by
      rw [BitVec.toNat_ofNat, Nat.mod_eq_of_lt (by omega)]
    have hnew : (BitVec.ofNat 64 (load64 s.mem (L.slot t))).toNat = q := by
      rw [h.pointer, BitVec.toNat_ofNat, Nat.mod_eq_of_lt (by omega)]
    rw [System.ctxsw, System.core_resume]
    refine callCtxsw_restored _ _ _ (by omega) (by rw [hold]; omega) ?_ (by rw [hnew]; exact hx)
      (by rw [hnew]; omega) (by rw [hold, hnew]; omega)
    rw [hnew]
    exact (words_append.mp h.words).1
  cases hstep with
  | work _ _ => cases hret
  | create _ => cases hret
  | @switchIn c p hc _ _ hroom =>
      obtain ⟨rfl, rfl⟩ := hret
      exact hswitch (.sched c) hc hroom
  | @switchOut c p hc hroom =>
      obtain ⟨rfl, rfl⟩ := hret
      exact hswitch (.proc p) hc hroom

/-- A new process waits with its first frame. -/
theorem Step.created {p : P} {func : BitVec 64} (hstep : Step sym L s (.create p func) s')
    (hplaced : Placed s) :
    L.base (.proc p) + 240 ≤ L.top (.proc p) ∧
      Suspended L (.proc p) (L.top (.proc p) - 240) ((firstContext sym (L.top (.proc p))).words ++
        sym.returnFromIsr :: firstTrapframe (L.top (.proc p)) func) s' := by
  cases hstep with
  | create hnew =>
      have hown := L.apart (.proc p) (.proc p)
      have htop := L.top_lt (.proc p)
      have hpage : pgSize = 4096 := rfl
      rw [L.kstack p] at hown htop ⊢
      have hbuilt := createKproc_built sym s.mem func htop hown
      have hpointer := hbuilt.pointer
      refine ⟨by omega, Function.update_self .., fun c hc => ?_, ?_, ?_⟩
      · have hlive := hplaced.live hc
        rw [hnew] at hlive
        cases hlive
      · exact Nat.eq_sub_of_add_eq hpointer
      · refine words_append.mpr ⟨hbuilt.context, ?_⟩
        rw [show (firstContext sym (L.base (.proc p) + pgSize)).words.length = 7 by rfl,
          show L.base (.proc p) + pgSize - 240 + 8 * 7 = L.base (.proc p) + pgSize - 184 by omega]
        exact hbuilt.kentry

/-! ## Whole runs -/

/-- What the switches of a run preserve.  `parked`: every switch returns to a thread that
waits from its last call or its creation.  `returns`: a call of `sched_ctxsw` returns
with the context it was called with.  `starts`: the first switch to a process enters
`proc_kentry`, and when that returns, having left its caller's frame alone,
`return_from_isr` starts `func`. -/
structure Contexts (sym : Symbols) (L : Layout C P)
    (l : List (System C P × Event C P × System C P)) : Prop where
  parked : ∀ l₁ y l₂ a c, l = l₁ ++ y :: l₂ → y.2.1.Returns a c → Parked a l₁
  returns : ∀ l₁ x l₂ y l₃ a c d, l = l₁ ++ x :: (l₂ ++ y :: l₃) → x.2.1.Calls a c →
    (∀ z ∈ l₂, ∀ i, ¬z.2.1.Returns a i) → y.2.1.Returns a d →
    context (y.2.2.core d) = context (x.1.core c)
  starts : ∀ l₁ x l₂ y l₃ p func c, l = l₁ ++ x :: (l₂ ++ y :: l₃) → x.2.1 = .create p func →
    (∀ z ∈ l₂, ∀ i, ¬z.2.1.Returns (.proc p) i) → y.2.1.Returns (.proc p) c →
    (y.2.2.core c).rip = sym.procKentry ∧
      ∀ l₄ t d, Trace (Step sym L) y.2.2 l₄ t →
        (∀ z ∈ l₄, ∀ b, ((y.2.2.core c).reg .rsp).toNat ≤ b → b < L.top (.proc p) →
          Spares z.1 (.proc p) b z.2.1) →
        (t.core d).reg .rsp = (y.2.2.core c).reg .rsp →
        ((Machine.mk (t.core d) t.mem).exec .ret).rip = sym.returnFromIsr ∧
          Started (L.top (.proc p)) func
            (((Machine.mk (t.core d) t.mem).exec .ret).run returnFromIsr)

/-- Every thread runs or waits. -/
theorem Step.parked (hstep : Step sym L s e s')
    (h : ∀ a, s.Live a → (∃ c, s.running c = a) ∨ Parked a l) :
    ∀ a, s'.Live a → (∃ c, s'.running c = a) ∨ Parked a (l ++ [(s, e, s')]) := by
  have hswitch : ∀ (c : C) (u v : Thread C P), s.running c = u → s' = s.ctxsw L c u v →
      e.Calls u c → (∀ a i, e.Returns a i → a = v) → ∀ a, s'.Live a →
      (∃ c, s'.running c = a) ∨ Parked a (l ++ [(s, e, s')]) := by
    intro c u v hc hs' hcalls hreturns a ha
    subst hs'
    by_cases hv : a = v
    · exact Or.inl ⟨c, by rw [System.running_ctxsw, if_pos rfl, hv]⟩
    · by_cases hu : a = u
      · exact Or.inr (parked_of_parks (Or.inl ⟨c, by rw [hu]; exact hcalls⟩))
      · rcases h a (by cases a <;> exact ha) with ⟨d, hd⟩ | hparked
        · have hdc : d ≠ c := by
            rintro rfl
            exact hu (hd.symm.trans hc)
          exact Or.inl ⟨d, by rw [System.running_ctxsw, if_neg hdc, hd]⟩
        · exact Or.inr (hparked.append fun i hi => hv (hreturns a i hi))
  cases hstep with
  | work _ _ =>
      intro a ha
      rcases h a (by cases a <;> exact ha) with hrun | hparked
      · exact Or.inl hrun
      · exact Or.inr (hparked.append fun i hi => hi)
  | @create p func hnew =>
      intro a ha
      by_cases hp : a = .proc p
      · exact Or.inr (parked_of_parks (Or.inr ⟨p, func, hp, rfl⟩))
      · have hlive : s.Live a := by
          cases a with
          | sched c => trivial
          | proc q =>
              have hq : q ≠ p := fun hq => hp (by rw [hq])
              exact (Function.update_of_ne hq ..).symm.trans ha
        rcases h a hlive with hrun | hparked
        · exact Or.inl hrun
        · exact Or.inr (hparked.append fun i hi => hi)
  | @switchIn c p hc _ _ _ =>
      exact hswitch c (.sched c) (.proc p) hc rfl ⟨rfl, rfl⟩ fun a i hi => hi.1
  | @switchOut c p hc _ =>
      exact hswitch c (.proc p) (.sched c) hc rfl ⟨rfl, rfl⟩ fun a i hi => hi.1

theorem run_parked (l₀ : List (System C P × Event C P × System C P)) (hrun : Trace (Step sym L) s l s')
    (h : ∀ a, s.Live a → (∃ c, s.running c = a) ∨ Parked a l₀) :
    ∀ a, s'.Live a → (∃ c, s'.running c = a) ∨ Parked a (l₀ ++ l) := by
  induction hrun generalizing l₀ with
  | nil s =>
      rw [List.append_nil]
      exact h
  | cons hstep _ ih =>
      have hrest := ih _ (hstep.parked h)
      simpa only [List.append_assoc, List.singleton_append] using hrest

/-- The thread that a switch returns to is there and does not run. -/
theorem Step.idle_of_returns (hstep : Step sym L s e s') (hplaced : Placed s) (hret : e.Returns a c) :
    s.Live a ∧ ∀ d, s.running d ≠ a := by
  cases hstep with
  | work _ _ => cases hret
  | create _ => cases hret
  | @switchIn c p hc hp hfree _ =>
      obtain ⟨rfl, rfl⟩ := hret
      exact ⟨hp, hfree⟩
  | @switchOut c p hc _ =>
      obtain ⟨rfl, rfl⟩ := hret
      refine ⟨trivial, fun d hd => ?_⟩
      rw [← hplaced.home hd] at hd
      rw [hd] at hc
      cases hc

theorem Suspended.run {q : Nat} {ws : List (BitVec 64)} (h : Suspended L t q ws s)
    (hq : L.base t ≤ q ∧ q + 8 * ws.length ≤ L.top t) (hrun : Trace (Step sym L) s l s')
    (hret : ∀ z ∈ l, ∀ i, ¬z.2.1.Returns t i) : Suspended L t q ws s' :=
  hrun.forward (A := fun _ e => ∀ i, ¬e.Returns t i)
    (fun hnot hs hstep => hs.step hq hstep hnot) hret h

/-- The frame of a thread stays as long as every event leaves it alone. -/
theorem frame_run {q : Nat} (hrun : Trace (Step sym L) s l s') (hlive : s.Live t)
    (hq : L.base t ≤ q)
    (hspares : ∀ z ∈ l, ∀ b, q ≤ b → b < L.top t → Spares z.1 t b z.2.1) :
    ∀ b, q ≤ b → b < L.top t → s'.mem b = s.mem b := by
  have hkeep := hrun.forward (P := fun u => u.Live t ∧ ∀ b, q ≤ b → b < L.top t → u.mem b = s.mem b)
    (A := fun u e => ∀ b, q ≤ b → b < L.top t → Spares u t b e)
    (fun hA h hstep => ⟨hstep.live h.1, fun b hb hb' =>
      (hstep.stack_mem h.1 (by omega) hb' (hA b hb hb')).trans (h.2 b hb hb')⟩)
    hspares ⟨hlive, fun _ _ _ => rfl⟩
  exact hkeep.2

theorem run_contexts (hrun : Trace (Step sym L) s l s') (hstart : Start s) : Contexts sym L l := by
  have hplaced : ∀ {l₁ u}, Trace (Step sym L) s l₁ u → Placed u := fun h =>
    h.invariant (fun hs hstep => hstep.placed hs) hstart.placed
  constructor
  · rintro l₁ y l₂ a c rfl hret
    obtain ⟨hbefore, hy, _⟩ := hrun.of_append_cons
    obtain ⟨hlive, hidle⟩ := hy.idle_of_returns (hplaced hbefore) hret
    rcases run_parked [] hbefore hstart.parked a hlive with ⟨d, hd⟩ | hparked
    · exact absurd hd (hidle d)
    · exact hparked
  · rintro l₁ x l₂ y l₃ a c d rfl hcall hnot hret
    obtain ⟨hbefore, hx, hafter⟩ := hrun.of_append_cons
    obtain ⟨hbetween, hy, _⟩ := hafter.of_append_cons
    obtain ⟨q, hq, hbase, htop, hsusp⟩ := hx.suspended (hplaced hbefore) hcall
    have hwait := hsusp.run ⟨hbase, htop⟩ hbetween hnot
    rw [← List.append_nil (context (x.1.core c)).words] at hwait
    have hrsp : q + 56 = (context (x.1.core c)).rsp.toNat := hq
    exact hwait.returns hbase hrsp (by omega) hy hret
  · rintro l₁ x l₂ y l₃ p func c rfl hcreate hnot hret
    obtain ⟨hbefore, hx, hafter⟩ := hrun.of_append_cons
    obtain ⟨hbetween, hy, _⟩ := hafter.of_append_cons
    rw [hcreate] at hx
    obtain ⟨hroom, hsusp⟩ := hx.created (hplaced hbefore)
    have hlen : ((firstContext sym (L.top (.proc p))).words ++
        sym.returnFromIsr :: firstTrapframe (L.top (.proc p)) func).length = 30 := rfl
    have hwait := hsusp.run (by rw [hlen]; omega) hbetween hnot
    have hlt := L.top_lt (.proc p)
    have hentry : (firstContext sym (L.top (.proc p))).rsp.toNat = L.top (.proc p) - 184 := by
      rw [firstContext, BitVec.toNat_ofNat, Nat.mod_eq_of_lt (by omega)]
    have hcontext := hwait.returns (by omega) (by rw [hentry]; omega) (by omega) hy hret
    have hrip : (y.2.2.core c).rip = sym.procKentry := congrArg Context.rip hcontext
    have hrsp : ((y.2.2.core c).reg .rsp).toNat = L.top (.proc p) - 184 := by
      rw [← hentry, ← hcontext]
      rfl
    refine ⟨hrip, fun l₄ t d hrest hspares hsp => ?_⟩
    have hlive : y.2.2.Live (.proc p) := hy.live hwait.live
    -- The switch itself leaves the stack of the process alone, and so does all that follows.
    have hfirst : ∀ b, L.top (.proc p) - 184 ≤ b → b < L.top (.proc p) → y.2.2.mem b = y.1.mem b :=
      fun b hb hb' => hy.stack_mem hwait.live (by omega) hb' (spares_of_idle hy hwait.idle b)
    have hlater := frame_run hrest hlive (q := L.top (.proc p) - 184) (by omega)
      (by rw [← hrsp]; exact hspares)
    have hwords := (words_append.mp hwait.words).2
    rw [show (firstContext sym (L.top (.proc p))).words.length = 7 by rfl,
      show L.top (.proc p) - 240 + 8 * 7 = L.top (.proc p) - 184 by omega] at hwords
    refine ret_started ?_ ?_
    · show Words t.mem ((t.core d).reg .rsp).toNat _
      rw [hsp, hrsp]
      refine hwords.congr fun b hb hb' => ?_
      have hend : 8 * (sym.returnFromIsr :: firstTrapframe (L.top (.proc p)) func).length = 184 := rfl
      rw [hlater b hb (by omega), hfirst b hb (by omega)]
    · show ((t.core d).reg .rsp).toNat + 184 < 2 ^ 64
      rw [hsp, hrsp]
      omega

end

def threadIndex : Thread Unit Bool → Nat
  | .sched _ => 1
  | .proc false => 2
  | .proc true => 3

theorem threadIndex_le (t : Thread Unit Bool) : 1 ≤ threadIndex t ∧ threadIndex t ≤ 3 := by
  rcases t with _ | _ | _ <;> simp [threadIndex]

theorem threadIndex_ne {t u : Thread Unit Bool} (h : t ≠ u) : threadIndex t ≠ threadIndex u := by
  rcases t with _ | _ | _ <;> rcases u with _ | _ | _ <;> simp_all [threadIndex]

/-- One CPU and two processes, with stacks of a page each. -/
def twoProcs : Layout Unit Bool where
  base t := 0x10000 * threadIndex t
  top t := 0x10000 * threadIndex t + pgSize
  slot t := 0x100 * threadIndex t
  kstack _ := rfl
  top_lt t := by
    have := threadIndex_le t
    simp only [pgSize]
    omega
  slot_lt t := by
    have := threadIndex_le t
    omega
  disjoint t u h := by
    have := threadIndex_ne h
    simp only [pgSize]
    omega
  slots t u h := by
    have := threadIndex_ne h
    omega
  apart t u := by
    have := threadIndex_le t
    have := threadIndex_le u
    omega

/-- Registers with a given stack pointer and `v` in all others. -/
def coreAt (rsp v : BitVec 64) : Core where
  reg r := if r = .rsp then rsp else v
  rip := v
  flags := 0
  cs := 8
  ss := 16

section

variable {C P : Type} [DecidableEq C] [DecidableEq P] (sym : Symbols) (L : Layout C P) {s : System C P}

theorem exists_work (s : System C P) (c : C) (k : Core) : ∃ s', Step sym L s (.work c k s.mem) s' ∧
    s'.running = s.running ∧ s'.created = s.created ∧ s'.core c = k :=
  ⟨_, .work (fun _ _ _ _ _ _ => rfl) (fun _ _ _ _ _ => rfl), rfl, rfl, Function.update_self ..⟩

theorem exists_create {p : P} (h : s.created p = false) (func : BitVec 64) :
    ∃ s', Step sym L s (.create p func) s' ∧ s'.running = s.running ∧ s'.core = s.core ∧
      s'.created = Function.update s.created p true :=
  ⟨_, .create h, rfl, rfl, rfl⟩

theorem exists_switchIn {c : C} {p : P} (hc : s.running c = .sched c) (hp : s.created p = true)
    (hfree : ∀ d, s.running d ≠ .proc p) (hroom : s.Room L c) :
    ∃ s', Step sym L s (.switchIn c p) s' ∧ s'.running c = .proc p ∧ s'.created = s.created :=
  ⟨_, .switchIn hc hp hfree hroom, by rw [System.running_ctxsw, if_pos rfl], rfl⟩

theorem exists_switchOut {c : C} {p : P} (hc : s.running c = .proc p) (hroom : s.Room L c) :
    ∃ s', Step sym L s (.switchOut c p) s' ∧ s'.running c = .sched c ∧ s'.created = s.created :=
  ⟨_, .switchOut hc hroom, by rw [System.running_ctxsw, if_pos rfl], rfl⟩

end

/-- The first process runs, the second runs, and the first returns. -/
theorem run_contexts_two : ∃ s l s', Trace (Step ⟨0x8000, 0x9000⟩ twoProcs) s l s' ∧ Start s ∧
    ∃ x ∈ l, ∃ y ∈ l, x.2.1 = .switchOut () false ∧ y.2.1 = .switchIn () false ∧
      context (x.1.core ()) = context (coreAt 0x20800 7) ∧
      context (y.2.2.core ()) = context (x.1.core ()) := by
  let s₀ : System Unit Bool :=
    ⟨fun _ => 0, fun _ => coreAt 0x10800 1, fun c => .sched c, fun _ => false⟩
  have hroom : ∀ {s : System Unit Bool} {a : Thread Unit Bool} {k : Core}, s.running () = a →
      s.core () = k → twoProcs.base a + 56 ≤ (k.reg .rsp).toNat →
      (k.reg .rsp).toNat ≤ twoProcs.top a → s.Room twoProcs () := fun hrun hcore hlow hhigh => by
    rw [System.Room, hrun, hcore]
    exact ⟨hlow, hhigh⟩
  have hfree : ∀ {s : System Unit Bool} {p : Bool}, s.running () = .sched () →
      ∀ d, s.running d ≠ .proc p := fun hrun d => by
    rw [show d = () by rfl, hrun]
    simp
  obtain ⟨s₁, h₁, hrun₁, hcore₁, hmade₁⟩ :=
    exists_create ⟨0x8000, 0x9000⟩ twoProcs (s := s₀) (p := false) rfl 0xA000
  obtain ⟨s₂, h₂, hrun₂, hcore₂, hmade₂⟩ :=
    exists_create ⟨0x8000, 0x9000⟩ twoProcs (s := s₁) (p := true) (by rw [hmade₁]; rfl) 0xB000
  have hsched₂ : s₂.running () = .sched () := by rw [hrun₂, hrun₁]
  have hlive : ∀ p, s₂.created p = true := by
    rw [hmade₂, hmade₁]
    decide
  obtain ⟨s₃, h₃, hrun₃, hmade₃⟩ := exists_switchIn ⟨0x8000, 0x9000⟩ twoProcs hsched₂ (hlive false)
    (hfree hsched₂) (hroom hsched₂ (by rw [hcore₂, hcore₁]) (by decide) (by decide))
  obtain ⟨s₄, h₄, hrun₄, hmade₄, hcore₄⟩ := exists_work ⟨0x8000, 0x9000⟩ twoProcs s₃ () (coreAt 0x20800 7)
  obtain ⟨s₅, h₅, hrun₅, hmade₅⟩ := exists_switchOut ⟨0x8000, 0x9000⟩ twoProcs
    (by rw [hrun₄, hrun₃]) (hroom (by rw [hrun₄, hrun₃]) hcore₄ (by decide) (by decide))
  obtain ⟨s₆, h₆, hrun₆, hmade₆, hcore₆⟩ := exists_work ⟨0x8000, 0x9000⟩ twoProcs s₅ () (coreAt 0x10800 2)
  have hsched₆ : s₆.running () = .sched () := by rw [hrun₆, hrun₅]
  obtain ⟨s₇, h₇, hrun₇, hmade₇⟩ := exists_switchIn ⟨0x8000, 0x9000⟩ twoProcs hsched₆
    (by rw [hmade₆, hmade₅, hmade₄, hmade₃]; exact hlive true) (hfree hsched₆)
    (hroom hsched₆ hcore₆ (by decide) (by decide))
  obtain ⟨s₈, h₈, hrun₈, hmade₈, hcore₈⟩ := exists_work ⟨0x8000, 0x9000⟩ twoProcs s₇ () (coreAt 0x30800 3)
  obtain ⟨s₉, h₉, hrun₉, hmade₉⟩ := exists_switchOut ⟨0x8000, 0x9000⟩ twoProcs
    (by rw [hrun₈, hrun₇]) (hroom (by rw [hrun₈, hrun₇]) hcore₈ (by decide) (by decide))
  obtain ⟨t, h₁₀, hrun, hmade, hcore⟩ := exists_work ⟨0x8000, 0x9000⟩ twoProcs s₉ () (coreAt 0x10800 4)
  have hsched : t.running () = .sched () := by rw [hrun, hrun₉]
  obtain ⟨u, h₁₁, _⟩ := exists_switchIn ⟨0x8000, 0x9000⟩ twoProcs hsched
    (by rw [hmade, hmade₉, hmade₈, hmade₇, hmade₆, hmade₅, hmade₄, hmade₃]; exact hlive false)
    (hfree hsched) (hroom hsched hcore (by decide) (by decide))
  have htrace := Trace.cons h₁ (.cons h₂ (.cons h₃ (.cons h₄ (.cons h₅ (.cons h₆ (.cons h₇
    (.cons h₈ (.cons h₉ (.cons h₁₀ (.cons h₁₁ (.nil u)))))))))))
  have hstart : Start s₀ := ⟨fun _ => rfl, fun _ => rfl⟩
  refine ⟨s₀, _, u, htrace, hstart, (s₄, .switchOut () false, s₅), by simp,
    (t, .switchIn () false, u), by simp, rfl, rfl, by rw [hcore₄], ?_⟩
  exact (run_contexts htrace hstart).returns [_, _, _, _] _ [_, _, _, _, _] _ [] (.proc false) () () rfl
    ⟨rfl, rfl⟩ (by simp [Event.Returns]) ⟨rfl, rfl⟩

end Ctxsw
end GuideOS
