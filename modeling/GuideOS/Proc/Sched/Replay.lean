import GuideOS.Proc.Sched.Effect

/-!
# Runs that keep to a rule

A property that only some clients or some interleavings have is stated over the
runs whose steps all keep to a rule.  A run of given events can be replayed: the
test of each event is executable and covers the demands on its caller.
-/

namespace GuideOS
namespace Sched

/-- The states of the runs in which every step keeps to `A`. -/
inductive Keeps (A : Machine → Nat → Event → Prop) : Machine → Prop
  | boot (uartEnable : Bool) : Keeps A (Machine.boot uartEnable)
  | step {m m' : Machine} {c : Nat} {e : Event} (h : Keeps A m) (hlegal : Legal m c e)
      (hrule : A m c e) (hstep : step m c e = some m') : Keeps A m'

section

variable {A : Machine → Nat → Event → Prop} {m m' : Machine}

theorem Keeps.reachable (h : Keeps A m) : Reachable m := by
  induction h with
  | boot uartEnable => exact .boot uartEnable
  | step _ hlegal _ hstep ih => exact .step ih hlegal hstep

/-- The rule for invariants of such runs. -/
theorem Keeps.invariant {P : Machine → Prop} (h : Keeps A m)
    (hboot : ∀ uartEnable, P (Machine.boot uartEnable))
    (hstep : ∀ {m m' c e}, Inv m → Inv m' → P m → Legal m c e → A m c e →
      Sched.step m c e = some m' → P m') :
    P m := by
  induction h with
  | boot uartEnable => exact hboot uartEnable
  | step hm hlegal hrule he ih =>
      have hinv := hm.reachable.inv
      exact hstep hinv (step_inv hinv hlegal he) ih hlegal hrule he

/-! ## Replays -/

/-- The demands of `Legal`, with the counter of the CPU for the locks it holds. -/
def checkLegal (m : Machine) (c : Nat) : Event → Bool
  | .exec => true
  | .irq _ => true
  | .call (.setInterrupt _) => (m.cpu c).panicked = none && (m.cpu c).intDisableLayer = 0
  | .call (.schedCreateKproc (.user n)) => (m.proc (.user n)).state = .unused
  | .call (.schedAdd (.user n)) => (m.proc (.user n)).state ≠ .unused && .user n ∉ m.passed
  | .call .schedStart => (m.cpu c).running = .cpu c && (m.cpu c).panicked = none &&
      (m.cpu c).intDisableLayer = 0
  | .call .schedYield => true
  | .call .consoleGetc => true
  | .call (.syscall _) => true
  | .call (.schedWakeup _) => true
  | .call .curproc => true
  | .call _ => false

theorem legal_of_check (h : Inv m) {c : Nat} {e : Event} (hcheck : checkLegal m c e = true) :
    Legal m c e := by
  cases e with
  | exec => trivial
  | irq i => trivial
  | call a =>
      cases a with
      | setInterrupt on =>
          simp only [checkLegal, Bool.and_eq_true, decide_eq_true_eq] at hcheck
          exact h.held_eq_empty hcheck.1 hcheck.2
      | schedCreateKproc p =>
          cases p with
          | idle c => cases hcheck
          | user n => exact ⟨⟨n, rfl⟩, by simpa [checkLegal] using hcheck⟩
      | schedAdd p =>
          cases p with
          | idle c => cases hcheck
          | user n => exact ⟨⟨n, rfl⟩, by simpa [checkLegal] using hcheck⟩
      | schedStart =>
          simp only [checkLegal, Bool.and_eq_true, decide_eq_true_eq] at hcheck
          exact ⟨hcheck.1.1, h.held_eq_empty hcheck.1.2 hcheck.2⟩
      | acquire l => cases hcheck
      | release l => cases hcheck
      | schedSleep chan lk => cases hcheck
      | schedYield => trivial
      | consoleGetc => trivial
      | syscall s => trivial
      | schedWakeup chan => trivial
      | curproc => trivial

/-- One event of a replay, which must pass its own test and that of the rule. -/
def replayStep (ok : Machine → Nat → Event → Bool) (m : Machine) (x : Nat × Event) : Option Machine :=
  if checkLegal m x.1 x.2 && ok m x.1 x.2 then step m x.1 x.2 else none

/-- A CPU runs `n` instructions. -/
def execs (c n : Nat) : List (Nat × Event) := List.replicate n (c, .exec)

theorem Keeps.replay {ok : Machine → Nat → Event → Bool}
    (hok : ∀ m c e, Reachable m → ok m c e = true → A m c e) (h : Keeps A m)
    (es : List (Nat × Event)) (hrun : es.foldlM (replayStep ok) m = some m') : Keeps A m' := by
  induction es generalizing m with
  | nil =>
      obtain rfl : m = m' := by simpa using hrun
      exact h
  | cons x es ih =>
      obtain ⟨n, hn, hrest⟩ := Option.bind_eq_some_iff.mp
        (show (replayStep ok m x).bind _ = some m' from hrun)
      refine ih ?_ hrest
      rw [replayStep] at hn
      split at hn
      · rename_i hpass
        rw [Bool.and_eq_true] at hpass
        exact h.step (legal_of_check h.reachable.inv hpass.1) (hok m x.1 x.2 h.reachable hpass.2) hn
      · cases hn

/-- A replay that ends in a state with the tested property. -/
theorem exists_keeps_of_replay (ok : Machine → Nat → Event → Bool)
    (hok : ∀ m c e, Reachable m → ok m c e = true → A m c e) (test : Machine → Bool)
    (es : List (Nat × Event))
    (hrun : (es.foldlM (replayStep ok) (Machine.boot true)).any test = true) :
    ∃ m, Keeps A m ∧ test m = true := by
  obtain ⟨m, hm, htest⟩ := (Option.any_eq_true _ _).mp hrun
  exact ⟨m, (Keeps.boot true).replay hok es hm, htest⟩

end

end Sched
end GuideOS
