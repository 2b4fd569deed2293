import Mathlib.Logic.Basic

/-!
# Runs of a transition system

A labelled transition system is a relation `R s e t`: in state `s` the event `e`
leads to `t`.  A trace lists the transitions of a run in order, with the states
on both sides, so that a statement can be about one of them, about the events in
between, or about the last state.
-/

namespace GuideOS
namespace Lib

variable {σ ε : Type*}

inductive Trace (R : σ → ε → σ → Prop) : σ → List (σ × ε × σ) → σ → Prop
  | nil (s : σ) : Trace R s [] s
  | cons {s t u : σ} {e : ε} {l : List (σ × ε × σ)} :
      R s e t → Trace R t l u → Trace R s ((s, e, t) :: l) u

variable {R : σ → ε → σ → Prop} {s t u : σ} {l l' : List (σ × ε × σ)}

theorem Trace.append (h : Trace R s l t) (h' : Trace R t l' u) : Trace R s (l ++ l') u := by
  induction h with
  | nil s => exact h'
  | cons hstep _ ih => exact Trace.cons hstep (ih h')

/-- A transition in the middle of a trace. -/
theorem Trace.of_append_cons {x : σ × ε × σ} (h : Trace R s (l ++ x :: l') u) :
    Trace R s l x.1 ∧ R x.1 x.2.1 x.2.2 ∧ Trace R x.2.2 l' u := by
  induction l generalizing s with
  | nil =>
      cases h with
      | cons hstep hrest => exact ⟨.nil _, hstep, hrest⟩
  | cons y l ih =>
      cases h with
      | cons hstep hrest =>
          obtain ⟨hbefore, hx, hafter⟩ := ih hrest
          exact ⟨.cons hstep hbefore, hx, hafter⟩

/-- What every allowed step keeps holds at the end of a run of such steps. -/
theorem Trace.forward {P : σ → Prop} {A : σ → ε → Prop}
    (hstep : ∀ {s e t}, A s e → P s → R s e t → P t) (h : Trace R s l t)
    (hA : ∀ x ∈ l, A x.1 x.2.1) (hs : P s) : P t := by
  induction h with
  | nil s => exact hs
  | cons he _ ih =>
      have ht := hstep (hA _ List.mem_cons_self) hs he
      exact ih (fun x hx => hA x (List.mem_cons_of_mem _ hx)) ht

/-- What every step keeps holds at the end of a run. -/
theorem Trace.invariant {P : σ → Prop} (hstep : ∀ {s e t}, P s → R s e t → P t)
    (h : Trace R s l t) (hs : P s) : P t :=
  h.forward (A := fun _ _ => True) (fun _ => hstep) (fun _ _ => trivial) hs

/-- What every allowed step carries back from its end to its start held at the
start of each transition of the run. -/
theorem Trace.backward {P : σ → Prop} {A : σ → ε → Prop}
    (hstep : ∀ {s e t}, A s e → R s e t → P t → P s) (h : Trace R s l t)
    (hA : ∀ x ∈ l, A x.1 x.2.1) (ht : P t) : P s ∧ ∀ x ∈ l, P x.1 := by
  induction h with
  | nil s => exact ⟨ht, fun x hx => absurd hx List.not_mem_nil⟩
  | cons he _ ih =>
      have hrest := ih (fun x hx => hA x (List.mem_cons_of_mem _ hx)) ht
      have hs := hstep (hA _ List.mem_cons_self) he hrest.1
      refine ⟨hs, fun x hx => ?_⟩
      rcases List.mem_cons.mp hx with rfl | hx
      · exact hs
      · exact hrest.2 x hx

/-- Each transition of a trace is a step, with a run before it and one after it. -/
theorem Trace.split (h : Trace R s l t) {x : σ × ε × σ} (hx : x ∈ l) :
    ∃ l₁ l₂, Trace R s l₁ x.1 ∧ R x.1 x.2.1 x.2.2 ∧ Trace R x.2.2 l₂ t := by
  induction h with
  | nil s => exact absurd hx List.not_mem_nil
  | cons he hrest ih =>
      rcases List.mem_cons.mp hx with rfl | hx
      · exact ⟨[], _, .nil _, he, hrest⟩
      · obtain ⟨l₁, l₂, hbefore, hstep, hafter⟩ := ih hx
        exact ⟨_, l₂, .cons he hbefore, hstep, hafter⟩

/-- A run of a step function, given by its events. -/
theorem exists_trace_of_foldlM {f : σ → ε → Option σ} {s t : σ} (es : List ε)
    (h : es.foldlM f s = some t) : ∃ l, Trace (fun s e t => f s e = some t) s l t := by
  induction es generalizing s with
  | nil =>
      obtain rfl : s = t := by simpa using h
      exact ⟨[], .nil s⟩
  | cons e es ih =>
      obtain ⟨u, hu, hrest⟩ := Option.bind_eq_some_iff.mp (show (f s e).bind _ = some t from h)
      obtain ⟨l, hl⟩ := ih hrest
      exact ⟨_, .cons hu hl⟩

end Lib
end GuideOS
