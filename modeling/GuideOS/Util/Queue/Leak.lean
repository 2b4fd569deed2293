import GuideOS.Util.Queue.Refine
import Mathlib.Algebra.BigOperators.Group.Finset.Basic
import Mathlib.Algebra.Order.BigOperators.Group.Finset

/-!
# Nodes in use

`dequeue_iterator_delete` gives the node back to the allocator only when it is the
last one of its queue, through `dequeue_pop_front`.  From a longer queue the node is
unlinked and stays allocated for ever.
-/

namespace GuideOS
namespace Queue

open Lib

variable {ι : Type*} [DecidableEq ι]

/-- What becomes of the nodes. -/
inductive Change (s : State ι) (l : ι → List Nat) (s' : State ι) (l' : ι → List Nat) : Prop
  | same (hl : l' = l) (halloc : s'.mem.allocated = s.mem.allocated)
  | push (q : ι) (node : Nat) (hfresh : node ∉ s.mem.allocated)
      (hl : l' = Function.update l q (l q ++ [node]))
      (halloc : s'.mem.allocated = insert node s.mem.allocated)
  | free (q : ι) (k : List Nat) (x : Nat) (r : List Nat) (hq : l q = k ++ x :: r)
      (hl : l' = Function.update l q (k ++ r)) (halloc : s'.mem.allocated = s.mem.allocated.erase x)

/-- The node `x` is unlinked and stays allocated. -/
def Loses (s : State ι) (l : ι → List Nat) (s' : State ι) (l' : ι → List Nat) : Prop :=
  ∃ q k x r, l q = k ++ x :: r ∧ l' = Function.update l q (k ++ r) ∧
    s'.mem.allocated = s.mem.allocated

/-- A deletion from a queue of more than one element. -/
def LongDelete (x : State ι × (ι → AbsQueue)) : Op ι → Prop
  | .delete q => 1 < (x.1.queue q).size
  | _ => False

section

variable {s s' : State ι} {a : ι → AbsQueue} {l l' : ι → List Nat}

theorem Rel.account (h : Rel s a l) {op : Op ι} (hlegal : Legal s a op) :
    ∃ s' l', Queue.step s op = .ok (s', (absStep a op).2) ∧ Rel s' (absStep a op).1 l' ∧
      (¬LongDelete (s, a) op ∧ Change s l s' l' ∨ LongDelete (s, a) op ∧ Loses s l s' l') := by
  cases op with
  | pushBack q item node =>
      obtain ⟨s', hs, hrel, halloc⟩ := h.pushBack hlegal
      exact ⟨s', _, hs, hrel, Or.inl ⟨id, .push q node hlegal.2 rfl halloc⟩⟩
  | popFront q =>
      cases hl : l q with
      | nil =>
          obtain ⟨hs, hrel, hret⟩ := h.popFront_nil hl
          exact ⟨s, l, by rw [hs, hret], hrel,
            Or.inl ⟨id, .same rfl rfl⟩⟩
      | cons x r =>
          obtain ⟨s', hs, hrel, halloc⟩ := h.popFront_cons hl
          exact ⟨s', _, hs, hrel, Or.inl ⟨id, .free q [] x r hl rfl halloc⟩⟩
  | peekFront q =>
      exact ⟨s, l, h.peekFront, h, Or.inl ⟨id, .same rfl rfl⟩⟩
  | iterator q =>
      obtain ⟨s', hs, hrel, halloc⟩ := h.iterator (q := q)
      exact ⟨s', l, hs, hrel, Or.inl ⟨id, .same rfl halloc⟩⟩
  | hasNext q =>
      obtain ⟨t, ht⟩ := hlegal
      exact ⟨s, l, h.hasNext ht, h, Or.inl ⟨id, .same rfl rfl⟩⟩
  | next q =>
      obtain ⟨t, ht⟩ := hlegal
      obtain ⟨s', hs, hrel, halloc⟩ := h.next ht
      exact ⟨s', l, hs, hrel, Or.inl ⟨id, .same rfl halloc⟩⟩
  | delete q =>
      obtain ⟨s', k, x, r, hs, hl, hrel, halloc⟩ := h.delete hlegal
      refine ⟨s', _, hs, hrel, ?_⟩
      have hsize : (s.queue q).size = k.length + r.length + 1 := by
        rw [(h.linked q).size, hl]
        simp
        omega
      by_cases hone : (s.queue q).size = 1
      · rw [if_pos hone] at halloc
        refine Or.inl ⟨fun hlong => ?_, .free q k x r hl rfl halloc⟩
        have : 1 < (s.queue q).size := hlong
        omega
      · rw [if_neg hone] at halloc
        have hlong : 1 < (s.queue q).size := by omega
        exact Or.inr ⟨hlong, q, k, x, r, hl, rfl, halloc⟩
  | scribble b v =>
      exact ⟨_, l, rfl, h.scribble hlegal, Or.inl ⟨id, .same rfl rfl⟩⟩

/-! ## Every node in use is linked, or one is lost -/

def Exact (s : State ι) (l : ι → List Nat) : Prop := ∀ x ∈ s.mem.allocated, ∃ q, x ∈ l q

def Lost (s : State ι) (l : ι → List Nat) : Prop := ∃ x ∈ s.mem.allocated, ∀ q, x ∉ l q

theorem mem_update_of_ne {q q' : ι} {u : List Nat} {x : Nat} (hx : x ∈ l q')
    (hu : q' = q → x ∈ u) : x ∈ Function.update l q u q' := by
  by_cases hq : q' = q
  · rw [hq, Function.update_self]
    exact hu hq
  · rw [Function.update_of_ne hq]
    exact hx

theorem notMem_update {q : ι} {u : List Nat} {x : Nat} (hx : ∀ q', x ∉ l q') (hu : x ∉ u) (q' : ι) :
    x ∉ Function.update l q u q' := by
  by_cases hq : q' = q
  · rw [hq, Function.update_self]
    exact hu
  · rw [Function.update_of_ne hq]
    exact hx q'

theorem Change.exact (h : Change s l s' l') (he : Exact s l) : Exact s' l' := by
  intro y hy
  cases h with
  | same hl halloc =>
      rw [hl]
      exact he y (by rwa [halloc] at hy)
  | push q node _ hl halloc =>
      rw [halloc] at hy
      rw [hl]
      rcases Finset.mem_insert.mp hy with rfl | hy
      · exact ⟨q, by simp⟩
      · obtain ⟨q', hq'⟩ := he y hy
        exact ⟨q', mem_update_of_ne hq' fun e => by rw [← e]; exact List.mem_append_left _ hq'⟩
  | free q k x r hq hl halloc =>
      rw [halloc] at hy
      obtain ⟨hne, hy⟩ := Finset.mem_erase.mp hy
      obtain ⟨q', hq'⟩ := he y hy
      rw [hl]
      refine ⟨q', mem_update_of_ne hq' fun e => ?_⟩
      rw [e, hq] at hq'
      simpa [hne] using hq'

theorem Change.lost (h : Change s l s' l') (hlost : Lost s l) : Lost s' l' := by
  obtain ⟨y, hy, hno⟩ := hlost
  cases h with
  | same hl halloc => exact ⟨y, by rwa [halloc], by rwa [hl]⟩
  | push q node hfresh hl halloc =>
      have hne : y ≠ node := fun e => hfresh (e ▸ hy)
      refine ⟨y, by rw [halloc]; exact Finset.mem_insert_of_mem hy, ?_⟩
      rw [hl]
      exact notMem_update hno (by simp [hno q, hne])
  | free q k x r hq hl halloc =>
      have hyq := hno q
      rw [hq] at hyq
      simp only [List.mem_append, List.mem_cons, not_or] at hyq
      refine ⟨y, by rw [halloc]; exact Finset.mem_erase.mpr ⟨hyq.2.1, hy⟩, ?_⟩
      rw [hl]
      exact notMem_update hno (by simp [hyq.1, hyq.2.2])

theorem Loses.lost (h : Loses s l s' l') (hrel : Rel s a l) : Lost s' l' := by
  obtain ⟨q, k, x, r, hq, hl, halloc⟩ := h
  have hx : x ∈ l q := by
    rw [hq]
    simp
  have hnd := (hrel.linked q).chain.nodup
  rw [hq] at hnd
  refine ⟨x, by rw [halloc]; exact hrel.used q x hx, fun q' => ?_⟩
  rw [hl]
  by_cases hqq : q' = q
  · rw [hqq, Function.update_self]
    exact (List.nodup_cons.mp (List.nodup_middle.mp hnd)).1
  · rw [Function.update_of_ne hqq]
    exact hrel.disjoint q q' (Ne.symm hqq) x hx

/-- What is lost stays lost. -/
theorem Loses.lost_of_lost (h : Loses s l s' l') (hlost : Lost s l) : Lost s' l' := by
  obtain ⟨q, k, x, r, hq, hl, halloc⟩ := h
  obtain ⟨y, hy, hno⟩ := hlost
  have hyq := hno q
  rw [hq] at hyq
  simp only [List.mem_append, List.mem_cons, not_or] at hyq
  refine ⟨y, by rwa [halloc], ?_⟩
  rw [hl]
  exact notMem_update hno (by simp [hyq.1, hyq.2.2])

end

/-! ## Runs -/

theorem Step.exact {x y : State ι × (ι → AbsQueue)} {op : Op ι} (hlong : ¬LongDelete x op)
    (hx : ∃ l, Rel x.1 x.2 l ∧ Exact x.1 l) (h : Step x op y) : ∃ l, Rel y.1 y.2 l ∧ Exact y.1 l := by
  obtain ⟨l, hrel, he⟩ := hx
  obtain ⟨hlegal, ⟨r, hr⟩, ha⟩ := h
  obtain ⟨s', l', hs, hrel', hacc⟩ := hrel.account hlegal
  rw [hr, Except.ok.injEq, Prod.mk.injEq] at hs
  rw [ha, hs.1]
  rcases hacc with ⟨_, hchange⟩ | ⟨hbad, _⟩
  · exact ⟨l', hrel', hchange.exact he⟩
  · exact absurd hbad hlong

theorem Step.lost {x y : State ι × (ι → AbsQueue)} {op : Op ι}
    (hx : ∃ l, Rel x.1 x.2 l ∧ Lost x.1 l) (h : Step x op y) : ∃ l, Rel y.1 y.2 l ∧ Lost y.1 l := by
  obtain ⟨l, hrel, hlost⟩ := hx
  obtain ⟨hlegal, ⟨r, hr⟩, ha⟩ := h
  obtain ⟨s', l', hs, hrel', hacc⟩ := hrel.account hlegal
  rw [hr, Except.ok.injEq, Prod.mk.injEq] at hs
  rw [ha, hs.1]
  rcases hacc with ⟨_, hchange⟩ | ⟨_, hloses⟩
  · exact ⟨l', hrel', hchange.lost hlost⟩
  · exact ⟨l', hrel', hloses.lost_of_lost hlost⟩

theorem Step.lost_of_longDelete {x y : State ι × (ι → AbsQueue)} {op : Op ι} (hlong : LongDelete x op)
    (hx : ∃ l, Rel x.1 x.2 l) (h : Step x op y) : ∃ l, Rel y.1 y.2 l ∧ Lost y.1 l := by
  obtain ⟨l, hrel⟩ := hx
  obtain ⟨hlegal, ⟨r, hr⟩, ha⟩ := h
  obtain ⟨s', l', hs, hrel', hacc⟩ := hrel.account hlegal
  rw [hr, Except.ok.injEq, Prod.mk.injEq] at hs
  rw [ha, hs.1]
  rcases hacc with ⟨hno, _⟩ | ⟨_, hloses⟩
  · exact absurd hlong hno
  · exact ⟨l', hrel', hloses.lost hrel⟩

/-- The node is in a queue. -/
def InQueue (s : State ι) (x : Nat) : Prop := ∃ q l, WellFormed s.mem (s.queue q) l ∧ x ∈ l

/-- The nodes in use are those in the queues, as many as the queues count, and no
node was freed that was not in use. -/
def NoLeak [Fintype ι] (s : State ι) : Prop :=
  (∀ x, x ∈ s.mem.allocated ↔ InQueue s x) ∧
    s.mem.allocated.card = ∑ q, (s.queue q).size ∧ s.mem.doubleFree = false

section

variable {s : State ι} {a : ι → AbsQueue} {l : ι → List Nat}

omit [DecidableEq ι] in
theorem Rel.inQueue_iff (h : Rel s a l) (x : Nat) : InQueue s x ↔ ∃ q, x ∈ l q := by
  constructor
  · rintro ⟨q, l', hl', hx⟩
    refine ⟨q, ?_⟩
    rwa [(h.linked q).chain.1.unique hl'.nodes]
  · rintro ⟨q, hx⟩
    exact ⟨q, l q, (h.linked q).wellFormed, hx⟩

variable [Fintype ι]

omit [DecidableEq ι] in
theorem Rel.noLeak_of_exact (h : Rel s a l) (he : Exact s l) : NoLeak s := by
  have hmem : ∀ x, x ∈ s.mem.allocated ↔ ∃ q, x ∈ l q := fun x =>
    ⟨he x, fun ⟨q, hq⟩ => h.used q x hq⟩
  refine ⟨fun x => by rw [hmem, h.inQueue_iff], ?_, h.once⟩
  have hunion : s.mem.allocated = Finset.univ.biUnion fun q => (l q).toFinset := by
    ext x
    simp [hmem]
  have hdisj : ∀ q ∈ (Finset.univ : Finset ι), ∀ q' ∈ (Finset.univ : Finset ι), q ≠ q' →
      Disjoint (l q).toFinset (l q').toFinset := by
    intro q _ q' _ hq
    rw [Finset.disjoint_left]
    intro x hx hx'
    exact h.disjoint q q' hq x (List.mem_toFinset.mp hx) (List.mem_toFinset.mp hx')
  rw [hunion, Finset.card_biUnion hdisj]
  refine Finset.sum_congr rfl fun q _ => ?_
  rw [List.toFinset_card_of_nodup (h.linked q).chain.nodup, (h.linked q).size]

omit [DecidableEq ι] in
theorem Rel.not_noLeak_of_lost (h : Rel s a l) (hlost : Lost s l) : ¬NoLeak s := by
  obtain ⟨x, hx, hno⟩ := hlost
  intro hleak
  obtain ⟨q, hq⟩ := (h.inQueue_iff x).mp ((hleak.1 x).mp hx)
  exact hno q hq

/-- A run has leaked no node exactly if it has deleted only from queues of one
element. -/
theorem run_noLeak_iff {tr : List ((State ι × (ι → AbsQueue)) × Op ι × State ι × (ι → AbsQueue))}
    (h : Run tr s a) :
    NoLeak s ↔ ∀ x ∈ tr, ∀ q, x.2.1 = .delete q → (x.1.1.queue q).size ≤ 1 := by
  obtain ⟨node, cur, htrace⟩ := h
  constructor
  · intro hleak x hx q hq
    by_contra hlong
    have hbad : LongDelete x.1 x.2.1 := by
      rw [hq]
      exact Nat.lt_of_not_le hlong
    obtain ⟨l₁, l₂, hbefore, hstep, hafter⟩ := htrace.split hx
    have hrel := hbefore.invariant (P := fun x => ∃ l, Rel x.1 x.2 l) Step.rel ⟨_, rel_start node cur⟩
    obtain ⟨l, hl, hlost⟩ := hafter.invariant (P := fun x => ∃ l, Rel x.1 x.2 l ∧ Lost x.1 l)
      Step.lost (Step.lost_of_longDelete hbad hrel hstep)
    exact hl.not_noLeak_of_lost hlost hleak
  · intro hshort
    have hno : ∀ x ∈ tr, ¬LongDelete x.1 x.2.1 := by
      intro x hx hlong
      cases hop : x.2.1 with
      | delete q =>
          rw [hop] at hlong
          exact absurd (hshort x hx q hop) (Nat.not_le_of_lt hlong)
      | _ => rw [hop] at hlong; exact hlong
    obtain ⟨l, hl, he⟩ := htrace.forward (A := fun x op => ¬LongDelete x op)
      (P := fun x => ∃ l, Rel x.1 x.2 l ∧ Exact x.1 l) Step.exact hno
      ⟨_, rel_start node cur, fun x hx => absurd hx (Finset.notMem_empty x)⟩
    exact hl.noLeak_of_exact he

end

/-- The first of two waiting items is deleted: one node is linked, two are in use. -/
theorem exists_leak : ∃ tr, ∃ s : State Unit, ∃ a, Run tr s a ∧ ¬NoLeak s := by
  have h0 : Run [] (start (fun _ => ⟨0, 0, 0⟩) fun _ : Unit => 0) absStart := ⟨_, _, .nil _⟩
  have h1 := h0.snoc (.pushBack () 7 16) ⟨by decide, by decide⟩ rfl
  have h2 := h1.snoc (.pushBack () 8 40) ⟨by decide, by decide⟩ rfl
  have h3 := h2.snoc (.iterator ()) trivial rfl
  have h4 := h3.snoc (.next ()) ⟨_, rfl⟩ rfl
  have h5 := h4.snoc (.delete ()) ⟨_, _, rfl, rfl⟩ rfl
  refine ⟨_, _, _, h5, fun hleak => ?_⟩
  exact absurd hleak.2.1 (by decide)

/-- A queue of one element is traversed and emptied. -/
theorem run_noLeak_one : ∃ tr, ∃ s : State Unit, ∃ a, Run tr s a ∧ (a ()).items = [] ∧ NoLeak s := by
  have h0 : Run [] (start (fun _ => ⟨0, 0, 0⟩) fun _ : Unit => 0) absStart := ⟨_, _, .nil _⟩
  have h1 := h0.snoc (.pushBack () 7 16) ⟨by decide, by decide⟩ rfl
  have h2 := h1.snoc (.iterator ()) trivial rfl
  have h3 := h2.snoc (.next ()) ⟨_, rfl⟩ rfl
  have h4 := h3.snoc (.delete ()) ⟨_, _, rfl, rfl⟩ rfl
  refine ⟨_, _, _, h4, rfl, (run_noLeak_iff h4).mpr fun x hx q hq => ?_⟩
  simp only [List.nil_append, List.cons_append, List.mem_cons, List.not_mem_nil, or_false] at hx
  rcases hx with rfl | rfl | rfl | rfl
  · cases hq
  · cases hq
  · cases hq
  · exact Nat.le_refl 1

end Queue
end GuideOS
