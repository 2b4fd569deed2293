import GuideOS.Lib.DChain
import GuideOS.Lib.Trace
import GuideOS.Util.Queue
import Mathlib.Data.Finset.Card
import Mathlib.Order.Interval.Finset.Nat

/-!
# The queue is a list

Each operation does on the list of items what its name says, and nothing to the
nodes of other queues.  A traversal of the abstract list is the part it has passed,
the element it has just returned, and the part before it; deletion drops the
element in the middle.
-/

namespace GuideOS
namespace Queue

open Lib

/-! ## Memory after an update -/

namespace Mem

variable {m : Mem} {a b v : Nat}

@[simp] theorem setNext_next_self : ((m.setNext a v).node a).next = v := by simp [setNext]

@[simp] theorem setNext_node_ne (h : b ≠ a) : (m.setNext a v).node b = m.node b :=
  Function.update_of_ne h ..

@[simp] theorem setNext_prev : ((m.setNext a v).node b).prev = (m.node b).prev := by
  by_cases h : b = a
  · simp [setNext, h]
  · rw [setNext_node_ne h]

@[simp] theorem setNext_data : ((m.setNext a v).node b).data = (m.node b).data := by
  by_cases h : b = a
  · simp [setNext, h]
  · rw [setNext_node_ne h]

@[simp] theorem setPrev_prev_self : ((m.setPrev a v).node a).prev = v := by simp [setPrev]

@[simp] theorem setPrev_node_ne (h : b ≠ a) : (m.setPrev a v).node b = m.node b :=
  Function.update_of_ne h ..

@[simp] theorem setPrev_next : ((m.setPrev a v).node b).next = (m.node b).next := by
  by_cases h : b = a
  · simp [setPrev, h]
  · rw [setPrev_node_ne h]

@[simp] theorem setPrev_data : ((m.setPrev a v).node b).data = (m.node b).data := by
  by_cases h : b = a
  · simp [setPrev, h]
  · rw [setPrev_node_ne h]

@[simp] theorem setData_data_self : ((m.setData a v).node a).data = v := by simp [setData]

@[simp] theorem setData_node_ne (h : b ≠ a) : (m.setData a v).node b = m.node b :=
  Function.update_of_ne h ..

@[simp] theorem setNext_allocated : (m.setNext a v).allocated = m.allocated := rfl

@[simp] theorem setPrev_allocated : (m.setPrev a v).allocated = m.allocated := rfl

@[simp] theorem setData_allocated : (m.setData a v).allocated = m.allocated := rfl

@[simp] theorem setNext_doubleFree : (m.setNext a v).doubleFree = m.doubleFree := rfl

@[simp] theorem setPrev_doubleFree : (m.setPrev a v).doubleFree = m.doubleFree := rfl

@[simp] theorem setData_doubleFree : (m.setData a v).doubleFree = m.doubleFree := rfl

@[simp] theorem kmalloc_node : (m.kmalloc a).node = m.node := rfl

@[simp] theorem kfree_node : (m.kfree a).node = m.node := rfl

def next (m : Mem) (a : Nat) : Nat := (m.node a).next

def prev (m : Mem) (a : Nat) : Nat := (m.node a).prev

def data (m : Mem) (a : Nat) : Nat := (m.node a).data

end Mem

/-! ## One queue -/

/-- The queue is the doubly linked list of the nodes `l`. -/
structure Linked (m : Mem) (d : Dequeue) (l : List Nat) : Prop where
  chain : DChain 0 m.next m.prev d.head d.tail l
  size : d.size = l.length

section

variable {m m' : Mem} {d : Dequeue} {l k r : List Nat} {x : Nat}

theorem Linked.congr (h : Linked m d l) (hag : ∀ b ∈ l, m'.node b = m.node b) : Linked m' d l :=
  ⟨h.chain.congr (fun b hb => by rw [Mem.next, hag b hb]; rfl)
    fun b hb => by rw [Mem.prev, hag b hb]; rfl, h.size⟩

theorem Linked.size_eq_zero (h : Linked m d l) : d.size = 0 ↔ l = [] := by
  rw [h.size, List.length_eq_zero_iff]

theorem map_data_congr (hag : ∀ b ∈ l, m'.data b = m.data b) : l.map m'.data = l.map m.data :=
  List.map_congr_left hag

theorem incSize_eq {n : Nat} (h : n + 1 < 2 ^ 64) : incSize n = n + 1 := Nat.mod_eq_of_lt h

theorem decSize_eq {n : Nat} (h : n + 1 < 2 ^ 64) : decSize (n + 1) = n := by
  rw [decSize, show n + 1 + (2 ^ 64 - 1) = n + 2 ^ 64 by omega, Nat.add_mod_right]
  exact Nat.mod_eq_of_lt (by omega)

theorem dequeuePushBack_spec (h : Linked m d l) {item node : Nat} (hnull : node ≠ 0)
    (hfresh : node ∉ l) (hlen : l.length + 1 < 2 ^ 64) {d' : Dequeue}
    (hpush : dequeuePushBack m d item node = (m', d')) :
    Linked m' d' (l ++ [node]) ∧ m'.data node = item ∧ (∀ b ∈ l, m'.data b = m.data b) ∧
      (∀ b, b ≠ node → b ∉ l → m'.node b = m.node b) ∧
      m'.allocated = insert node m.allocated ∧ m'.doubleFree = m.doubleFree := by
  have hsize : incSize d.size = (l ++ [node]).length := by
    rw [h.size, incSize_eq hlen, List.length_append, List.length_singleton]
  have hne : ∀ b ∈ l, b ≠ node := fun b hb e => hfresh (e ▸ hb)
  rw [dequeuePushBack] at hpush
  by_cases hempty : d.size = 0
  · rw [if_pos hempty, Prod.mk.injEq] at hpush
    obtain ⟨rfl, rfl⟩ := hpush
    obtain rfl := h.size_eq_zero.mp hempty
    refine ⟨⟨⟨⟨rfl, hnull, ?_⟩, rfl, hnull, ?_⟩, hsize⟩, ?_, fun b hb => absurd hb List.not_mem_nil,
      fun b hb _ => ?_, rfl, rfl⟩
    · simp [Mem.next]
    · simp [Mem.prev]
    · simp [Mem.data]
    · simp [hb]
  · rw [if_neg hempty, Prod.mk.injEq] at hpush
    obtain ⟨rfl, rfl⟩ := hpush
    have hl : l ≠ [] := fun e => hempty (h.size_eq_zero.mpr e)
    have htail : d.tail ∈ l := by
      rw [h.chain.tail_eq, List.getLast?_eq_some_getLast hl]
      exact List.getLast_mem hl
    have hnt : node ≠ d.tail := fun e => hne d.tail htail e.symm
    refine ⟨⟨?_, hsize⟩, ?_, fun b hb => ?_, fun b hb hbl => ?_, rfl, rfl⟩
    · refine h.chain.concat hnull hfresh ?_ ?_ (fun e => absurd e hl) (fun _ => ⟨rfl, ?_⟩)
        (fun b hb hbt => ?_) fun b hb => ?_
      · simp [Mem.next, hnt]
      · simp [Mem.prev]
      · simp [Mem.next]
      · simp [Mem.next, hbt, hne b hb]
      · simp [Mem.prev, hne b hb]
    · simp [Mem.data]
    · simp [Mem.data, hne b hb]
    · have hbt : b ≠ d.tail := fun e => hbl (e ▸ htail)
      simp [hb, hbt]

/-- `dequeue_pop_front` and the deletion of the only element. -/
theorem dequeuePopFront_cons (h : Linked m d (x :: r)) (hlen : (x :: r).length < 2 ^ 64) :
    ∃ m' d', dequeuePopFront m d = .ok (m', d', m.data x) ∧ Linked m' d' r ∧
      (∀ b, m'.data b = m.data b) ∧ (∀ b, b ∉ r → m'.node b = m.node b) ∧
      m'.allocated = m.allocated.erase x ∧
      m'.doubleFree = (m.doubleFree || decide (x ∉ m.allocated)) := by
  have hsize : d.size = r.length + 1 := h.size
  have hhead : d.head = x := h.chain.head_eq
  have hnext : (m.node x).next = r.head?.getD 0 := h.chain.next_eq (l := [])
  have hdec : decSize d.size = r.length := by rw [hsize, decSize_eq (by simpa using hlen)]
  rw [dequeuePopFront, if_neg (by omega)]
  simp only [hhead, hnext, hdec]
  cases r with
  | nil =>
      refine ⟨_, _, rfl, ⟨⟨rfl, rfl⟩, rfl⟩, fun _ => rfl, fun _ _ => rfl, rfl, rfl⟩
  | cons y r =>
      have hy0 : y ≠ 0 := h.chain.ne_null (List.mem_cons_of_mem x List.mem_cons_self)
      rw [if_neg (by simp), if_neg (by simpa using hy0)]
      refine ⟨(m.setPrev y 0).kfree x, { size := (y :: r).length, head := y, tail := d.tail },
        by simp [Mem.data], ⟨?_, rfl⟩, fun b => by simp [Mem.data], ?_, rfl, rfl⟩
      · refine h.chain.remove (l := []) (fun _ => hnext.symm) (fun b hb => by cases hb)
          (fun c _ _ => by simp [Mem.next]) (fun e => by cases e) (fun b hb => ⟨rfl, ?_⟩)
          fun c hc hb => ?_
        · obtain rfl : y = b := by simpa using hb
          have hprev : m.prev x = 0 := h.chain.prev_eq (l := [])
          rw [hprev]
          simp [Mem.prev]
        · have hcy : c ≠ y := fun e => hb (by rw [e]; rfl)
          simp [Mem.prev, hcy]
      · intro b hb
        have hby : b ≠ y := fun e => hb (e ▸ List.mem_cons_self)
        simp [hby]

/-- The first half of the unlinking: the predecessor, or the head, takes over the
successor. -/
theorem unlinkTarget_next (h : Linked m d (k ++ x :: r)) {m₁ : Mem} {d₁ : Dequeue}
    (hstep : (if (m.node x).prev ≠ 0 then (m.setNext (m.node x).prev (m.node x).next, d)
      else (m, { d with head := (m.node x).next })) = (m₁, d₁)) :
    (k = [] → d₁.head = m.next x) ∧ (∀ b, k.getLast? = some b → d₁.head = d.head ∧ m₁.next b = m.next x) ∧
      (∀ c, k.getLast? ≠ some c → m₁.node c = m.node c) ∧ (∀ c, m₁.prev c = m.prev c) ∧
      (∀ c, m₁.data c = m.data c) ∧ d₁.tail = d.tail ∧ d₁.size = d.size ∧
      m₁.allocated = m.allocated ∧ m₁.doubleFree = m.doubleFree := by
  have hprev : (m.node x).prev = k.getLast?.getD 0 := h.chain.prev_eq
  rcases List.eq_nil_or_concat k with rfl | ⟨k, b, rfl⟩
  · rw [if_neg (by simp [hprev]), Prod.mk.injEq] at hstep
    obtain ⟨rfl, rfl⟩ := hstep
    exact ⟨fun _ => rfl, fun b hb => (by cases hb), fun _ _ => rfl, fun _ => rfl, fun _ => rfl, rfl, rfl,
      rfl, rfl⟩
  · simp only [List.concat_eq_append, List.getLast?_concat, Option.getD_some] at hprev h ⊢
    have hb0 : b ≠ 0 := h.chain.ne_null (by simp)
    rw [hprev, if_pos hb0, Prod.mk.injEq] at hstep
    obtain ⟨rfl, rfl⟩ := hstep
    refine ⟨fun e => absurd e (by simp), fun c hc => ⟨rfl, ?_⟩, fun c hc => ?_, fun c => by simp [Mem.prev],
      fun c => by simp [Mem.data], rfl, rfl, rfl, rfl⟩
    · obtain rfl : b = c := Option.some.inj hc
      simp [Mem.next]
    · have hcb : c ≠ b := fun e => hc (by rw [e])
      simp [hcb]

/-- The second half: the successor, or the tail, takes over the predecessor. -/
theorem unlinkTarget_prev (h : Linked m d (k ++ x :: r)) {m₁ m₂ : Mem} {d₁ d₂ : Dequeue}
    (hx : m₁.node x = m.node x)
    (hstep : (if (m₁.node x).next ≠ 0 then (m₁.setPrev (m₁.node x).next (m₁.node x).prev, d₁)
      else (m₁, { d₁ with tail := (m₁.node x).prev })) = (m₂, d₂)) :
    (r = [] → d₂.tail = m.prev x) ∧
      (∀ b, r.head? = some b → d₂.tail = d₁.tail ∧ m₂.prev b = m.prev x) ∧
      (∀ c, r.head? ≠ some c → m₂.node c = m₁.node c) ∧ (∀ c, m₂.next c = m₁.next c) ∧
      (∀ c, m₂.data c = m₁.data c) ∧ d₂.head = d₁.head ∧ d₂.size = d₁.size ∧
      m₂.allocated = m₁.allocated ∧ m₂.doubleFree = m₁.doubleFree := by
  have hnext : (m.node x).next = r.head?.getD 0 := h.chain.next_eq
  rw [hx] at hstep
  cases r with
  | nil =>
      rw [if_neg (by simp [hnext]), Prod.mk.injEq] at hstep
      obtain ⟨rfl, rfl⟩ := hstep
      exact ⟨fun _ => rfl, fun b hb => (by cases hb), fun _ _ => rfl, fun _ => rfl, fun _ => rfl, rfl, rfl,
        rfl, rfl⟩
  | cons y r =>
      have hy0 : y ≠ 0 := h.chain.ne_null (by simp)
      rw [show (m.node x).next = y from hnext, if_pos hy0, Prod.mk.injEq] at hstep
      obtain ⟨rfl, rfl⟩ := hstep
      refine ⟨fun e => (by cases e), fun c hc => ⟨rfl, ?_⟩, fun c hc => ?_, fun c => by simp [Mem.next],
        fun c => by simp [Mem.data], rfl, rfl, rfl, rfl⟩
      · obtain rfl : y = c := Option.some.inj hc
        simp [Mem.prev]
      · have hcy : c ≠ y := fun e => hc (by rw [e]; rfl)
        simp [hcy]

theorem unlinkTarget_spec (h : Linked m d (k ++ x :: r)) (hlen : (k ++ x :: r).length < 2 ^ 64)
    {d' : Dequeue} (hstep : unlinkTarget m d x = (m', d')) :
    Linked m' d' (k ++ r) ∧ (∀ b, m'.data b = m.data b) ∧
      (∀ b, b ∉ k ++ x :: r → m'.node b = m.node b) ∧
      m'.allocated = m.allocated ∧ m'.doubleFree = m.doubleFree := by
  have hnd := h.chain.nodup
  have hxk : x ∉ k ++ r := (List.nodup_cons.mp (List.nodup_middle.mp hnd)).1
  have hlast : ∀ {b}, k.getLast? = some b → b ∈ k := List.mem_of_getLast?
  have hhead : ∀ {b}, r.head? = some b → b ∈ r := List.mem_of_head?
  simp only [unlinkTarget] at hstep
  obtain ⟨⟨m₁, d₁⟩, h₁⟩ : ∃ y, (if (m.node x).prev ≠ 0 then
      (m.setNext (m.node x).prev (m.node x).next, d)
      else (m, { d with head := (m.node x).next })) = y := ⟨_, rfl⟩
  rw [h₁] at hstep
  obtain ⟨⟨m₂, d₂⟩, h₂⟩ : ∃ y, (if (m₁.node x).next ≠ 0 then
      (m₁.setPrev (m₁.node x).next (m₁.node x).prev, d₁)
      else (m₁, { d₁ with tail := (m₁.node x).prev })) = y := ⟨_, rfl⟩
  simp only [h₂, Prod.mk.injEq] at hstep
  obtain ⟨rfl, rfl⟩ := hstep
  obtain ⟨hstart, hlink, hnode, hprev, hdata, htail, hsize, halloc, hfree⟩ := unlinkTarget_next h h₁
  have hx₁ : m₁.node x = m.node x :=
    hnode x fun e => hxk (List.mem_append_left r (hlast e))
  obtain ⟨hend, hlink', hnode', hnext', hdata', hhead', hsize', halloc', hfree'⟩ :=
    unlinkTarget_prev h hx₁ h₂
  have hne : ∀ c ∈ k ++ r, c ≠ x := fun c hc e => hxk (e ▸ hc)
  have hlen' : (k ++ x :: r).length = (k ++ r).length + 1 := by simp; omega
  refine ⟨⟨h.chain.remove ?_ ?_ ?_ ?_ ?_ ?_, ?_⟩, fun b => ?_, fun b hb => ?_, ?_, ?_⟩
  · intro e
    rw [← hstart e]
    exact hhead'
  · intro b hb
    have hbx := hne b (List.mem_append_left r (hlast hb))
    refine ⟨hhead'.trans (hlink b hb).1, ?_⟩
    rw [← (hlink b hb).2, ← hnext' b]
    simp [Mem.next, hbx]
  · intro c hc hlast
    have hnext : m₂.next c = m.next c := by rw [hnext' c, Mem.next, hnode c hlast]; rfl
    rw [← hnext]
    simp [Mem.next, hne c hc]
  · exact hend
  · intro b hb
    have hbx := hne b (List.mem_append_right k (hhead hb))
    refine ⟨(hlink' b hb).1.trans htail, ?_⟩
    rw [← (hlink' b hb).2]
    simp [Mem.prev, hbx]
  · intro c hc hhead
    have hprev₂ : m₂.prev c = m.prev c := by
      rw [← hprev c, Mem.prev, hnode' c hhead]
      rfl
    rw [← hprev₂]
    simp [Mem.prev, hne c hc]
  · show decSize d₂.size = _
    rw [hsize', hsize, h.size, hlen', decSize_eq (by rw [← hlen']; exact hlen)]
  · rw [← hdata b, ← hdata' b]
    simp [Mem.data]
  · have hbk : k.getLast? ≠ some b := fun e => hb (List.mem_append_left _ (hlast e))
    have hbr : r.head? ≠ some b := fun e =>
      hb (List.mem_append_right _ (List.mem_cons_of_mem x (hhead e)))
    have hbx : b ≠ x := fun e => hb (by simp [e])
    rw [← hnode b hbk, ← hnode' b hbr]
    simp [hbx]
  · exact halloc'.trans halloc
  · exact hfree'.trans hfree

/-- The iterator finds the element it has just returned: the node before the
current one, or the tail at the end of the traversal. -/
theorem target_eq (h : Linked m d (k ++ x :: r)) {cur : Nat} (hcur : cur = r.head?.getD 0) :
    (if cur = 0 then d.tail else (m.node cur).prev) = x := by
  cases r with
  | nil =>
      have h0 : cur = 0 := hcur
      rw [if_pos h0, h.chain.tail_eq, List.getLast?_concat]
      rfl
  | cons y r =>
      have hy : cur = y := hcur
      have hy0 : y ≠ 0 := h.chain.ne_null (by simp)
      have hsplit : k ++ x :: y :: r = (k ++ [x]) ++ y :: r := by simp
      have hchain := h.chain
      rw [hsplit] at hchain
      rw [hy, if_neg hy0]
      simpa [Mem.prev] using hchain.prev_eq

theorem dequeueIteratorDelete_spec (h : Linked m d (k ++ x :: r))
    (hlen : (k ++ x :: r).length < 2 ^ 64) {cur : Nat} (hcur : cur = r.head?.getD 0) :
    ∃ m' d', dequeueIteratorDelete m d cur = .ok (m', d', cur) ∧ Linked m' d' (k ++ r) ∧
      (∀ b, m'.data b = m.data b) ∧ (∀ b, b ∉ k ++ x :: r → m'.node b = m.node b) ∧
      (d.size = 1 → m'.allocated = m.allocated.erase x ∧
        m'.doubleFree = (m.doubleFree || decide (x ∉ m.allocated))) ∧
      (d.size ≠ 1 → m'.allocated = m.allocated ∧ m'.doubleFree = m.doubleFree) := by
  have hsize := h.size
  have hcount : (k ++ x :: r).length = k.length + r.length + 1 := by simp; omega
  rw [dequeueIteratorDelete, if_neg (by omega)]
  by_cases hone : d.size = 1
  · -- The only element, which the traversal has just passed.
    obtain rfl : k = [] := List.length_eq_zero_iff.mp (by omega)
    obtain rfl : r = [] := List.length_eq_zero_iff.mp (by omega)
    obtain ⟨m', d', hpop, hlinked, hdata, hnode, halloc⟩ := dequeuePopFront_cons h hlen
    refine ⟨m', d', ?_, hlinked, hdata, fun b _ => hnode b List.not_mem_nil, fun _ => halloc,
      fun hne => absurd hone hne⟩
    rw [if_pos hone, hpop]
    rfl
  · have hx0 : x ≠ 0 := h.chain.ne_null (by simp)
    obtain ⟨⟨m', d'⟩, hunlink⟩ : ∃ y, unlinkTarget m d x = y := ⟨_, rfl⟩
    obtain ⟨hlinked, hdata, hnode, halloc⟩ := unlinkTarget_spec h hlen hunlink
    have hleft : d'.size ≠ 0 := by
      rw [hlinked.size, List.length_append]
      omega
    refine ⟨m', d', ?_, hlinked, hdata, hnode, fun e => absurd e hone, fun _ => halloc⟩
    rw [if_neg hone]
    simp only [target_eq h hcur, if_pos hx0, hunlink, if_neg hleft]

end

/-! ## The abstract queue -/

/-- A traversal of a list: the elements it has passed that are still there, the one
it has just returned, those before it; all it has returned, and the list it
started with. -/
structure Traversal where
  kept : List Nat
  last : Option Nat
  rest : List Nat
  seen : List Nat
  orig : List Nat

structure AbsQueue where
  items : List Nat
  trav : Option Traversal

def Traversal.next (t : Traversal) : Traversal :=
  { t with
    kept := t.kept ++ t.last.toList
    last := t.rest.head?
    rest := t.rest.tail
    seen := t.seen ++ t.rest.head?.toList }

variable {ι : Type*} [DecidableEq ι]

/-- The operations on lists, with `0` for `NULL`. -/
def absStep (a : ι → AbsQueue) : Op ι → (ι → AbsQueue) × Nat
  | .pushBack q item _ => (Function.update a q ⟨(a q).items ++ [item], none⟩, 0)
  | .popFront q => (Function.update a q ⟨(a q).items.tail, none⟩, (a q).items.head?.getD 0)
  | .peekFront q => (a, (a q).items.head?.getD 0)
  | .iterator q =>
      (Function.update a q ⟨(a q).items, some ⟨[], none, (a q).items, [], (a q).items⟩⟩, 0)
  | .hasNext q =>
      (a, match (a q).trav with
        | none => 0
        | some t => if t.rest = [] then 0 else 1)
  | .next q =>
      match (a q).trav with
      | none => (a, 0)
      | some t => (Function.update a q ⟨(a q).items, some t.next⟩, t.rest.head?.getD 0)
  | .delete q =>
      match (a q).trav with
      | none => (a, 0)
      | some t => (Function.update a q ⟨t.kept ++ t.rest, some { t with last := none }⟩, 0)
  | .scribble _ _ => (a, 0)

/-- How the queues are used: `kmalloc` returns a node that is not in use, an
iterator is used within its traversal, and deletion is called at most once after
each element. -/
def Legal (s : State ι) (a : ι → AbsQueue) : Op ι → Prop
  | .pushBack _ _ node => (0 < node ∧ node < 2 ^ 64) ∧ node ∉ s.mem.allocated
  | .hasNext q => ∃ t, (a q).trav = some t
  | .next q => ∃ t, (a q).trav = some t
  | .delete q => ∃ t x, (a q).trav = some t ∧ t.last = some x
  | .scribble b _ => b ∉ s.mem.allocated
  | _ => True

/-- A step of the queues beside the step of the lists. -/
def Step (x : State ι × (ι → AbsQueue)) (op : Op ι) (y : State ι × (ι → AbsQueue)) : Prop :=
  Legal x.1 x.2 op ∧ (∃ r, step x.1 op = .ok (y.1, r)) ∧ y.2 = (absStep x.2 op).1

def absStart : ι → AbsQueue := fun _ => ⟨[], none⟩

/-- The runs from `dequeue_construct`. -/
def Run (l : List ((State ι × (ι → AbsQueue)) × Op ι × State ι × (ι → AbsQueue))) (s : State ι)
    (a : ι → AbsQueue) : Prop :=
  ∃ node cur, Trace Step (start node cur, absStart) l (s, a)

/-! ## The relation -/

/-- The iterator of a traversal of the nodes `l` stands at the first node before it. -/
def Stands (m : Mem) (cur : Nat) (l : List Nat) (t : Traversal) : Prop :=
  ∃ k g r, l = k ++ g ++ r ∧ k.map m.data = t.kept ∧ g.map m.data = t.last.toList ∧
    r.map m.data = t.rest ∧ cur = r.head?.getD 0

structure Rel (s : State ι) (a : ι → AbsQueue) (l : ι → List Nat) : Prop where
  linked : ∀ q, Linked s.mem (s.queue q) (l q)
  items : ∀ q, (l q).map s.mem.data = (a q).items
  disjoint : ∀ q q', q ≠ q' → ∀ x ∈ l q, x ∉ l q'
  used : ∀ q, ∀ x ∈ l q, x ∈ s.mem.allocated
  range : ∀ x ∈ s.mem.allocated, 0 < x ∧ x < 2 ^ 64
  once : s.mem.doubleFree = false
  trav : ∀ q t, (a q).trav = some t → Stands s.mem (s.cur q) (l q) t

section

variable {s s' : State ι} {a : ι → AbsQueue} {l : ι → List Nat} {q : ι}

theorem Stands.congr {m m' : Mem} {cur : Nat} {l : List Nat} {t : Traversal} (h : Stands m cur l t)
    (hag : ∀ b ∈ l, m'.data b = m.data b) : Stands m' cur l t := by
  obtain ⟨k, g, r, rfl, hk, hg, hr, hcur⟩ := h
  refine ⟨k, g, r, rfl, ?_, ?_, ?_, hcur⟩
  · rw [map_data_congr fun b hb => hag b (by simp [hb])]
    exact hk
  · rw [map_data_congr fun b hb => hag b (by simp [hb])]
    exact hg
  · rw [map_data_congr fun b hb => hag b (by simp [hb])]
    exact hr

theorem length_lt {l : List Nat} (hnd : l.Nodup) (hrange : ∀ x ∈ l, 0 < x ∧ x < 2 ^ 64) :
    l.length < 2 ^ 64 := by
  have hsub : l.toFinset ⊆ Finset.Ico 1 (2 ^ 64) := fun x hx => by
    have := hrange x (List.mem_toFinset.mp hx)
    exact Finset.mem_Ico.mpr ⟨this.1, this.2⟩
  have hcard := Finset.card_le_card hsub
  rw [List.toFinset_card_of_nodup hnd, Nat.card_Ico] at hcard
  omega

/-- There is room for one more node. -/
theorem length_succ_lt {l : List Nat} {node : Nat} (hnd : l.Nodup)
    (hrange : ∀ x ∈ l, 0 < x ∧ x < 2 ^ 64) (hnode : 0 < node ∧ node < 2 ^ 64) (hnot : node ∉ l) :
    l.length + 1 < 2 ^ 64 :=
  length_lt (List.nodup_cons.mpr ⟨hnot, hnd⟩) (List.forall_mem_cons.mpr ⟨hnode, hrange⟩)

omit [DecidableEq ι] in
theorem Rel.length_lt (h : Rel s a l) (q : ι) : (l q).length < 2 ^ 64 :=
  Queue.length_lt (h.linked q).chain.nodup fun x hx => h.range x (h.used q x hx)

/-- The queue `q` changes, the nodes of the others do not. -/
theorem Rel.change (h : Rel s a l) {m' : Mem} {d' : Dequeue} {cur' : Nat} {l' items' : List Nat}
    {trav' : Option Traversal} (hlinked : Linked m' d' l') (hitems : l'.map m'.data = items')
    (hfar : ∀ q' ≠ q, ∀ b ∈ l q', m'.node b = s.mem.node b)
    (hdisj : ∀ q' ≠ q, ∀ x ∈ l', x ∉ l q') (hused : ∀ x ∈ l', x ∈ m'.allocated)
    (hkept : ∀ q' ≠ q, ∀ x ∈ l q', x ∈ m'.allocated)
    (hrange : ∀ x ∈ m'.allocated, 0 < x ∧ x < 2 ^ 64) (honce : m'.doubleFree = false)
    (htrav : ∀ t, trav' = some t → Stands m' cur' l' t) :
    Rel { mem := m', queue := Function.update s.queue q d', cur := Function.update s.cur q cur' }
      (Function.update a q ⟨items', trav'⟩) (Function.update l q l') := by
  have hdata : ∀ q' ≠ q, ∀ b ∈ l q', m'.data b = s.mem.data b := fun q' hq b hb => by
    rw [Mem.data, hfar q' hq b hb]
    rfl
  refine ⟨fun q' => ?_, fun q' => ?_, fun p p' hpp x hx => ?_, fun q' x hx => ?_, hrange, honce,
    fun q' t ht => ?_⟩
  · by_cases hq : q' = q
    · subst hq
      simpa using hlinked
    · simp only [Function.update_of_ne hq]
      exact (h.linked q').congr (hfar q' hq)
  · by_cases hq : q' = q
    · subst hq
      simpa using hitems
    · simp only [Function.update_of_ne hq]
      rw [map_data_congr (hdata q' hq)]
      exact h.items q'
  · by_cases hp : p = q
    · subst hp
      rw [Function.update_self] at hx
      rw [Function.update_of_ne hpp.symm]
      exact hdisj p' hpp.symm x hx
    · rw [Function.update_of_ne hp] at hx
      by_cases hp' : p' = q
      · subst hp'
        rw [Function.update_self]
        exact fun hx' => hdisj p hp x hx' hx
      · rw [Function.update_of_ne hp']
        exact h.disjoint p p' hpp x hx
  · by_cases hq : q' = q
    · subst hq
      rw [Function.update_self] at hx
      exact hused x hx
    · rw [Function.update_of_ne hq] at hx
      exact hkept q' hq x hx
  · by_cases hq : q' = q
    · subst hq
      rw [Function.update_self] at ht
      simpa using htrav t ht
    · simp only [Function.update_of_ne hq] at ht ⊢
      exact (h.trav q' t ht).congr (hdata q' hq)

/-- The iterator of `q` moves. -/
theorem Rel.move (h : Rel s a l) {cur' : Nat} {t : Traversal}
    (htrav : Stands s.mem cur' (l q) t) :
    Rel { s with cur := Function.update s.cur q cur' } (Function.update a q ⟨(a q).items, some t⟩) l := by
  have hchange : Rel { s with
      queue := Function.update s.queue q (s.queue q), cur := Function.update s.cur q cur' }
      (Function.update a q ⟨(a q).items, some t⟩) (Function.update l q (l q)) := by
    refine h.change (h.linked q) (h.items q) (fun _ _ _ _ => rfl)
      (fun q' hq x hx => h.disjoint q q' hq.symm x hx) (h.used q) (fun q' _ => h.used q') h.range
      h.once fun t' ht => ?_
    rw [← Option.some.inj ht]
    exact htrav
  rwa [Function.update_eq_self, Function.update_eq_self] at hchange

theorem Rel.pushBack (h : Rel s a l) {item node : Nat} (hlegal : Legal s a (.pushBack q item node)) :
    ∃ s', step s (.pushBack q item node) = .ok (s', 0) ∧
      Rel s' (absStep a (.pushBack q item node)).1 (Function.update l q (l q ++ [node])) ∧
      s'.mem.allocated = insert node s.mem.allocated := by
  obtain ⟨hnode, hfresh⟩ := hlegal
  have hnot : ∀ q', node ∉ l q' := fun q' hx => hfresh (h.used q' node hx)
  have hlen : (l q).length + 1 < 2 ^ 64 :=
    length_succ_lt (h.linked q).chain.nodup (fun x hx => h.range x (h.used q x hx)) hnode (hnot q)
  obtain ⟨⟨m', d'⟩, hpush⟩ : ∃ y, dequeuePushBack s.mem (s.queue q) item node = y := ⟨_, rfl⟩
  obtain ⟨hlinked, hitem, hdata, hother, halloc, hfree⟩ :=
    dequeuePushBack_spec (h.linked q) (Nat.pos_iff_ne_zero.mp hnode.1) (hnot q) hlen hpush
  refine ⟨_, by rw [step, hpush], ?_, halloc⟩
  have hfar : ∀ q' ≠ q, ∀ b ∈ l q', m'.node b = s.mem.node b := fun q' hq b hb =>
    hother b (fun e => hnot q' (e ▸ hb)) (h.disjoint q' q hq b hb)
  have hcur : s.cur = Function.update s.cur q (s.cur q) := (Function.update_eq_self q s.cur).symm
  show Rel { mem := m', queue := Function.update s.queue q d', cur := s.cur } _ _
  rw [hcur]
  refine h.change hlinked ?_ hfar (fun q' hq x hx => ?_) (fun x hx => ?_) (fun q' _ x hx => ?_)
    (fun x hx => ?_) (hfree.trans h.once) fun t ht => by cases ht
  · rw [List.map_append, map_data_congr hdata, h.items q, List.map_singleton, hitem]
  · rcases List.mem_append.mp hx with hx | hx
    · exact h.disjoint q q' hq.symm x hx
    · rw [List.mem_singleton.mp hx]
      exact hnot q'
  · rw [halloc]
    rcases List.mem_append.mp hx with hx | hx
    · exact Finset.mem_insert_of_mem (h.used q x hx)
    · rw [List.mem_singleton.mp hx]
      exact Finset.mem_insert_self _ _
  · rw [halloc]
    exact Finset.mem_insert_of_mem (h.used q' x hx)
  · rw [halloc] at hx
    rcases Finset.mem_insert.mp hx with rfl | hx
    · exact hnode
    · exact h.range x hx

/-- The node `x` leaves the queue `q`, and goes back to the allocator. -/
theorem Rel.drop (h : Rel s a l) {m' : Mem} {d' : Dequeue} {cur' x : Nat} {k r : List Nat}
    {trav' : Option Traversal} (hl : l q = k ++ x :: r) (hlinked : Linked m' d' (k ++ r))
    (hdata : ∀ b, m'.data b = s.mem.data b) (hnode : ∀ b, b ∉ k ++ x :: r → m'.node b = s.mem.node b)
    (halloc : m'.allocated = s.mem.allocated ∧ m'.doubleFree = s.mem.doubleFree ∨
      m'.allocated = s.mem.allocated.erase x ∧
        m'.doubleFree = (s.mem.doubleFree || decide (x ∉ s.mem.allocated)))
    (htrav : ∀ t, trav' = some t → Stands m' cur' (k ++ r) t) :
    Rel { mem := m', queue := Function.update s.queue q d', cur := Function.update s.cur q cur' }
      (Function.update a q ⟨(k ++ r).map s.mem.data, trav'⟩) (Function.update l q (k ++ r)) := by
  have hnd := (h.linked q).chain.nodup
  rw [hl] at hnd
  have hxk : x ∉ k ++ r := (List.nodup_cons.mp (List.nodup_middle.mp hnd)).1
  have hsub : ∀ {y}, y ∈ k ++ r → y ∈ l q := fun hy => by
    rw [hl, List.mem_append]
    rcases List.mem_append.mp hy with hy | hy
    · exact Or.inl hy
    · exact Or.inr (List.mem_cons_of_mem x hy)
  have hx : x ∈ l q := by
    rw [hl]
    simp
  have hmem : ∀ y, y ≠ x → y ∈ s.mem.allocated → y ∈ m'.allocated := fun y hy hys => by
    rcases halloc with ⟨he, _⟩ | ⟨he, _⟩
    · rw [he]
      exact hys
    · rw [he]
      exact Finset.mem_erase.mpr ⟨hy, hys⟩
  have hback : ∀ y ∈ m'.allocated, y ∈ s.mem.allocated := fun y hy => by
    rcases halloc with ⟨he, _⟩ | ⟨he, _⟩
    · rwa [he] at hy
    · rw [he] at hy
      exact Finset.mem_of_mem_erase hy
  refine h.change hlinked ?_ (fun q' hq b hb => ?_) (fun q' hq y hy => ?_) (fun y hy => ?_)
    (fun q' hq y hy => ?_) (fun y hy => h.range y (hback y hy)) ?_ htrav
  · exact map_data_congr fun b _ => hdata b
  · rw [← hl] at hnode
    exact hnode b (h.disjoint q' q hq b hb)
  · exact h.disjoint q q' hq.symm y (hsub hy)
  · exact hmem y (fun e => hxk (e ▸ hy)) (h.used q y (hsub hy))
  · refine hmem y (fun e => ?_) (h.used q' y hy)
    exact h.disjoint q q' hq.symm x hx (e ▸ hy)
  · rcases halloc with ⟨_, he⟩ | ⟨_, he⟩
    · rw [he, h.once]
    · rw [he, h.once, decide_eq_false (not_not.mpr (h.used q x hx))]
      rfl

theorem Rel.popFront_nil (h : Rel s a l) (hl : l q = []) :
    step s (.popFront q) = .ok (s, 0) ∧ Rel s (absStep a (.popFront q)).1 l ∧
      (absStep a (.popFront q)).2 = 0 := by
  have hsize : (s.queue q).size = 0 := (h.linked q).size_eq_zero.mpr hl
  have hitems : (a q).items = [] := by rw [← h.items q, hl, List.map_nil]
  refine ⟨?_, ?_, by simp [absStep, hitems]⟩
  · rw [step, dequeuePopFront, if_pos hsize]
    simp [Except.map]
  · have hchange : Rel { s with
        queue := Function.update s.queue q (s.queue q), cur := Function.update s.cur q (s.cur q) }
        (Function.update a q ⟨(a q).items.tail, none⟩) (Function.update l q (l q)) := by
      refine h.change (h.linked q) ?_ (fun _ _ _ _ => rfl)
        (fun q' hq x hx => h.disjoint q q' hq.symm x hx) (h.used q) (fun q' _ => h.used q') h.range
        h.once fun t ht => by cases ht
      rw [h.items q, hitems]
      rfl
    rwa [Function.update_eq_self, Function.update_eq_self, Function.update_eq_self] at hchange

theorem Rel.popFront_cons (h : Rel s a l) {x : Nat} {r : List Nat} (hl : l q = x :: r) :
    ∃ s', step s (.popFront q) = .ok (s', (absStep a (.popFront q)).2) ∧
      Rel s' (absStep a (.popFront q)).1 (Function.update l q r) ∧
      s'.mem.allocated = s.mem.allocated.erase x := by
  have hlinked := h.linked q
  have hlen := h.length_lt q
  rw [hl] at hlinked hlen
  have hitems : (a q).items = s.mem.data x :: r.map s.mem.data := by rw [← h.items q, hl, List.map_cons]
  obtain ⟨m', d', hpop, hrest, hdata, hnode, halloc, hfree⟩ := dequeuePopFront_cons hlinked hlen
  refine ⟨{ s with mem := m', queue := Function.update s.queue q d' }, ?_, ?_, halloc⟩
  · rw [step, hpop]
    simp [Except.map, absStep, hitems]
  · have hcur : s.cur = Function.update s.cur q (s.cur q) := (Function.update_eq_self q s.cur).symm
    simp only [absStep, hitems, List.tail_cons]
    rw [hcur]
    refine h.drop (k := []) hl hrest hdata (fun b hb => hnode b fun hbr => hb ?_)
      (Or.inr ⟨halloc, hfree⟩) fun t ht => by cases ht
    exact List.mem_cons_of_mem x hbr

theorem Rel.iterator (h : Rel s a l) :
    ∃ s', step s (.iterator q) = .ok (s', 0) ∧ Rel s' (absStep a (.iterator q)).1 l ∧
      s'.mem.allocated = s.mem.allocated := by
  refine ⟨_, rfl, h.move ⟨[], [], l q, by simp, rfl, rfl, h.items q, ?_⟩, rfl⟩
  exact (h.linked q).chain.head_eq

theorem Rel.next (h : Rel s a l) {t : Traversal} (ht : (a q).trav = some t) :
    ∃ s', step s (.next q) = .ok (s', (absStep a (.next q)).2) ∧
      Rel s' (absStep a (.next q)).1 l ∧ s'.mem.allocated = s.mem.allocated := by
  obtain ⟨k, g, r, hl, hk, hg, hr, hcur⟩ := h.trav q t ht
  have hlinked := h.linked q
  rw [hl] at hlinked
  simp only [absStep, ht]
  cases r with
  | nil =>
      have hrest : t.rest = [] := by rw [← hr, List.map_nil]
      have hcur0 : s.cur q = 0 := hcur
      refine ⟨{ s with cur := Function.update s.cur q 0 }, ?_, h.move ?_, rfl⟩
      · simp [step, dequeueIteratorNext, hcur0, hrest]
      · refine ⟨k ++ g, [], [], by simp [hl], ?_, by simp [Traversal.next, hrest],
          by simp [Traversal.next, hrest], rfl⟩
        rw [List.map_append, hk, hg]
        rfl
  | cons y r =>
      have hcury : s.cur q = y := hcur
      have hy0 : y ≠ 0 := hlinked.chain.ne_null (by simp)
      have hnext : (s.mem.node y).next = r.head?.getD 0 := hlinked.chain.next_eq
      refine ⟨{ s with cur := Function.update s.cur q (r.head?.getD 0) }, ?_, h.move ?_, rfl⟩
      · simp [step, dequeueIteratorNext, hcury, hy0, hnext, ← hr, Mem.data]
      · refine ⟨k ++ g, [y], r, by simp [hl], ?_, by simp [Traversal.next, ← hr],
          by simp [Traversal.next, ← hr], rfl⟩
        rw [List.map_append, hk, hg]
        rfl

theorem Rel.hasNext (h : Rel s a l) {t : Traversal} (ht : (a q).trav = some t) :
    step s (.hasNext q) = .ok (s, (absStep a (.hasNext q)).2) := by
  obtain ⟨k, g, r, hl, _, _, hr, hcur⟩ := h.trav q t ht
  have hlinked := h.linked q
  rw [hl] at hlinked
  simp only [absStep, ht, step, dequeueIteratorHasNext]
  cases r with
  | nil =>
      have hcur0 : s.cur q = 0 := hcur
      simp [hcur0, ← hr]
  | cons y r =>
      have hcury : s.cur q = y := hcur
      have hy0 : y ≠ 0 := hlinked.chain.ne_null (by simp)
      simp [hcury, hy0, ← hr]

/-- The node `x` of the element just returned is unlinked; its memory goes back to
the allocator only if it was the last one. -/
theorem Rel.delete (h : Rel s a l) (hlegal : Legal s a (.delete q)) :
    ∃ s' k x r, step s (.delete q) = .ok (s', (absStep a (.delete q)).2) ∧ l q = k ++ x :: r ∧
      Rel s' (absStep a (.delete q)).1 (Function.update l q (k ++ r)) ∧
      s'.mem.allocated = if (s.queue q).size = 1 then s.mem.allocated.erase x else s.mem.allocated := by
  obtain ⟨t, v, ht, hlast⟩ := hlegal
  obtain ⟨k, g, r, hl, hk, hg, hr, hcur⟩ := h.trav q t ht
  obtain ⟨x, rfl⟩ : ∃ x, g = [x] := by
    rw [hlast] at hg
    exact List.length_eq_one_iff.mp (by simpa using congrArg List.length hg)
  have hl' : l q = k ++ x :: r := by simpa using hl
  have hlinked := h.linked q
  have hlen := h.length_lt q
  rw [hl'] at hlinked hlen
  obtain ⟨m', d', hdel, hrest, hdata, hnode, hone, hmore⟩ :=
    dequeueIteratorDelete_spec hlinked hlen hcur
  have halloc : m'.allocated =
      if (s.queue q).size = 1 then s.mem.allocated.erase x else s.mem.allocated := by
    split
    · exact (hone ‹_›).1
    · exact (hmore ‹_›).1
  refine ⟨State.mk m' (Function.update s.queue q d') (Function.update s.cur q (s.cur q)), k, x, r, ?_,
    hl', ?_, halloc⟩
  · rw [step, hdel]
    simp only [absStep, ht]
    rfl
  · simp only [absStep, ht]
    rw [← hk, ← hr, ← List.map_append]
    refine h.drop hl' hrest hdata hnode ?_ fun t' ht' => ?_
    · by_cases hsize : (s.queue q).size = 1
      · exact Or.inr (hone hsize)
      · exact Or.inl (hmore hsize)
    · rw [← Option.some.inj ht']
      have hback : ∀ u : List Nat, u.map m'.data = u.map s.mem.data := fun u =>
        map_data_congr fun b _ => hdata b
      exact ⟨k, [], r, by simp, by rw [hback], rfl, by rw [hback], hcur⟩

omit [DecidableEq ι] in
theorem Rel.scribble (h : Rel s a l) {b : Nat} {v : Node} (hb : b ∉ s.mem.allocated) :
    Rel { s with mem.node := Function.update s.mem.node b v } a l := by
  have hnode : ∀ q', ∀ x ∈ l q', Function.update s.mem.node b v x = s.mem.node x := fun q' x hx =>
    Function.update_of_ne (fun e => hb (by rw [← e]; exact h.used q' x hx)) ..
  have hdata : ∀ q', ∀ x ∈ l q', (Function.update s.mem.node b v x).data = s.mem.data x :=
    fun q' x hx => by rw [hnode q' x hx]; rfl
  exact ⟨fun q' => (h.linked q').congr (hnode q'), fun q' => by
    rw [← h.items q']; exact List.map_congr_left (hdata q'), h.disjoint, h.used, h.range, h.once,
    fun q' t ht => (h.trav q' t ht).congr (hdata q')⟩

theorem Rel.peekFront (h : Rel s a l) :
    step s (.peekFront q) = .ok (s, (absStep a (.peekFront q)).2) := by
  simp only [step, absStep, dequeuePeekFront]
  rw [← h.items q]
  cases hl : l q with
  | nil => rw [if_pos ((h.linked q).size_eq_zero.mpr hl)]; rfl
  | cons x r =>
      have hsize : (s.queue q).size ≠ 0 := fun e => by
        rw [(h.linked q).size_eq_zero.mp e] at hl
        cases hl
      have hhead : (s.queue q).head = x := by rw [(h.linked q).chain.head_eq, hl]; rfl
      rw [if_neg hsize, hhead]
      rfl

/-- Every call does on the nodes what it does on the lists, and returns the same. -/
theorem Rel.step (h : Rel s a l) {op : Op ι} (hlegal : Legal s a op) :
    ∃ s' l', Queue.step s op = .ok (s', (absStep a op).2) ∧ Rel s' (absStep a op).1 l' := by
  cases op with
  | pushBack q item node =>
      obtain ⟨s', hs, hrel, _⟩ := h.pushBack hlegal
      exact ⟨s', _, hs, hrel⟩
  | popFront q =>
      cases hl : l q with
      | nil =>
          obtain ⟨hs, hrel, hret⟩ := h.popFront_nil hl
          exact ⟨s, l, by rw [hs, hret], hrel⟩
      | cons x r =>
          obtain ⟨s', hs, hrel, _⟩ := h.popFront_cons hl
          exact ⟨s', _, hs, hrel⟩
  | peekFront q => exact ⟨s, l, h.peekFront, h⟩
  | iterator q =>
      obtain ⟨s', hs, hrel, _⟩ := h.iterator (q := q)
      exact ⟨s', l, hs, hrel⟩
  | hasNext q =>
      obtain ⟨t, ht⟩ := hlegal
      exact ⟨s, l, h.hasNext ht, h⟩
  | next q =>
      obtain ⟨t, ht⟩ := hlegal
      obtain ⟨s', hs, hrel, _⟩ := h.next ht
      exact ⟨s', l, hs, hrel⟩
  | delete q =>
      obtain ⟨s', k, x, r, hs, _, hrel, _⟩ := h.delete hlegal
      exact ⟨s', _, hs, hrel⟩
  | scribble b v => exact ⟨_, l, rfl, h.scribble hlegal⟩

omit [DecidableEq ι] in
theorem rel_start (node : Nat → Node) (cur : ι → Nat) :
    Rel (start node cur) absStart fun _ => [] where
  linked _ := ⟨⟨rfl, rfl⟩, rfl⟩
  items _ := rfl
  disjoint _ _ _ _ hx := absurd hx List.not_mem_nil
  used _ _ hx := absurd hx List.not_mem_nil
  range x hx := absurd hx (Finset.notMem_empty x)
  once := rfl
  trav _ _ ht := by cases ht

/-! ## Traversals -/

/-- A traversal returns the elements it started with, each once and in order; what
it has not returned yet is still to come, and the element it can delete is the one
it returned last. -/
structure TravOk (x : AbsQueue) (t : Traversal) : Prop where
  items : x.items = t.kept ++ t.last.toList ++ t.rest
  order : t.seen ++ t.rest = t.orig
  last : ∀ v, t.last = some v → t.seen.getLast? = some v

theorem Traversal.next_ok {x : AbsQueue} {t : Traversal} (h : TravOk x t) :
    TravOk ⟨x.items, some t.next⟩ t.next := by
  refine ⟨?_, ?_, fun v hv => ?_⟩
  · cases hr : t.rest <;> simp [Traversal.next, h.items, hr]
  · show t.seen ++ t.rest.head?.toList ++ t.rest.tail = t.orig
    rw [← h.order]
    cases t.rest <;> simp
  · have hhead : t.rest.head? = some v := hv
    simp [Traversal.next, hhead]

theorem travOk_update (h : ∀ q t, (a q).trav = some t → TravOk (a q) t) {x : AbsQueue}
    (hx : ∀ t, x.trav = some t → TravOk x t) (q' : ι) (t : Traversal)
    (ht : (Function.update a q x q').trav = some t) : TravOk (Function.update a q x q') t := by
  by_cases hq : q' = q
  · subst hq
    rw [Function.update_self] at ht ⊢
    exact hx t ht
  · rw [Function.update_of_ne hq] at ht ⊢
    exact h q' t ht

theorem absStep_travOk (h : ∀ q t, (a q).trav = some t → TravOk (a q) t) (op : Op ι) :
    ∀ q t, ((absStep a op).1 q).trav = some t → TravOk ((absStep a op).1 q) t := by
  cases op with
  | pushBack q item node => exact travOk_update h fun t ht => by cases ht
  | popFront q => exact travOk_update h fun t ht => by cases ht
  | iterator q =>
      refine travOk_update h fun t ht => ?_
      rw [← Option.some.inj ht]
      exact ⟨rfl, rfl, fun v hv => by cases hv⟩
  | next q =>
      simp only [absStep]
      cases ht : (a q).trav with
      | none => exact h
      | some t =>
          refine travOk_update h fun t' ht' => ?_
          rw [← Option.some.inj ht']
          exact Traversal.next_ok (h q t ht)
  | delete q =>
      simp only [absStep]
      cases ht : (a q).trav with
      | none => exact h
      | some t =>
          refine travOk_update h fun t' ht' => ?_
          rw [← Option.some.inj ht']
          exact ⟨by simp, (h q t ht).order, fun v hv => by cases hv⟩
  | peekFront q => exact h
  | hasNext q => exact h
  | scribble b v => exact h

/-! ## Runs -/

theorem Step.rel {x y : State ι × (ι → AbsQueue)} {op : Op ι} (hx : ∃ l, Rel x.1 x.2 l)
    (h : Step x op y) : ∃ l, Rel y.1 y.2 l := by
  obtain ⟨l, hrel⟩ := hx
  obtain ⟨hlegal, ⟨r, hr⟩, ha⟩ := h
  obtain ⟨s', l', hs, hrel'⟩ := hrel.step hlegal
  rw [hr, Except.ok.injEq, Prod.mk.injEq] at hs
  rw [ha, hs.1]
  exact ⟨l', hrel'⟩

theorem Run.rel {tr : List ((State ι × (ι → AbsQueue)) × Op ι × State ι × (ι → AbsQueue))}
    (h : Run tr s a) : ∃ l, Rel s a l := by
  obtain ⟨node, cur, htrace⟩ := h
  exact htrace.invariant (P := fun x => ∃ l, Rel x.1 x.2 l) Step.rel ⟨_, rel_start node cur⟩

theorem Run.snoc {tr : List ((State ι × (ι → AbsQueue)) × Op ι × State ι × (ι → AbsQueue))}
    (h : Run tr s a) (op : Op ι) (hlegal : Legal s a op) {r : Nat}
    (hs : Queue.step s op = .ok (s', r)) :
    Run (tr ++ [((s, a), op, s', (absStep a op).1)]) s' (absStep a op).1 := by
  obtain ⟨node, cur, htrace⟩ := h
  exact ⟨node, cur, htrace.append (.cons ⟨hlegal, ⟨r, hs⟩, rfl⟩ (.nil _))⟩

theorem Run.travOk {tr : List ((State ι × (ι → AbsQueue)) × Op ι × State ι × (ι → AbsQueue))}
    (h : Run tr s a) : ∀ q t, (a q).trav = some t → TravOk (a q) t := by
  obtain ⟨node, cur, htrace⟩ := h
  refine htrace.invariant (P := fun x => ∀ q t, (x.2 q).trav = some t → TravOk (x.2 q) t) ?_ ?_
  · intro x op y hx hstep
    rw [hstep.2.2]
    exact absStep_travOk hx op
  · exact fun q t ht => by cases ht

/-- A well-formed doubly linked list with the nodes `l`. -/
structure WellFormed (m : Mem) (d : Dequeue) (l : List Nat) : Prop where
  nodes : Chain 0 m.next d.head l
  size : d.size = l.length
  prev_next : ∀ a ∈ l, m.next a ≠ 0 → m.prev (m.next a) = a
  next_prev : ∀ a ∈ l, m.prev a ≠ 0 → m.next (m.prev a) = a
  head : d.head = l.head?.getD 0
  tail : d.tail = l.getLast?.getD 0
  head_prev : l ≠ [] → m.prev d.head = 0
  tail_next : l ≠ [] → m.next d.tail = 0

theorem Linked.wellFormed {m : Mem} {d : Dequeue} {l : List Nat} (h : Linked m d l) :
    WellFormed m d l := by
  refine ⟨h.chain.1, h.size, fun a ha => h.chain.prev_next ha, fun a ha => h.chain.next_prev ha,
    h.chain.head_eq, h.chain.tail_eq, fun hne => ?_, fun hne => ?_⟩
  · cases l with
    | nil => exact absurd rfl hne
    | cons x r =>
        have hprev : m.prev x = 0 := h.chain.prev_eq (l := [])
        rw [h.chain.head_eq]
        exact hprev
  · rcases List.eq_nil_or_concat l with rfl | ⟨k, x, rfl⟩
    · exact absurd rfl hne
    · have hchain := h.chain
      rw [List.concat_eq_append] at hchain
      rw [hchain.tail_eq, List.getLast?_concat]
      exact hchain.next_eq

/-- Every queue is a well-formed list in every state of every run, each call does
and returns what it does and returns on the abstract list, without a panic, and a
traversal goes through the elements it started with. -/
theorem run_refines {tr : List ((State ι × (ι → AbsQueue)) × Op ι × State ι × (ι → AbsQueue))}
    (h : Run tr s a) :
    (∀ q, ∃ l, WellFormed s.mem (s.queue q) l ∧ l.map s.mem.data = (a q).items) ∧
    (∀ op, Legal s a op → ∃ s', Queue.step s op = .ok (s', (absStep a op).2) ∧
      ∀ q, ∃ l, WellFormed s'.mem (s'.queue q) l ∧ l.map s'.mem.data = ((absStep a op).1 q).items) ∧
    (∀ q, 0 ∉ (a q).items → ((absStep a (.popFront q)).2 = 0 ↔ (a q).items = [])) ∧
    ∀ q t, (a q).trav = some t → TravOk (a q) t := by
  obtain ⟨l, hrel⟩ := h.rel
  refine ⟨fun q => ⟨l q, (hrel.linked q).wellFormed, hrel.items q⟩, fun op hlegal => ?_, fun q h0 => ?_,
    h.travOk⟩
  · obtain ⟨s', l', hs, hrel'⟩ := hrel.step hlegal
    exact ⟨s', hs, fun q => ⟨l' q, (hrel'.linked q).wellFormed, hrel'.items q⟩⟩
  · show (a q).items.head?.getD 0 = 0 ↔ _
    cases hitems : (a q).items with
    | nil => simp
    | cons x r =>
        rw [hitems] at h0
        have hx : x ≠ 0 := fun e => h0 (by simp [e])
        simpa using hx

end

/-- Two items are queued; the traversal returns the first one and deletes it. -/
theorem run_refines_two : ∃ tr, ∃ s : State Unit, ∃ a, Run tr s a ∧ (a ()).items = [8] ∧
    ∃ l, WellFormed s.mem (s.queue ()) l ∧ l.map s.mem.data = [8] := by
  have h0 : Run [] (start (fun _ => ⟨0, 0, 0⟩) fun _ : Unit => 0) absStart := ⟨_, _, .nil _⟩
  have h1 := h0.snoc (.pushBack () 7 16) ⟨by decide, by decide⟩ rfl
  have h2 := h1.snoc (.pushBack () 8 40) ⟨by decide, by decide⟩ rfl
  have h3 := h2.snoc (.iterator ()) trivial rfl
  have h4 := h3.snoc (.next ()) ⟨_, rfl⟩ rfl
  have h5 := h4.snoc (.delete ()) ⟨_, _, rfl, rfl⟩ rfl
  obtain ⟨l, hl, hitems⟩ := (run_refines h5).1 ()
  exact ⟨_, _, _, h5, rfl, l, hl, hitems⟩

end Queue
end GuideOS
