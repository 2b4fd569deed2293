import GuideOS.Util.Queue.Refine

/-!
# Pushing to the front

`dequeue_push_front` of an empty queue calls itself with the same arguments, where it
would have to call `dequeue_push_back`, and never returns.  On every other queue it
prepends, and a mix of pushes at both ends and pops is what it is on lists.
-/

namespace GuideOS
namespace Queue
namespace Front

open Lib

/-- The part of `dequeue_push_front` for a queue that is not empty.  `node` is what
`kmalloc` returns. -/
def linkFront (m : Mem) (q : Dequeue) (item node : Nat) : Mem × Dequeue :=
  let m := ((m.kmalloc node).setData node item).setPrev node 0
  let m := (m.setNext node q.head).setPrev q.head node
  (m, { q with head := node, size := incSize q.size })

/-- The result is `none` when the fuel does not suffice for the recursion. -/
def dequeuePushFront (m : Mem) (q : Dequeue) (item node : Nat) : Nat → Option (Mem × Dequeue)
  | 0 => none
  | fuel + 1 =>
      if q.size = 0 then dequeuePushFront m q item node fuel
      else some (linkFront m q item node)

section

variable {m m' : Mem} {d d' : Dequeue} {l : List Nat} {item node : Nat}

theorem dequeuePushFront_of_empty (h : d.size = 0) (fuel : Nat) :
    dequeuePushFront m d item node fuel = none := by
  induction fuel with
  | zero => rfl
  | succ fuel ih => rw [dequeuePushFront, if_pos h, ih]

theorem dequeuePushFront_iff :
    (∃ fuel, dequeuePushFront m d item node fuel = some (m', d')) ↔
      d.size ≠ 0 ∧ linkFront m d item node = (m', d') := by
  constructor
  · rintro ⟨fuel, h⟩
    by_cases hempty : d.size = 0
    · rw [dequeuePushFront_of_empty hempty] at h
      cases h
    · refine ⟨hempty, ?_⟩
      cases fuel with
      | zero => cases h
      | succ fuel =>
          rw [dequeuePushFront, if_neg hempty] at h
          exact Option.some.inj h
  · rintro ⟨hne, h⟩
    exact ⟨1, by rw [dequeuePushFront, if_neg hne, h]⟩

theorem linkFront_spec (h : Linked m d l) (hl : l ≠ []) (hnull : node ≠ 0) (hfresh : node ∉ l)
    (hlen : l.length + 1 < 2 ^ 64) (hpush : linkFront m d item node = (m', d')) :
    Linked m' d' (node :: l) ∧ m'.data node = item ∧ (∀ b ∈ l, m'.data b = m.data b) ∧
      m'.allocated = insert node m.allocated := by
  have hne : ∀ b ∈ l, b ≠ node := fun b hb e => hfresh (e ▸ hb)
  have hhead : d.head ∈ l := by
    rw [h.chain.head_eq, List.head?_eq_some_head hl]
    exact List.head_mem hl
  have hnh : node ≠ d.head := fun e => hne d.head hhead e.symm
  rw [linkFront, Prod.mk.injEq] at hpush
  obtain ⟨rfl, rfl⟩ := hpush
  refine ⟨⟨?_, ?_⟩, ?_, fun b hb => ?_, rfl⟩
  · refine h.chain.cons hnull hfresh ?_ ?_ (fun e => absurd e hl) (fun _ => ⟨rfl, ?_⟩)
      (fun b hb hbh => ?_) fun b hb => ?_
    · simp [Mem.prev, hnh]
    · simp [Mem.next]
    · simp [Mem.prev]
    · simp [Mem.prev, hbh, hne b hb]
    · simp [Mem.next, hne b hb]
  · show incSize d.size = _
    rw [h.size, incSize_eq hlen, List.length_cons]
  · simp [Mem.data]
  · simp [Mem.data, hne b hb]

end

/-! ## A queue and its list -/

@[ext]
structure State where
  mem : Mem
  queue : Dequeue

inductive Op
  | pushFront (item node : Nat)
  | pushBack (item node : Nat)
  | popFront
  /-- Memory that is not a node in use changes. -/
  | scribble (a : Nat) (v : Node)

/-- The call returns `r` in the state `s'`. -/
def Returns (s : State) : Op → State → Nat → Prop
  | .pushFront item node, s', r =>
      (∃ fuel, dequeuePushFront s.mem s.queue item node fuel = some (s'.mem, s'.queue)) ∧ r = 0
  | .pushBack item node, s', r =>
      dequeuePushBack s.mem s.queue item node = (s'.mem, s'.queue) ∧ r = 0
  | .popFront, s', r => dequeuePopFront s.mem s.queue = .ok (s'.mem, s'.queue, r)
  | .scribble a v, s', r =>
      s' = { s with mem.node := Function.update s.mem.node a v } ∧ r = 0

/-- The operations on lists, with `0` for `NULL`. -/
def listStep (items : List Nat) : Op → List Nat × Nat
  | .pushFront item _ => (item :: items, 0)
  | .pushBack item _ => (items ++ [item], 0)
  | .popFront => (items.tail, items.head?.getD 0)
  | .scribble _ _ => (items, 0)

/-- `kmalloc` returns a node that is not in use. -/
def Legal (s : State) : Op → Prop
  | .pushFront _ node => (0 < node ∧ node < 2 ^ 64) ∧ node ∉ s.mem.allocated
  | .pushBack _ node => (0 < node ∧ node < 2 ^ 64) ∧ node ∉ s.mem.allocated
  | .popFront => True
  | .scribble a _ => a ∉ s.mem.allocated

/-- The one call that goes wrong. -/
def OnEmpty (items : List Nat) : Op → Prop
  | .pushFront _ _ => items = []
  | _ => False

/-- The queue is the doubly linked list of the nodes `l`, which are in use. -/
structure Good (s : State) (l : List Nat) : Prop where
  linked : Linked s.mem s.queue l
  used : ∀ x ∈ l, x ∈ s.mem.allocated
  range : ∀ x ∈ s.mem.allocated, 0 < x ∧ x < 2 ^ 64

/-- The queue is well formed and holds the items. -/
def Holds (s : State) (items : List Nat) : Prop := ∃ l, Good s l ∧ l.map s.mem.data = items

/-- A call that returns, beside the operation on the list. -/
def Step (x : State × List Nat) (op : Op) (y : State × List Nat) : Prop :=
  Legal x.1 op ∧ (∃ r, Returns x.1 op y.1 r) ∧ y.2 = (listStep x.2 op).1

section

variable {s s' : State} {l items : List Nat} {item node r : Nat}

theorem Good.not_mem (h : Good s l) (hfresh : node ∉ s.mem.allocated) : node ∉ l :=
  fun hx => hfresh (h.used node hx)

theorem Good.length_lt (h : Good s l) : l.length < 2 ^ 64 :=
  Queue.length_lt h.linked.chain.nodup fun x hx => h.range x (h.used x hx)

theorem Good.length_succ_lt (h : Good s l) (hnode : 0 < node ∧ node < 2 ^ 64)
    (hfresh : node ∉ s.mem.allocated) : l.length + 1 < 2 ^ 64 :=
  Queue.length_succ_lt h.linked.chain.nodup (fun x hx => h.range x (h.used x hx)) hnode
    (h.not_mem hfresh)

/-- A queue with a new node, at either end. -/
theorem Good.insert {l' : List Nat} (h : Good s l) (hnode : 0 < node ∧ node < 2 ^ 64)
    (hlinked : Linked s'.mem s'.queue l') (hmem : ∀ x ∈ l', x = node ∨ x ∈ l)
    (halloc : s'.mem.allocated = insert node s.mem.allocated) : Good s' l' := by
  refine ⟨hlinked, fun x hx => ?_, fun x hx => ?_⟩
  · rw [halloc, Finset.mem_insert]
    exact (hmem x hx).imp_right (h.used x)
  · rw [halloc, Finset.mem_insert] at hx
    rcases hx with rfl | hx
    · exact hnode
    · exact h.range x hx

theorem Good.pushFront (h : Good s l) (hl : l ≠ []) (hlegal : Legal s (.pushFront item node))
    (hpush : linkFront s.mem s.queue item node = (s'.mem, s'.queue)) :
    Good s' (node :: l) ∧ (node :: l).map s'.mem.data = item :: l.map s.mem.data := by
  obtain ⟨hnode, hfresh⟩ := hlegal
  obtain ⟨hlinked, hitem, hdata, halloc⟩ := linkFront_spec h.linked hl (Nat.pos_iff_ne_zero.mp hnode.1)
    (h.not_mem hfresh) (h.length_succ_lt hnode hfresh) hpush
  refine ⟨h.insert hnode hlinked (fun x hx => List.mem_cons.mp hx) halloc, ?_⟩
  rw [List.map_cons, hitem, map_data_congr hdata]

theorem Good.pushBack (h : Good s l) (hlegal : Legal s (.pushBack item node))
    (hpush : dequeuePushBack s.mem s.queue item node = (s'.mem, s'.queue)) :
    Good s' (l ++ [node]) ∧ (l ++ [node]).map s'.mem.data = l.map s.mem.data ++ [item] := by
  obtain ⟨hnode, hfresh⟩ := hlegal
  obtain ⟨hlinked, hitem, hdata, _, halloc, _⟩ := dequeuePushBack_spec h.linked
    (Nat.pos_iff_ne_zero.mp hnode.1) (h.not_mem hfresh) (h.length_succ_lt hnode hfresh) hpush
  refine ⟨h.insert hnode hlinked (fun x hx => ?_) halloc, ?_⟩
  · rw [List.mem_append, List.mem_singleton, or_comm] at hx
    exact hx
  · rw [List.map_append, List.map_singleton, hitem, map_data_congr hdata]

theorem Good.popFront (h : Good s l) :
    ∃ s', Returns s .popFront s' ((l.map s.mem.data).head?.getD 0) ∧ Good s' l.tail ∧
      l.tail.map s'.mem.data = (l.map s.mem.data).tail := by
  cases l with
  | nil =>
      refine ⟨s, ?_, h, rfl⟩
      rw [Returns, dequeuePopFront, if_pos (h.linked.size_eq_zero.mpr rfl)]
      rfl
  | cons x r =>
      obtain ⟨m', d', hpop, hlinked, hdata, _, halloc, _⟩ := dequeuePopFront_cons h.linked h.length_lt
      refine ⟨⟨m', d'⟩, hpop, ⟨hlinked, fun y hy => ?_, fun y hy => ?_⟩,
        map_data_congr fun b _ => hdata b⟩
      · have hyx : y ≠ x := by
          rintro rfl
          exact (List.nodup_cons.mp h.linked.chain.nodup).1 hy
        rw [halloc, Finset.mem_erase]
        exact ⟨hyx, h.used y (List.mem_cons_of_mem x hy)⟩
      · rw [halloc] at hy
        exact h.range y (Finset.mem_of_mem_erase hy)

theorem Good.scribble (h : Good s l) {a : Nat} {v : Node} (ha : a ∉ s.mem.allocated) :
    Good { s with mem.node := Function.update s.mem.node a v } l ∧
      l.map (Mem.data { s.mem with node := Function.update s.mem.node a v }) = l.map s.mem.data := by
  have hsame : ∀ b ∈ l, Function.update s.mem.node a v b = s.mem.node b := fun b hb =>
    Function.update_of_ne (fun e : b = a => ha (e ▸ h.used b hb)) _ _
  refine ⟨⟨h.linked.congr hsame, h.used, h.range⟩, map_data_congr fun b hb => ?_⟩
  exact congrArg Node.data (hsame b hb)

/-- Every call but one returns what it returns on the list. -/
theorem Holds.step (h : Holds s items) {op : Op} (hlegal : Legal s op) (hop : ¬ OnEmpty items op) :
    ∃ s', Returns s op s' (listStep items op).2 ∧ Holds s' (listStep items op).1 := by
  obtain ⟨l, hgood, rfl⟩ := h
  cases op with
  | pushFront item node =>
      have hl : l ≠ [] := fun e => hop (by rw [e]; rfl)
      have hsize : s.queue.size ≠ 0 := fun e => hl (hgood.linked.size_eq_zero.mp e)
      obtain ⟨s', hpush⟩ : ∃ s' : State, linkFront s.mem s.queue item node = (s'.mem, s'.queue) :=
        ⟨⟨_, _⟩, rfl⟩
      exact ⟨s', ⟨dequeuePushFront_iff.mpr ⟨hsize, hpush⟩, rfl⟩, node :: l,
        hgood.pushFront hl hlegal hpush⟩
  | pushBack item node =>
      obtain ⟨s', hpush⟩ : ∃ s' : State,
          dequeuePushBack s.mem s.queue item node = (s'.mem, s'.queue) := ⟨⟨_, _⟩, rfl⟩
      exact ⟨s', ⟨hpush, rfl⟩, l ++ [node], hgood.pushBack hlegal hpush⟩
  | popFront =>
      obtain ⟨s', hpop, hgood', hitems⟩ := hgood.popFront
      exact ⟨s', hpop, _, hgood', hitems⟩
  | scribble a v =>
      exact ⟨_, ⟨rfl, rfl⟩, _, hgood.scribble hlegal⟩

/-- `dequeue_push_front` of an empty queue does not return. -/
theorem Holds.not_returns (h : Holds s items) {op : Op} (hop : OnEmpty items op) :
    ¬ ∃ s' r, Returns s op s' r := by
  obtain ⟨l, hgood, rfl⟩ := h
  cases op with
  | pushFront item node =>
      rintro ⟨s', r, hreturn, _⟩
      have hl : l = [] := List.map_eq_nil_iff.mp hop
      exact (dequeuePushFront_iff.mp hreturn).1 (hgood.linked.size_eq_zero.mpr hl)
  | pushBack item node => exact hop.elim
  | popFront => exact hop.elim
  | scribble a v => exact hop.elim

/-- A call has one result. -/
theorem Returns.unique {op : Op} {s₁ s₂ : State} {r₁ r₂ : Nat} (h₁ : Returns s op s₁ r₁)
    (h₂ : Returns s op s₂ r₂) : s₁ = s₂ ∧ r₁ = r₂ := by
  cases op with
  | pushFront item node =>
      have heq := (dequeuePushFront_iff.mp h₁.1).2.symm.trans (dequeuePushFront_iff.mp h₂.1).2
      rw [Prod.mk.injEq] at heq
      exact ⟨State.ext heq.1 heq.2, h₁.2.trans h₂.2.symm⟩
  | pushBack item node =>
      have heq := h₁.1.symm.trans h₂.1
      rw [Prod.mk.injEq] at heq
      exact ⟨State.ext heq.1 heq.2, h₁.2.trans h₂.2.symm⟩
  | popFront =>
      have heq := Except.ok.inj (h₁.symm.trans h₂)
      rw [Prod.mk.injEq, Prod.mk.injEq] at heq
      exact ⟨State.ext heq.1 heq.2.1, heq.2.2⟩
  | scribble a v => exact ⟨h₁.1.trans h₂.1.symm, h₁.2.trans h₂.2.symm⟩

theorem Step.holds {x y : State × List Nat} {op : Op} (hx : Holds x.1 x.2) (h : Step x op y) :
    Holds y.1 y.2 := by
  obtain ⟨hlegal, ⟨r, hr⟩, hitems⟩ := h
  have hop : ¬ OnEmpty x.2 op := fun hop => hx.not_returns hop ⟨y.1, r, hr⟩
  obtain ⟨s', hs', hholds⟩ := hx.step hlegal hop
  rw [hitems, (hr.unique hs').1]
  exact hholds

end

/-- In a run from any well-formed queue, the queue holds what the operations on lists
make of its items, and a call returns what it returns on the list exactly if it is not
`dequeue_push_front` of an empty queue. -/
theorem run_front_iff {x y : State × List Nat} {tr : List ((State × List Nat) × Op × State × List Nat)}
    (hstart : Holds x.1 x.2) (hrun : Trace Step x tr y) :
    Holds y.1 y.2 ∧ ∀ op, Legal y.1 op →
      ((∃ s', Returns y.1 op s' (listStep y.2 op).2 ∧ Holds s' (listStep y.2 op).1) ↔
        ¬ OnEmpty y.2 op) := by
  have hholds := hrun.invariant (P := fun x => Holds x.1 x.2) Step.holds hstart
  refine ⟨hholds, fun op hlegal => ⟨?_, hholds.step hlegal⟩⟩
  rintro ⟨s', hreturn, _⟩ hop
  exact hholds.not_returns hop ⟨s', _, hreturn⟩

theorem holds_construct (node : Nat → Node) :
    Holds ⟨⟨node, ∅, false⟩, dequeueConstruct⟩ [] :=
  ⟨[], ⟨⟨⟨rfl, rfl⟩, rfl⟩, fun _ hx => absurd hx List.not_mem_nil,
    fun x hx => absurd hx (Finset.notMem_empty x)⟩, rfl⟩

/-- A push at the back and one at the front. -/
theorem run_front_iff_two : ∃ s s' : State,
    Returns ⟨⟨fun _ => ⟨0, 0, 0⟩, ∅, false⟩, dequeueConstruct⟩ (.pushBack 7 16) s 0 ∧
      Returns s (.pushFront 8 40) s' 0 ∧ Holds s' [8, 7] := by
  let x : State × List Nat := (⟨⟨fun _ => ⟨0, 0, 0⟩, ∅, false⟩, dequeueConstruct⟩, [])
  obtain ⟨⟨m, d⟩, hpush⟩ : ∃ y, dequeuePushBack x.1.mem x.1.queue 7 16 = y := ⟨_, rfl⟩
  have hstep : Step x (.pushBack 7 16) (⟨m, d⟩, [7]) :=
    ⟨⟨by decide, Finset.notMem_empty _⟩, ⟨0, hpush, rfl⟩, rfl⟩
  have halloc : m.allocated = {16} := by
    rw [← (Prod.mk.inj hpush).1]
    rfl
  have hlegal : Legal ⟨m, d⟩ (.pushFront 8 40) := ⟨by decide, by rw [halloc]; decide⟩
  obtain ⟨s', hreturn, hholds⟩ := ((run_front_iff (holds_construct _)
    (.cons hstep (.nil _))).2 (.pushFront 8 40) hlegal).mpr (List.cons_ne_nil 7 [])
  exact ⟨_, s', ⟨hpush, rfl⟩, hreturn, hholds⟩

/-- The queue that `dequeue_construct` makes is well formed and empty, and
`dequeue_push_front` does not return on it. -/
theorem pushFront_empty_diverges :
    Holds ⟨⟨fun _ => ⟨0, 0, 0⟩, ∅, false⟩, dequeueConstruct⟩ [] ∧
      Legal ⟨⟨fun _ => ⟨0, 0, 0⟩, ∅, false⟩, dequeueConstruct⟩ (.pushFront 7 16) ∧
      (∀ fuel, dequeuePushFront ⟨fun _ => ⟨0, 0, 0⟩, ∅, false⟩ dequeueConstruct 7 16 fuel = none) ∧
      ¬ ∃ s' r, Returns ⟨⟨fun _ => ⟨0, 0, 0⟩, ∅, false⟩, dequeueConstruct⟩ (.pushFront 7 16) s' r :=
  ⟨holds_construct _, ⟨by decide, Finset.notMem_empty _⟩, dequeuePushFront_of_empty rfl,
    (holds_construct _).not_returns rfl⟩

end Front
end Queue
end GuideOS
