import GuideOS.Util.Queue.Refine

/-!
# Waking up

The loop of `sched_wakeup` on the queues themselves.  It deletes from the waiting queue
while it traverses it, and pushes what it deletes to the ready queue, with a new node
from `kmalloc`.  The loop runs under `sched.lock`, so it is one step.

The field `chan` of the process at an address is a parameter, since no queue is stored
in a process.  So is `kmalloc`: it refuses, which is the panic of a full heap, or
returns a node that is not in use, and meanwhile it may change memory that is not in use.
-/

namespace GuideOS
namespace Wakeup

open Lib Queue

inductive Panic
  | queue (p : Queue.Panic)
  /-- Call `i` of `kmalloc`, made in the memory `m`, refuses. -/
  | oom (i : Nat) (m : Mem)
  /-- The `while` never ends. -/
  | loop

/-- What call `i` of `kmalloc` returns, and the words it leaves. -/
abbrev Alloc := Nat → Mem → Option (Nat × (Nat → Node))

/-- The contract of `kmalloc`. -/
def Sound (alloc : Alloc) : Prop :=
  ∀ i m node words, alloc i m = some (node, words) →
    (0 < node ∧ node < 2 ^ 64) ∧ node ∉ m.allocated ∧ ∀ b ∈ m.allocated, words b = m.node b

def walkFuel : Nat := 2 ^ 64

/-- The `while` of `sched_wakeup`.  `i` counts the calls of `kmalloc`. -/
def wakeLoop (chanOf : Nat → Nat) (alloc : Alloc) (chan : Nat) :
    Nat → Nat → Mem → Dequeue → Dequeue → Nat → Except Panic (Mem × Dequeue × Dequeue)
  | 0, _, _, _, _, _ => .error .loop
  | fuel + 1, i, m, waiting, ready, iter =>
      if dequeueIteratorHasNext iter then
        let (iter, p) := dequeueIteratorNext m iter
        if chanOf p = chan then
          match dequeueIteratorDelete m waiting iter with
          | .error e => .error (.queue e)
          | .ok (m, waiting, iter) =>
              match alloc i m with
              | none => .error (.oom i m)
              | some (node, words) =>
                  let (m, ready) := dequeuePushBack { m with node := words } ready p node
                  wakeLoop chanOf alloc chan fuel (i + 1) m waiting ready iter
        else wakeLoop chanOf alloc chan fuel i m waiting ready iter
      else .ok (m, waiting, ready)

def schedWakeup (chanOf : Nat → Nat) (alloc : Alloc) (m : Mem) (waiting ready : Dequeue)
    (chan : Nat) : Except Panic (Mem × Dequeue × Dequeue) :=
  wakeLoop chanOf alloc chan walkFuel 0 m waiting ready (dequeueIterator waiting)

/-! ## The two queues -/

/-- Both queues are well formed, with the nodes `w` and `r`, and share none. -/
structure Queues (m : Mem) (waiting ready : Dequeue) (w r : List Nat) : Prop where
  waiting : Linked m waiting w
  ready : Linked m ready r
  disjoint : ∀ x ∈ w, x ∉ r
  used : ∀ x, x ∈ w ∨ x ∈ r → x ∈ m.allocated
  range : ∀ x ∈ m.allocated, 0 < x ∧ x < 2 ^ 64

section

variable {m m' : Mem} {waiting ready : Dequeue} {w k rest r : List Nat} {x node : Nat}

theorem Queues.length_lt (h : Queues m waiting ready w r) : w.length < 2 ^ 64 :=
  Queue.length_lt h.waiting.chain.nodup fun x hx => h.range x (h.used x (Or.inl hx))

/-- The element that was just returned is deleted. -/
theorem Queues.delete (h : Queues m waiting ready (k ++ x :: rest) r) :
    ∃ m' waiting', dequeueIteratorDelete m waiting (rest.head?.getD 0) =
        .ok (m', waiting', rest.head?.getD 0) ∧
      Queues m' waiting' ready (k ++ rest) r ∧ ∀ b, m'.data b = m.data b := by
  obtain ⟨m', waiting', hdel, hlinked, hdata, hnode, hone, hmore⟩ :=
    dequeueIteratorDelete_spec h.waiting h.length_lt rfl
  have hx : x ∉ k ++ rest := (List.nodup_cons.mp (List.nodup_middle.mp h.waiting.chain.nodup)).1
  have hsub : ∀ y ∈ k ++ rest, y ∈ k ++ x :: rest := fun y hy => by
    rw [List.perm_middle.mem_iff]
    exact List.mem_cons_of_mem x hy
  -- The node of the only element is freed, the others stay allocated.
  have halloc : m'.allocated = m.allocated ∨ m'.allocated = m.allocated.erase x := by
    by_cases hsize : waiting.size = 1
    · exact Or.inr (hone hsize).1
    · exact Or.inl (hmore hsize).1
  have hkept : ∀ y ∈ m.allocated, y ≠ x → y ∈ m'.allocated := by
    intro y hy hyx
    rcases halloc with e | e
    · rw [e]
      exact hy
    · rw [e]
      exact Finset.mem_erase.mpr ⟨hyx, hy⟩
  have hless : ∀ y ∈ m'.allocated, y ∈ m.allocated := by
    intro y hy
    rcases halloc with e | e
    · rwa [e] at hy
    · rw [e] at hy
      exact Finset.mem_of_mem_erase hy
  refine ⟨m', waiting', hdel, ⟨hlinked, ?_, fun y hy => h.disjoint y (hsub y hy), fun y hy => ?_,
    fun y hy => h.range y (hless y hy)⟩, hdata⟩
  · exact h.ready.congr fun b hb => hnode b fun hw => h.disjoint b hw hb
  · rcases hy with hy | hy
    · exact hkept y (h.used y (Or.inl (hsub y hy))) fun e => hx (e ▸ hy)
    · refine hkept y (h.used y (Or.inr hy)) ?_
      rintro rfl
      exact h.disjoint y (by simp) hy

/-- `kmalloc` changes memory that is not in use. -/
theorem Queues.words (h : Queues m waiting ready w r) {words : Nat → Node}
    (hwords : ∀ b ∈ m.allocated, words b = m.node b) :
    Queues { m with node := words } waiting ready w r where
  waiting := h.waiting.congr fun b hb => hwords b (h.used b (Or.inl hb))
  ready := h.ready.congr fun b hb => hwords b (h.used b (Or.inr hb))
  disjoint := h.disjoint
  used := h.used
  range := h.range

theorem Queues.push (h : Queues m waiting ready w r) (hnode : 0 < node ∧ node < 2 ^ 64)
    (hfresh : node ∉ m.allocated) {p : Nat} {ready' : Dequeue}
    (hpush : dequeuePushBack m ready p node = (m', ready')) :
    Queues m' waiting ready' w (r ++ [node]) ∧ m'.data node = p ∧
      ∀ b, b ∈ w ∨ b ∈ r → m'.data b = m.data b := by
  have hnot : ∀ y, y ∈ w ∨ y ∈ r → y ≠ node := fun y hy e => hfresh (e ▸ h.used y hy)
  have hnr : node ∉ r := fun hr => hnot node (Or.inr hr) rfl
  have hlen := length_succ_lt h.ready.chain.nodup (fun x hx => h.range x (h.used x (Or.inr hx))) hnode hnr
  obtain ⟨hlinked, hitem, hdata, hother, halloc, _⟩ :=
    dequeuePushBack_spec h.ready (Nat.pos_iff_ne_zero.mp hnode.1) hnr hlen hpush
  have hsame : ∀ b ∈ w, m'.node b = m.node b := fun b hb =>
    hother b (hnot b (Or.inl hb)) (h.disjoint b hb)
  refine ⟨⟨h.waiting.congr hsame, hlinked, fun y hy hy' => ?_, fun y hy => ?_, fun y hy => ?_⟩, hitem,
    fun b hb => ?_⟩
  · rw [List.mem_append, List.mem_singleton] at hy'
    exact hy'.elim (h.disjoint y hy) (hnot y (Or.inl hy))
  · rw [List.mem_append, List.mem_singleton, ← or_assoc] at hy
    rw [halloc, Finset.mem_insert]
    exact hy.symm.imp_right (h.used y)
  · rw [halloc, Finset.mem_insert] at hy
    rcases hy with rfl | hy
    · exact hnode
    · exact h.range y hy
  · rcases hb with hb | hb
    · rw [Mem.data, hsame b hb]
      rfl
    · exact hdata b hb

end

/-! ## The loop -/

/-- The items of the queues after the loop, for the processes `kept` that it has passed,
those `ahead` of it and those `woken` before. -/
def Split (chanOf : Nat → Nat) (chan : Nat) (kept ahead woken : List Nat)
    (res : Mem × Dequeue × Dequeue) : Prop :=
  ∃ w r, Queues res.1 res.2.1 res.2.2 w r ∧
    w.map res.1.data = kept ++ ahead.filter (fun p => chanOf p ≠ chan) ∧
    r.map res.1.data = woken ++ ahead.filter fun p => chanOf p = chan

section

variable {chanOf : Nat → Nat} {alloc : Alloc} {chan : Nat} {m : Mem} {waiting ready : Dequeue}
  {k rest r : List Nat} {x : Nat}

theorem next_eq (h : Queues m waiting ready (k ++ x :: rest) r) :
    dequeueIteratorHasNext x = true ∧
      dequeueIteratorNext m x = (rest.head?.getD 0, m.data x) := by
  have hx : x ≠ 0 := h.waiting.chain.ne_null (by simp)
  have hnext : (m.node x).next = rest.head?.getD 0 := h.waiting.chain.next_eq
  refine ⟨decide_eq_true hx, ?_⟩
  rw [dequeueIteratorNext, if_pos hx, hnext]
  rfl

/-- A turn of the loop that keeps the process. -/
theorem wakeLoop_keep (h : Queues m waiting ready (k ++ x :: rest) r) (hx : chanOf (m.data x) ≠ chan)
    (i fuel : Nat) :
    wakeLoop chanOf alloc chan (fuel + 1) i m waiting ready x =
      wakeLoop chanOf alloc chan fuel i m waiting ready (rest.head?.getD 0) := by
  obtain ⟨hhas, hnext⟩ := next_eq h
  rw [wakeLoop, if_pos hhas, hnext]
  dsimp only
  rw [if_neg hx]

/-- A turn of the loop that wakes the process. -/
theorem wakeLoop_wake (hsound : Sound alloc) (h : Queues m waiting ready (k ++ x :: rest) r)
    (hx : chanOf (m.data x) = chan) (i fuel : Nat) :
    (∃ m', alloc i m' = none ∧
        wakeLoop chanOf alloc chan (fuel + 1) i m waiting ready x = .error (.oom i m')) ∨
      ∃ m' waiting' ready' node, Queues m' waiting' ready' (k ++ rest) (r ++ [node]) ∧
        (∀ b, b ∈ k ++ rest ∨ b ∈ r → m'.data b = m.data b) ∧ m'.data node = m.data x ∧
        wakeLoop chanOf alloc chan (fuel + 1) i m waiting ready x =
          wakeLoop chanOf alloc chan fuel (i + 1) m' waiting' ready' (rest.head?.getD 0) := by
  obtain ⟨hhas, hnext⟩ := next_eq h
  obtain ⟨m₁, waiting', hdel, h₁, hdata₁⟩ := h.delete
  have hloop : wakeLoop chanOf alloc chan (fuel + 1) i m waiting ready x =
      match alloc i m₁ with
      | none => .error (.oom i m₁)
      | some (node, words) =>
          let (m, ready) := dequeuePushBack { m₁ with node := words } ready (m.data x) node
          wakeLoop chanOf alloc chan fuel (i + 1) m waiting' ready (rest.head?.getD 0) := by
    rw [wakeLoop, if_pos hhas, hnext]
    dsimp only
    rw [if_pos hx, hdel]
  cases hreq : alloc i m₁ with
  | none =>
      refine Or.inl ⟨m₁, hreq, ?_⟩
      rw [hloop, hreq]
  | some got =>
      obtain ⟨node, words⟩ := got
      obtain ⟨hnode, hfresh, hwords⟩ := hsound i m₁ node words hreq
      obtain ⟨⟨m₂, ready'⟩, hpush⟩ : ∃ y,
          dequeuePushBack { m₁ with node := words } ready (m.data x) node = y := ⟨_, rfl⟩
      obtain ⟨h₂, hitem, hdata₂⟩ := (h₁.words hwords).push hnode hfresh hpush
      refine Or.inr ⟨m₂, waiting', ready', node, h₂, fun b hb => ?_, hitem, ?_⟩
      · rw [hdata₂ b hb, ← hdata₁ b]
        exact congrArg Node.data (hwords b (h₁.used b hb))
      · rw [hloop, hreq]
        dsimp only
        rw [hpush]

/-- The loop splits what lies ahead of it, in its order. -/
theorem wakeLoop_split (hsound : Sound alloc) (h : Queues m waiting ready (k ++ rest) r)
    (chanOf : Nat → Nat) (chan i : Nat) {fuel : Nat} (hfuel : rest.length < fuel) :
    (∃ res, wakeLoop chanOf alloc chan fuel i m waiting ready (rest.head?.getD 0) = .ok res ∧
        Split chanOf chan (k.map m.data) (rest.map m.data) (r.map m.data) res) ∨
      ∃ j m', wakeLoop chanOf alloc chan fuel i m waiting ready (rest.head?.getD 0) = .error (.oom j m') ∧
        alloc j m' = none ∧ j < i + ((rest.map m.data).filter fun p => chanOf p = chan).length := by
  -- The nodes `k` stay; each turn moves the first node of `rest` to `k` or to `r`.
  induction rest generalizing fuel i m waiting ready k r with
  | nil =>
      obtain ⟨fuel, rfl⟩ := Nat.exists_eq_add_of_lt hfuel
      refine Or.inl ⟨(m, waiting, ready), ?_, k, r, by rwa [List.append_nil] at h, by simp, by simp⟩
      rw [show [].length + fuel + 1 = fuel + 1 by simp, wakeLoop]
      rfl
  | cons x rest ih =>
      obtain ⟨fuel, rfl⟩ := Nat.exists_eq_add_of_lt hfuel
      rw [show (x :: rest).length + fuel + 1 = (rest.length + fuel + 1) + 1 by simp; omega]
      have hleft : rest.length < rest.length + fuel + 1 := by omega
      show (∃ res, wakeLoop chanOf alloc chan _ i m waiting ready x = .ok res ∧ _) ∨
        ∃ j m', wakeLoop chanOf alloc chan _ i m waiting ready x = .error (.oom j m') ∧ _
      by_cases hx : chanOf (m.data x) = chan
      · rcases wakeLoop_wake hsound h hx i (rest.length + fuel + 1) with
          ⟨m', hnone, hloop⟩ | ⟨m', waiting', ready', node, h', hdata, hitem, hloop⟩
        · refine Or.inr ⟨i, m', hloop, hnone, ?_⟩
          simp [hx]
        · rw [hloop]
          have hk : k.map m'.data = k.map m.data := map_data_congr fun b hb =>
            hdata b (Or.inl (List.mem_append_left _ hb))
          have hrest : rest.map m'.data = rest.map m.data := map_data_congr fun b hb =>
            hdata b (Or.inl (List.mem_append_right _ hb))
          have hr : (r ++ [node]).map m'.data = r.map m.data ++ [m.data x] := by
            rw [List.map_append, List.map_singleton, hitem, map_data_congr fun b hb => hdata b (Or.inr hb)]
          rcases ih h' (i + 1) hleft with ⟨res, hok, w, r', hq, hw, hr'⟩ | ⟨j, m'', hoom, hnone, hj⟩
          · refine Or.inl ⟨res, hok, w, r', hq, ?_, ?_⟩
            · rw [hw, hk, hrest]
              simp [hx]
            · rw [hr', hr, hrest]
              simp [hx]
          · refine Or.inr ⟨j, m'', hoom, hnone, ?_⟩
            rw [hrest] at hj
            simp only [List.map_cons, List.filter_cons, hx, decide_true, if_true, List.length_cons]
            omega
      · rw [wakeLoop_keep h hx]
        have h' : Queues m waiting ready (k ++ [x] ++ rest) r := by rwa [List.append_assoc]
        rcases ih h' i hleft with ⟨res, hok, w, r', hq, hw, hr'⟩ | ⟨j, m'', hoom, hnone, hj⟩
        · refine Or.inl ⟨res, hok, w, r', hq, ?_, ?_⟩
          · rw [hw]
            simp [hx]
          · rw [hr']
            simp [hx]
        · refine Or.inr ⟨j, m'', hoom, hnone, ?_⟩
          simpa [hx] using hj

end

/-- `sched_wakeup` moves the processes that sleep on `chan` to the back of the ready
queue and keeps the others, both in their order, unless one of its own requests to
`kmalloc` is refused, and then it panics at that request. -/
theorem schedWakeup_partition {alloc : Alloc} (hsound : Sound alloc) {m : Mem}
    {waiting ready : Dequeue} {w r : List Nat} (h : Queues m waiting ready w r)
    (chanOf : Nat → Nat) (chan : Nat) :
    (∃ m' waiting' ready' w' r', schedWakeup chanOf alloc m waiting ready chan =
        .ok (m', waiting', ready') ∧ Queues m' waiting' ready' w' r' ∧
      w'.map m'.data = (w.map m.data).filter (fun p => chanOf p ≠ chan) ∧
      r'.map m'.data = r.map m.data ++ (w.map m.data).filter fun p => chanOf p = chan) ∨
    ∃ i m', schedWakeup chanOf alloc m waiting ready chan = .error (.oom i m') ∧
      alloc i m' = none ∧ i < ((w.map m.data).filter fun p => chanOf p = chan).length := by
  have hhead : dequeueIterator waiting = w.head?.getD 0 := h.waiting.chain.head_eq
  have hlen : w.length < walkFuel := h.length_lt
  rw [schedWakeup, hhead]
  rcases wakeLoop_split (k := []) hsound h chanOf chan 0 hlen with
    ⟨⟨m', waiting', ready'⟩, hok, w', r', hq, hw, hr⟩ | ⟨i, m', hoom, hnone, hi⟩
  · exact Or.inl ⟨m', waiting', ready', w', r', hok, hq, hw, hr⟩
  · rw [Nat.zero_add] at hi
    exact Or.inr ⟨i, m', hoom, hnone, hi⟩

/-- An allocator that never uses a node again. -/
def bump : Alloc := fun i m =>
  if 1000 + i ∈ m.allocated ∨ 2 ^ 64 ≤ 1000 + i then none else some (1000 + i, m.node)

theorem sound_bump : Sound bump := by
  intro i m node words h
  rw [bump] at h
  split at h
  · cases h
  · rename_i hno
    rw [Option.some.injEq, Prod.mk.injEq] at h
    obtain ⟨rfl, rfl⟩ := h
    exact ⟨by omega, fun hin => hno (Or.inl hin), fun b _ => rfl⟩

/-- The processes 1, 2 and 3 wait. -/
def threeWait : Mem where
  node a :=
    if a = 16 then ⟨1, 40, 0⟩
    else if a = 40 then ⟨2, 64, 16⟩
    else if a = 64 then ⟨3, 0, 40⟩
    else ⟨0, 0, 0⟩
  allocated := {16, 40, 64}
  doubleFree := false

theorem queues_threeWait : Queues threeWait ⟨3, 16, 64⟩ dequeueConstruct [16, 40, 64] [] where
  waiting := ⟨⟨⟨rfl, by decide, rfl, by decide, rfl, by decide, rfl⟩,
    rfl, by decide, rfl, by decide, rfl, by decide, rfl⟩, rfl⟩
  ready := ⟨⟨rfl, rfl⟩, rfl⟩
  disjoint x _ := List.not_mem_nil
  used x hx := by
    simp only [List.mem_cons, List.not_mem_nil, or_false] at hx
    simp only [threeWait, Finset.mem_insert, Finset.mem_singleton]
    exact hx
  range x hx := by
    simp only [threeWait, Finset.mem_insert, Finset.mem_singleton] at hx
    omega

/-- The processes with an odd number sleep on the channel: the first and the last of the
queue. -/
theorem schedWakeup_partition_threeWait :
    ∃ m' waiting' ready' w' r',
      schedWakeup (· % 2) bump threeWait ⟨3, 16, 64⟩ dequeueConstruct 1 = .ok (m', waiting', ready') ∧
        Queues m' waiting' ready' w' r' ∧ w'.map m'.data = [2] ∧ r'.map m'.data = [1, 3] := by
  have hserved : (schedWakeup (· % 2) bump threeWait ⟨3, 16, 64⟩ dequeueConstruct 1).toOption.isSome =
      true := by decide +kernel
  rcases schedWakeup_partition sound_bump queues_threeWait (· % 2) 1 with hok | ⟨_, _, hoom, _⟩
  · exact hok
  · rw [hoom] at hserved
    cases hserved

end Wakeup
end GuideOS
