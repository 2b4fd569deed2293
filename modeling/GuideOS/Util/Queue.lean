import Mathlib.Algebra.Group.Nat.Defs
import Mathlib.Data.Finset.Basic
import Mathlib.Logic.Function.Basic

/-!
# The queue

`util/queue.c`: a doubly linked list of nodes from `kmalloc`, with an iterator that
can delete the element it has just returned.

An address is a number, with `0` for `NULL`; items are addresses too.  A node is
its three words.  The allocator is seen through its contract only: it returns a
node that is not in use, and a node given back to it is no longer ours, so the
words of every other address may change at any time.  `allocated` are the nodes in
use, and `doubleFree` records a `kfree` of anything else.
-/

namespace GuideOS
namespace Queue

structure Node where
  data : Nat
  next : Nat
  prev : Nat
deriving DecidableEq

structure Dequeue where
  size : Nat
  head : Nat
  tail : Nat
deriving DecidableEq

inductive Panic
  /-- `null head size > 0?` -/
  | nullHead
deriving DecidableEq

structure Mem where
  node : Nat → Node
  allocated : Finset Nat
  doubleFree : Bool

namespace Mem

def setData (m : Mem) (a v : Nat) : Mem :=
  { m with node := Function.update m.node a { m.node a with data := v } }

def setNext (m : Mem) (a v : Nat) : Mem :=
  { m with node := Function.update m.node a { m.node a with next := v } }

def setPrev (m : Mem) (a v : Nat) : Mem :=
  { m with node := Function.update m.node a { m.node a with prev := v } }

/-- `kmalloc(sizeof(struct dequeue_node))` returned `a`. -/
def kmalloc (m : Mem) (a : Nat) : Mem := { m with allocated := insert a m.allocated }

def kfree (m : Mem) (a : Nat) : Mem :=
  { m with
    allocated := m.allocated.erase a
    doubleFree := m.doubleFree || decide (a ∉ m.allocated) }

end Mem

/-! ## Operations -/

def dequeueConstruct : Dequeue := { size := 0, head := 0, tail := 0 }

/-- `q->size++` and `--q->size` on `size_t`. -/
def incSize (n : Nat) : Nat := (n + 1) % 2 ^ 64

def decSize (n : Nat) : Nat := (n + (2 ^ 64 - 1)) % 2 ^ 64

/-- `node` is what `kmalloc` returns. -/
def dequeuePushBack (m : Mem) (q : Dequeue) (item node : Nat) : Mem × Dequeue :=
  let m := (((m.kmalloc node).setData node item).setNext node 0)
  if q.size = 0 then
    (m.setPrev node 0, { q with head := node, tail := node, size := incSize q.size })
  else
    ((m.setPrev node q.tail).setNext q.tail node, { q with tail := node, size := incSize q.size })

def dequeuePeekFront (m : Mem) (q : Dequeue) : Nat :=
  if q.size = 0 then 0 else (m.node q.head).data

def dequeuePopFront (m : Mem) (q : Dequeue) : Except Panic (Mem × Dequeue × Nat) :=
  if q.size = 0 then .ok (m, q, 0)
  else
    let node := q.head
    let q := { q with head := (m.node q.head).next, size := decSize q.size }
    if q.size = 0 then .ok (m.kfree node, { q with tail := 0 }, (m.node node).data)
    else if q.head = 0 then .error .nullHead
    else
      let m := m.setPrev q.head 0
      .ok (m.kfree node, q, (m.node node).data)

/-! ## Iterator

The queue of an iterator is the one it is used with, so only `current_node` is
kept. -/

def dequeueIterator (q : Dequeue) : Nat := q.head

/-- The next `current_node` and the item returned. -/
def dequeueIteratorNext (m : Mem) (cur : Nat) : Nat × Nat :=
  if cur ≠ 0 then ((m.node cur).next, (m.node cur).data) else (cur, 0)

def dequeueIteratorHasNext (cur : Nat) : Bool := cur ≠ 0

/-- The part of `dequeue_iterator_delete` that unlinks `target_node`. -/
def unlinkTarget (m : Mem) (q : Dequeue) (target : Nat) : Mem × Dequeue :=
  let (m, q) :=
    if (m.node target).prev ≠ 0 then (m.setNext (m.node target).prev (m.node target).next, q)
    else (m, { q with head := (m.node target).next })
  let (m, q) :=
    if (m.node target).next ≠ 0 then (m.setPrev (m.node target).next (m.node target).prev, q)
    else (m, { q with tail := (m.node target).prev })
  ((m.setNext target 0).setPrev target 0, { q with size := decSize q.size })

def dequeueIteratorDelete (m : Mem) (q : Dequeue) (cur : Nat) : Except Panic (Mem × Dequeue × Nat) :=
  if q.size = 0 then .ok (m, q, cur)
  else if q.size = 1 then
    (dequeuePopFront m q).map fun (m, q, _) => (m, q, cur)
  else
    let target := if cur = 0 then q.tail else (m.node cur).prev
    let (m, q) := if target ≠ 0 then unlinkTarget m q target else (m, q)
    .ok (m, q, if q.size = 0 then 0 else cur)

/-! ## Runs

Any number of queues share the memory.  Each has one iterator, whose traversal ends
when its queue is changed in another way. -/

variable {ι : Type*} [DecidableEq ι]

structure State (ι : Type*) where
  mem : Mem
  queue : ι → Dequeue
  cur : ι → Nat

inductive Op (ι : Type*)
  | pushBack (q : ι) (item node : Nat)
  | popFront (q : ι)
  | peekFront (q : ι)
  | iterator (q : ι)
  | hasNext (q : ι)
  | next (q : ι)
  | delete (q : ι)
  /-- Memory that is not a node in use changes. -/
  | scribble (a : Nat) (v : Node)

/-- The state after an operation and its result. -/
def step (s : State ι) : Op ι → Except Panic (State ι × Nat)
  | .pushBack q item node =>
      let (m, d) := dequeuePushBack s.mem (s.queue q) item node
      .ok ({ s with mem := m, queue := Function.update s.queue q d }, 0)
  | .popFront q =>
      (dequeuePopFront s.mem (s.queue q)).map fun (m, d, data) =>
        ({ s with mem := m, queue := Function.update s.queue q d }, data)
  | .peekFront q => .ok (s, dequeuePeekFront s.mem (s.queue q))
  | .iterator q => .ok ({ s with cur := Function.update s.cur q (dequeueIterator (s.queue q)) }, 0)
  | .hasNext q => .ok (s, if dequeueIteratorHasNext (s.cur q) then 1 else 0)
  | .next q =>
      let (cur, data) := dequeueIteratorNext s.mem (s.cur q)
      .ok ({ s with cur := Function.update s.cur q cur }, data)
  | .delete q =>
      (dequeueIteratorDelete s.mem (s.queue q) (s.cur q)).map fun (m, d, cur) =>
        ({ mem := m, queue := Function.update s.queue q d, cur := Function.update s.cur q cur }, 0)
  | .scribble a v => .ok ({ s with mem.node := Function.update s.mem.node a v }, 0)

/-- All queues fresh from `dequeue_construct`, over any memory. -/
def start (node : Nat → Node) (cur : ι → Nat) : State ι where
  mem := { node := node, allocated := ∅, doubleFree := false }
  queue _ := dequeueConstruct
  cur := cur

end Queue
end GuideOS
