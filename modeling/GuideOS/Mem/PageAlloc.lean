import GuideOS.Lib.Chain
import GuideOS.Lib.Dyadic
import GuideOS.Mem.Layout

/-!
# The page allocator

`mem/page_alloc.c`: a binary buddy allocator over physical pages.  Each order
has a bin with a null-terminated list of free blocks, threaded through the first
word of the blocks themselves, and a bitmap with one bit for every pair of
buddies.

The calls run under `pgalloc_lock`, so a call is one step on the state.  The
list pointers are kernel virtual addresses and stay in memory, in the map
`next`; a page index is recovered from a pointer as the source does it.
-/

namespace GuideOS
namespace PageAlloc

open Lib

def maxOrder : Nat := 10

/-- The ways a call does not return.  `loop` is a `while` that never ends, and
`badOrder` an index outside `pgalloc_bins`. -/
inductive Panic
  | freeAlignment
  | buddyNotFound
  | badOrder
  | loop
deriving DecidableEq, Repr

structure FreePageList where
  head : Nat
  size : Nat

structure PageAllocFreeBin where
  list : FreePageList
  bitmap : Nat → BitVec 32

structure State where
  pgallocBins : Nat → PageAllocFreeBin
  maxAddr : Nat
  /-- The word at an address, which is the field `next` of a `struct free_page`
  there. -/
  next : Nat → Nat

namespace State

def bin (s : State) (order : Nat) : PageAllocFreeBin := s.pgallocBins order

def setBin (s : State) (order : Nat) (b : PageAllocFreeBin) : State :=
  { s with pgallocBins := Function.update s.pgallocBins order b }

def setList (s : State) (order head size : Nat) : State :=
  s.setBin order { s.bin order with list := ⟨head, size⟩ }

def toggle (s : State) (order bitIndex : Nat) : State :=
  s.setBin order { s.bin order with bitmap := bitmapToggle (s.bin order).bitmap bitIndex }

def store (s : State) (va v : Nat) : State := { s with next := Function.update s.next va v }

/-- `*pCurrent`, where `pCurrent` points to the head of the bin's list or to the
field `next` of a free page. -/
def link (s : State) (order : Nat) : Option Nat → Nat
  | none => (s.bin order).list.head
  | some pg => s.next pg

def setLink (s : State) (order : Nat) : Option Nat → Nat → State
  | none, v => s.setList order v (s.bin order).list.size
  | some pg, v => s.store pg v

variable (s : State) (o h n va v k : Nat) (b : PageAllocFreeBin)

@[simp] theorem bin_setBin_self : (s.setBin o b).bin o = b := by
  simp [setBin, bin]

theorem bin_setBin_of_ne {o o' : Nat} (ho : o' ≠ o) : (s.setBin o b).bin o' = s.bin o' := by
  simp [setBin, bin, ho]

@[simp] theorem next_setBin : (s.setBin o b).next = s.next := rfl
@[simp] theorem maxAddr_setBin : (s.setBin o b).maxAddr = s.maxAddr := rfl

@[simp] theorem list_setList : ((s.setList o h n).bin o).list = ⟨h, n⟩ := by simp [setList]
@[simp] theorem bitmap_setList : ((s.setList o h n).bin o).bitmap = (s.bin o).bitmap := by
  simp [setList]
@[simp] theorem next_setList : (s.setList o h n).next = s.next := rfl
@[simp] theorem maxAddr_setList : (s.setList o h n).maxAddr = s.maxAddr := rfl

@[simp] theorem list_toggle : ((s.toggle o k).bin o).list = (s.bin o).list := by simp [toggle]
@[simp] theorem bitmap_toggle :
    ((s.toggle o k).bin o).bitmap = bitmapToggle (s.bin o).bitmap k := by simp [toggle]
@[simp] theorem next_toggle : (s.toggle o k).next = s.next := rfl
@[simp] theorem maxAddr_toggle : (s.toggle o k).maxAddr = s.maxAddr := rfl

@[simp] theorem bin_store : (s.store va v).bin o = s.bin o := rfl
@[simp] theorem next_store : (s.store va v).next = Function.update s.next va v := rfl
@[simp] theorem maxAddr_store : (s.store va v).maxAddr = s.maxAddr := rfl

theorem bin_setList_of_ne {o o' : Nat} (ho : o' ≠ o) : (s.setList o h n).bin o' = s.bin o' :=
  bin_setBin_of_ne s _ ho

theorem bin_toggle_of_ne {o o' : Nat} (ho : o' ≠ o) : (s.toggle o k).bin o' = s.bin o' :=
  bin_setBin_of_ne s _ ho

end State

/-- The `while` that looks for the buddy.  A walk over `2 ^ 64` pointers has
repeated one, so exhausting the fuel is the loop that never ends. -/
def findLink (s : State) (order target : Nat) : Nat → Option Nat → Option (Option Nat)
  | 0, _ => none
  | fuel + 1, pCurrent =>
      if s.link order pCurrent ≠ 0 ∧ s.link order pCurrent ≠ target then
        findLink s order target fuel (some (s.link order pCurrent))
      else
        some pCurrent

def walkFuel : Nat := 2 ^ 64

/-- Take the buddy off the list of its order. -/
def unlinkBuddy (s : State) (pgidx order : Nat) : Except Panic State :=
  let buddyVa := pageVa (pgidx ^^^ (1 <<< order))
  match findLink s order buddyVa walkFuel none with
  | none => .error .loop
  | some pCurrent =>
      if s.link order pCurrent = buddyVa then
        let s' := s.setLink order pCurrent (s.next buddyVa)
        .ok (s'.setList order (s'.bin order).list.head ((s'.bin order).list.size - 1))
      else
        .error .buddyNotFound

/-- Put a block at the front of the list of its order. -/
def pushBlock (s : State) (pgidx order : Nat) : State :=
  let pgVa := pageVa pgidx
  let s' := s.store pgVa (s.bin order).list.head
  s'.setList order pgVa ((s'.bin order).list.size + 1)

def hasBuddy (s : State) (pgidx order : Nat) : Bool :=
  if order = maxOrder then false else bitmapTest (s.bin order).bitmap (pgidx >>> (order + 1))

theorem lt_maxOrder_of_hasBuddy {s : State} {pgidx order : Nat} (ho : ¬ maxOrder < order)
    (h : hasBuddy s pgidx order = true) : order < maxOrder := by
  rcases Nat.lt_or_ge order maxOrder with hlt | hge
  · exact hlt
  · rw [hasBuddy, if_pos (by omega)] at h
    exact absurd h Bool.false_ne_true

def sFreeBlock (s : State) (pgidx order : Nat) : Except Panic State :=
  if ho : maxOrder < order then
    .error .badOrder
  else if pgidx &&& ((1 <<< order) - 1) ≠ 0 then
    .error .freeAlignment
  else if hb : hasBuddy s pgidx order = true then
    match unlinkBuddy (s.toggle order (pgidx >>> (order + 1))) pgidx order with
    | .error e => .error e
    | .ok s' => sFreeBlock s' (pgidx &&& not64 ((1 <<< (order + 1)) - 1)) (order + 1)
  else
    .ok (pushBlock (s.toggle order (pgidx >>> (order + 1))) pgidx order)
termination_by maxOrder - order
decreasing_by
  have := lt_maxOrder_of_hasBuddy ho hb
  omega

/-- The first free block of a bin, which is not empty. -/
def popBlock (s : State) (order : Nat) : Nat × State :=
  let pg := (s.bin order).list.head
  let pgidx := pgIndex (kv2p pg)
  let s' := s.setList order (s.next pg) ((s.bin order).list.size - 1)
  (pg, s'.toggle order (pgidx >>> (order + 1)))

/-- The result `0` is the null pointer. -/
def sAllocBlock (s : State) (order : Nat) : Except Panic (Nat × State) :=
  if maxOrder < order then
    .ok (0, s)
  else if (s.bin order).list.size ≠ 0 then
    .ok (popBlock s order)
  else
    match sAllocBlock s (order + 1) with
    | .error e => .error e
    | .ok (largePage, s') =>
        if largePage = 0 then
          .ok (0, s')
        else
          match sFreeBlock s' (pgIndex (kv2p ((largePage + (pgSize <<< order)) % 2 ^ 64)))
            order with
          | .error e => .error e
          | .ok s'' => .ok (largePage, s'')
termination_by maxOrder + 1 - order

/-- The test of the inner `for` of `pgalloc_free_range`. -/
def orderFits (startPgidx endPgidx pgOrder : Nat) : Bool :=
  startPgidx &&& ((1 <<< pgOrder) - 1) = 0 && startPgidx + (1 <<< pgOrder) ≤ endPgidx

/-- The inner `for`, from the given order down to `0`. -/
def pickOrder (startPgidx endPgidx : Nat) : Nat → Option Nat
  | 0 => if orderFits startPgidx endPgidx 0 then some 0 else none
  | pgOrder + 1 =>
      if orderFits startPgidx endPgidx (pgOrder + 1) then some (pgOrder + 1)
      else pickOrder startPgidx endPgidx pgOrder

/-- The `while` of `pgalloc_free_range`.  When no order fits, the body changes
nothing and the loop never ends. -/
def freeRangeLoop (s : State) (startPgidx endPgidx : Nat) : Except Panic State :=
  if startPgidx < endPgidx then
    match pickOrder startPgidx endPgidx maxOrder with
    | none => .error .loop
    | some pgOrder =>
        match sFreeBlock s startPgidx pgOrder with
        | .error e => .error e
        | .ok s' => freeRangeLoop s' (startPgidx + (1 <<< pgOrder)) endPgidx
  else
    .ok s
termination_by endPgidx - startPgidx
decreasing_by
  rw [Nat.one_shiftLeft]
  have := Nat.two_pow_pos pgOrder
  omega

def rangeStart (startVa : Nat) : Nat := pgRoundUp (kv2p startVa) / pgSize

def rangeEnd (endVa : Nat) : Nat := pgRoundDown (kv2p endVa) / pgSize

def pgallocFreeRange (s : State) (startVa endVa : Nat) : Except Panic State :=
  freeRangeLoop s (rangeStart startVa) (rangeEnd endVa)

/-- A negative `order` fails the range test of `s_alloc_block` at once. -/
def pgallocAllocate (s : State) (order : Int) : Except Panic (Nat × State) :=
  if order < 0 then .ok (0, s) else sAllocBlock s order.toNat

def pgallocFree (s : State) (addr order : Nat) : Except Panic State :=
  sFreeBlock s (pgIndex (kv2p addr)) order

/-! ## What the lists hold -/

/-- The page indices on the list of an order, read from memory. -/
def freeList (s : State) (order : Nat) : List Nat :=
  (walk 0 s.next (s.bin order).list.size (s.bin order).list.head).map fun va => pgIndex (kv2p va)

/-- The pages covered by the blocks on the free lists. -/
def freePages (s : State) : Finset Nat :=
  (Finset.range (maxOrder + 1)).biUnion fun o =>
    (freeList s o).toFinset.biUnion fun i => block i o

/-- All lists empty and all bitmaps zero. -/
def cleared (maxAddr : Nat) (next : Nat → Nat) : State where
  pgallocBins := fun _ => ⟨⟨0, 0⟩, fun _ => 0#32⟩
  maxAddr := maxAddr
  next := next

end PageAlloc
end GuideOS
