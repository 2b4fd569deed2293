import GuideOS.Lib.Bytes
import GuideOS.Mem.Layout

/-!
# The kernel heap

`mem/kmalloc.c`: a free list of blocks sorted by size, with each block's
`metadata_t` stored in front of it, in the same bytes the allocator hands out.
Headers are unaligned and memory is bytes, so a write of a header changes the
eight bytes it covers and nothing is said of the rest.

`size_list` and the pointers are 64-bit addresses with `0` for null.  The calls
run under `kmalloc_lock`, so a call is one step on the heap.  A list walk that
does not end within `2 ^ 64` steps never ends; such a walk is the result `none`.
-/

namespace GuideOS
namespace Kmalloc

open Lib

def totalMetadataSize : Nat := 16

def minBlockSize : Nat := totalMetadataSize + 8

structure Heap where
  mem : Bytes
  sizeList : Nat

namespace Heap

/-- `((metadata_t *) a)->next` -/
def next (h : Heap) (a : Nat) : Nat := load64 h.mem a

/-- `((metadata_t *) a)->size` -/
def size (h : Heap) (a : Nat) : Nat := load64 h.mem (a + 8)

def setNext (h : Heap) (a v : Nat) : Heap := { h with mem := store64 h.mem a v }

def setSize (h : Heap) (a v : Nat) : Heap := { h with mem := store64 h.mem (a + 8) v }

/-- Take a block out of the list.  `parent` is the block before it, or null when
it is the first. -/
def unlink (h : Heap) (block parent : Nat) : Heap :=
  if parent = 0 then { h with sizeList := h.next block }
  else h.setNext parent (h.next block)

end Heap

def mergeWithFront (h : Heap) (front frontParent emptySize : Nat) : Heap × Nat :=
  let h := h.unlink front frontParent
  (h.setSize front (h.size front + emptySize), front)

def mergeWithBack (h : Heap) (back backParent original : Nat) : Heap × Nat :=
  let h := h.unlink back backParent
  (h.setSize original (h.size original + (h.size back + totalMetadataSize)), original)

def walkFuel : Nat := 2 ^ 64

/-- The first `while` of `add_block`. -/
def mergeLoop (block endAddr : Nat) : Nat → Heap → Nat → Nat → Nat → Option (Heap × Nat)
  | 0, _, _, _, _ => none
  | fuel + 1, h, currentBlock, parentBlock, metaBlock =>
      if currentBlock = 0 then
        some (h, metaBlock)
      else if (currentBlock + h.size currentBlock + totalMetadataSize) % 2 ^ 64 = block then
        let r := mergeWithFront h currentBlock parentBlock (h.size metaBlock + totalMetadataSize)
        mergeLoop block endAddr fuel r.1 (r.1.next currentBlock) parentBlock r.2
      else if endAddr = currentBlock then
        let r := mergeWithBack h currentBlock parentBlock metaBlock
        mergeLoop block endAddr fuel r.1 (r.1.next currentBlock) parentBlock r.2
      else
        mergeLoop block endAddr fuel h (h.next currentBlock) currentBlock metaBlock

/-- `metaBlock->next = loopBlock->next; loopBlock->next = metaBlock` -/
def Heap.linkAfter (h : Heap) (metaBlock loopBlock : Nat) : Heap :=
  (h.setNext metaBlock (h.next loopBlock)).setNext loopBlock metaBlock

/-- The second `while` of `add_block`, with what follows it. -/
def insertLoop (metaBlock : Nat) : Nat → Heap → Nat → Option Heap
  | 0, _, _ => none
  | fuel + 1, h, loopBlock =>
      if loopBlock ≠ 0 ∧ h.next loopBlock ≠ 0 then
        if h.size (h.next loopBlock) ≥ h.size metaBlock then
          some (h.linkAfter metaBlock loopBlock)
        else
          insertLoop metaBlock fuel h (h.next loopBlock)
      else if loopBlock ≠ 0 then
        some (h.linkAfter metaBlock loopBlock)
      else
        some h

/-- Put a block in its place in the list. -/
def insertBlock (h : Heap) (metaBlock : Nat) : Option (Heap × Nat) :=
  if h.sizeList ≠ 0 ∧ h.size h.sizeList < h.size metaBlock then
    (insertLoop metaBlock walkFuel h h.sizeList).map fun h => (h, metaBlock)
  else
    some ({ h.setNext metaBlock h.sizeList with sizeList := metaBlock }, metaBlock)

def addBlock (h : Heap) (block rawSize : Nat) : Option (Heap × Nat) :=
  if rawSize < minBlockSize then
    some (h, 0)
  else
    let h := h.setSize block (rawSize - totalMetadataSize)
    let endAddr := (block + totalMetadataSize + h.size block) % 2 ^ 64
    (mergeLoop block endAddr walkFuel h h.sizeList 0 block).bind fun r => insertBlock r.1 r.2

def removeBlock (h : Heap) (block parent requestSize : Nat) : Option (Heap × Nat) :=
  let h := h.unlink block parent
  if h.size block = requestSize then
    some (h, block + totalMetadataSize)
  else
    let oldBlockSize := h.size block - (requestSize + totalMetadataSize)
    (addBlock h block (oldBlockSize + totalMetadataSize)).map fun r =>
      let newBlock := block + totalMetadataSize + oldBlockSize
      (r.1.setSize newBlock requestSize, newBlock + totalMetadataSize)

/-- The `while` of `find_fit_block`. -/
def findFitLoop (requestSize : Nat) : Nat → Heap → Nat → Nat → Option (Heap × Nat)
  | 0, _, _, _ => none
  | fuel + 1, h, currentBlock, parent =>
      if currentBlock = 0 then
        some (h, 0)
      else if h.size currentBlock = requestSize ∨
          h.size currentBlock ≥ requestSize + minBlockSize then
        removeBlock h currentBlock parent requestSize
      else
        findFitLoop requestSize fuel h (h.next currentBlock) currentBlock

def findFitBlock (h : Heap) (requestSize : Nat) : Option (Heap × Nat) :=
  findFitLoop requestSize walkFuel h h.sizeList 0

def kmallocInit (mem : Bytes) : Heap := { mem := mem, sizeList := 0 }

/-- The ways `kmalloc` and `kfree` do not return. -/
inductive Panic
  | oom
  | loop
deriving DecidableEq, Repr

/-- What `kmalloc` returns, and whether it took the page from `pgalloc`. -/
structure Result where
  heap : Heap
  ptr : Nat
  grew : Bool

def orLoop {α : Type} : Option α → Except Panic α
  | none => .error .loop
  | some a => .ok a

/-- `newRam` is what `pgalloc_allocate(0)` returns if it is called. -/
def kmalloc (h : Heap) (size newRam : Nat) : Except Panic Result :=
  if size = 0 then
    .ok ⟨h, 0, false⟩
  else if size > pgSize - totalMetadataSize then
    .ok ⟨h, 0, false⟩
  else do
    let r ← orLoop (findFitBlock h size)
    if r.2 ≠ 0 then
      return ⟨r.1, r.2, false⟩
    else if newRam ≠ 0 then
      let r ← orLoop (addBlock r.1 newRam pgSize)
      let r ← orLoop (findFitBlock r.1 size)
      return ⟨r.1, r.2, true⟩
    else
      throw .oom

def kfree (h : Heap) (ptr : Nat) : Except Panic Heap :=
  if ptr = 0 then
    .ok h
  else
    let block := ptr - totalMetadataSize
    orLoop ((addBlock h block (h.size block + totalMetadataSize)).map Prod.fst)

end Kmalloc
end GuideOS
