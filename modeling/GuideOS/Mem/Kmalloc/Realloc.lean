import GuideOS.Mem.Kmalloc.Fit
import GuideOS.Util.Str

/-!
# Reallocation and zeroed blocks

`krealloc` copies to the block that `kmalloc` returns and frees the old one; it does
not look whether there is a new block.  `kcalloc` passes a product to `kmalloc` that
is taken modulo `2 ^ 64`.

Null is an address like any other, and whether a byte can be written there depends on
the page tables: those of `bsp_init.s` map low memory, the kernel's own do not.  The
parameter `mapped` says which addresses are mapped, and an access to any other address
ends in `panic("pgfault")`.
-/

namespace GuideOS
namespace Kmalloc

open Lib Blk Str

attribute [local irreducible] load64 store64

/-- The ways `krealloc` does not return. -/
inductive Fault
  | panic (p : Panic)
  | pgfault
deriving DecidableEq, Repr

/-- All bytes of a range are mapped. -/
def accessible (mapped : Nat → Bool) (a n : Nat) : Bool :=
  (List.range n).all fun k => mapped ((a + k) % 2 ^ 64)

def krealloc (mapped : Nat → Bool) (h : Heap) (ptr size newRam : Nat) : Except Fault Result :=
  if ptr = 0 then
    (kmalloc h size newRam).mapError .panic
  else if size = 0 then
    ((kfree h ptr).map fun h => ⟨h, 0, false⟩).mapError .panic
  else do
    let block := ptr - totalMetadataSize
    let newBlk ← (kmalloc h size newRam).mapError .panic
    let n := min size (newBlk.heap.size block)
    if accessible mapped newBlk.ptr n ∧ accessible mapped ptr n then
      let mem := memcpy newBlk.heap.mem newBlk.ptr ptr n
      let h ← (kfree { newBlk.heap with mem := mem } ptr).mapError .panic
      return ⟨h, newBlk.ptr, newBlk.grew⟩
    else
      throw .pgfault

def kcalloc (h : Heap) (nmemb size newRam : Nat) : Except Panic Result := do
  let memory ← kmalloc h (nmemb * size % 2 ^ 64) newRam
  if memory.ptr ≠ 0 then
    let mem := memset memory.heap.mem memory.ptr 0 (size * nmemb % 2 ^ 64)
    return { memory with heap := { memory.heap with mem := mem } }
  else
    return memory

/-! ## The world after a call -/

/-- The world after `kmalloc` or `kcalloc` returned `r`. -/
def served (w : World) (size newRam : Nat) (r : Result) : World :=
  { heap := r.heap
    live := if r.ptr = 0 then w.live else ⟨r.ptr - totalMetadataSize, size⟩ :: w.live
    pages := if r.grew then newRam :: w.pages else w.pages }

/-- The world after `krealloc` returned `r`: it has passed `ptr` to `kfree`. -/
def reallocated (w : World) (ptr size newRam : Nat) (r : Result) : World :=
  { served w size newRam r with
    live := (served w size newRam r).live.eraseP fun b => b.ptr = ptr }

section

variable {w : World} {l : List Blk} {b c : Blk} {size newRam : Nat} {r : Result}

theorem exec_kmalloc (w : World) (size newRam : Nat) :
    exec w (.kmalloc size newRam) = (kmalloc w.heap size newRam).map (served w size newRam) := rfl

theorem Inv.kmalloc_moved (h : Inv w l) (hc : Legal w (.kmalloc size newRam))
    (hrun : kmalloc w.heap size newRam = .ok r) :
    ∃ l', Moved w l w.live 0 (served w size newRam r) l' := by
  rcases kmalloc_ok h hc with ⟨_, herr⟩ | ⟨w', l', hok, hmoved⟩
  · rw [exec_kmalloc, hrun] at herr
    cases herr
  · rw [exec_kmalloc, hrun, Except.map, Except.ok.injEq] at hok
    rw [hok]
    exact ⟨l', hmoved⟩

theorem served_live (hr : r.ptr ≠ 0) :
    (served w size newRam r).live = ⟨r.ptr - totalMetadataSize, size⟩ :: w.live :=
  if_neg hr

/-- The block `q` that `kmalloc` returned in the world `w`. -/
structure NewBlk (w : World) (size newRam : Nat) (r : Result) (l' : List Blk) (q : Blk) : Prop where
  inv : Inv (served w size newRam r) l'
  live : (served w size newRam r).live = q :: w.live
  apart : ∀ c ∈ l' ++ w.live, q.Apart c
  ptr : q.ptr = r.ptr
  size : q.size = size

theorem Moved.newBlk {l' : List Blk} (h : Moved w l w.live 0 (served w size newRam r) l')
    (hr : r.ptr ≠ 0) : NewBlk w size newRam r l' ⟨r.ptr - totalMetadataSize, size⟩ := by
  have hap := h.inv.apart
  rw [served_live hr] at hap
  refine ⟨h.inv, served_live hr,
    (List.pairwise_cons.mp ((pairwise_apart_perm List.perm_middle).mp hap)).1, ?_, rfl⟩
  have hmem : ⟨r.ptr - totalMetadataSize, size⟩ ∈ (served w size newRam r).live := by
    rw [served_live hr]
    exact List.mem_cons_self
  have hne := (h.inv.valid (List.mem_append_right _ hmem)).ne_zero
  simp only [Blk.ptr] at hne ⊢
  omega

theorem NewBlk.mem {l' : List Blk} {q : Blk} (h : NewBlk w size newRam r l' q) :
    q ∈ (served w size newRam r).live := by
  rw [h.live]
  exact List.mem_cons_self

theorem NewBlk.ne {l' : List Blk} {q : Blk} (h : NewBlk w size newRam r l' q) (hb : b ∈ w.live) :
    q ≠ b := by
  rintro rfl
  exact (h.apart q (List.mem_append_right _ hb)).not_has q.has_addr q.has_addr

theorem Blk.stop_ptr (b : Blk) : b.stop = b.ptr + b.size := rfl

theorem Blk.ptr_eq (b : Blk) : b.ptr = b.addr + 16 := rfl

theorem Blk.has_ptr {k : Nat} (hk : k < b.size) : b.Has (b.ptr + k) := by
  have := b.stop_ptr
  have := b.ptr_eq
  exact ⟨by omega, by omega⟩

/-- Writes to the usable part of the new block keep the other blocks. -/
theorem NewBlk.bytes {l' : List Blk} {q : Blk} (h : NewBlk w size newRam r l' q) {mem : Bytes}
    (hmem : ∀ x, ¬ (q.ptr ≤ x ∧ x < q.stop) → mem x = r.heap.mem x) (hc : c ∈ l' ++ w.live) {x : Nat}
    (hx : c.Has x) : mem x = r.heap.mem x := by
  have hptr := q.ptr_eq
  refine hmem x fun hin => (h.apart c hc).not_has ⟨?_, hin.2⟩ hx
  omega

/-- Writes to the usable part of the new block keep the headers. -/
theorem NewBlk.headers {l' : List Blk} {q : Blk} (h : NewBlk w size newRam r l' q) {mem : Bytes}
    (hmem : ∀ x, ¬ (q.ptr ≤ x ∧ x < q.stop) → mem x = r.heap.mem x) :
    ∀ c ∈ l' ++ (served w size newRam r).live, ∀ x, c.addr ≤ x → x < c.addr + 16 →
      mem x = r.heap.mem x := by
  intro c hc x hx hx'
  rw [h.live, List.perm_middle.mem_iff, List.mem_cons] at hc
  rcases hc with rfl | hc
  · have hptr := c.ptr_eq
    exact hmem x (by omega)
  · have hstop := c.stop_eq
    exact h.bytes hmem hc ⟨hx, by omega⟩

/-- A live block has a size that `kmalloc` accepts. -/
theorem Run.live_size {h : History} (hrun : Run h w) :
    ∀ b ∈ w.live, 0 < b.size ∧ b.size ≤ pgSize - totalMetadataSize := by
  induction hrun with
  | start mem => exact fun b hb => absurd hb List.not_mem_nil
  | @call h w w' c hrun hc hexec ih =>
      obtain ⟨l, hinv⟩ := hrun.inv
      cases c with
      | kmalloc size newRam =>
          rw [exec_kmalloc] at hexec
          obtain ⟨r, hr, rfl⟩ := exists_ok_of_map hexec
          by_cases hptr : r.ptr = 0
          · rw [served, if_pos hptr]
            exact ih
          · rw [served_live hptr]
            exact List.forall_mem_cons.mpr ⟨((hinv.ptr_iff_granted hc).mp ⟨r, hr, hptr⟩).1, ih⟩
      | kfree ptr =>
          rw [exec] at hexec
          obtain ⟨h', _, rfl⟩ := exists_ok_of_map hexec
          exact fun b hb => ih b (List.mem_of_mem_eraseP hb)
      | clientStore a v =>
          rw [exec, Except.ok.injEq] at hexec
          subst hexec
          exact ih

/-- A live block is freed after memory was written outside the headers. -/
theorem Inv.kfree_setMem (h : Inv w l) (hb : b ∈ w.live) {mem : Bytes}
    (hsame : ∀ c ∈ l ++ w.live, ∀ x, c.addr ≤ x → x < c.addr + 16 → mem x = w.heap.mem x) :
    ∃ h' l', kfree { w.heap with mem := mem } b.ptr = .ok h' ∧
      Inv { w with heap := h', live := w.live.eraseP fun c => c.ptr = b.ptr } l' ∧
      (∀ c ∈ w.live.eraseP fun c => c.ptr = b.ptr, c.ptr ≠ b.ptr) ∧
      ∀ c ∈ w.live, c ≠ b → c ∈ (w.live.eraseP fun c => c.ptr = b.ptr) ∧
        ∀ x, c.Has x → h'.mem x = mem x := by
  obtain ⟨u, v, h', hlive, herase, hrun, hmoved⟩ := (h.setMem hsame).kfree_live hb
  have hlive' : w.live = u ++ b :: v := hlive
  have herase' : (w.live.eraseP fun c => c.ptr = b.ptr) = u ++ v := herase
  have hperm : w.live.Perm (b :: (u ++ v)) := hlive' ▸ List.perm_middle
  have hap := List.pairwise_cons.mp ((pairwise_apart_perm hperm).mp (List.pairwise_append.mp h.apart).2.1)
  rw [herase']
  refine ⟨h', putBack l b, hrun, hmoved.inv, fun c hc e => ?_, fun c hc hne => ?_⟩
  · have := (hap.1 c hc).headers
    have : c.addr = b.addr := Nat.add_right_cancel e
    omega
  · have hc' := (List.mem_cons.mp (hperm.mem_iff.mp hc)).resolve_left hne
    exact ⟨hc', hmoved.bytes c hc'⟩

end

/-! ## Reallocation -/

/-- A block that is still live, with its bytes. -/
def Unchanged (w w' : World) (c : Blk) : Prop :=
  c ∈ w'.live ∧ ∀ x, c.Has x → w'.heap.mem x = w.heap.mem x

/-- The block `b` was moved to a block of `size` bytes. -/
structure MovedTo (w w' : World) (b : Blk) (size ptr : Nat) : Prop where
  block : ∃ q ∈ w'.live, q.ptr = ptr ∧ q.size = size ∧ Exclusive w' q ∧
    ∀ k < min b.size size, w'.heap.mem (q.ptr + k) = w.heap.mem (b.ptr + k)
  freed : ∀ c ∈ w'.live, c.ptr ≠ b.ptr
  others : ∀ c ∈ w.live, c ≠ b → Unchanged w w' c

/-- Nothing but headers was written, and no block was freed. -/
structure LeftAlone (w w' : World) (b : Blk) : Prop where
  block : Unchanged w w' b
  outside : ∀ x, ¬ InHeaders (freeList w.heap ++ freeList w'.heap ++ w.live) x →
    w'.heap.mem x = w.heap.mem x
  others : ∀ c ∈ w.live, c ≠ b → Unchanged w w' c

/-- A call of `krealloc` moves the block, or fails and leaves everything as it was, or
panics because `kmalloc` is given no page. -/
structure Atomic (mapped : Nat → Bool) (w : World) (b : Blk) (size newRam : Nat) : Prop where
  moved : ∀ r, krealloc mapped w.heap b.ptr size newRam = .ok r → r.ptr ≠ 0 →
    MovedTo w (reallocated w b.ptr size newRam r) b size r.ptr
  kept : ∀ r, krealloc mapped w.heap b.ptr size newRam = .ok r → r.ptr = 0 →
    LeftAlone w (reallocated w b.ptr size newRam r) b
  panics : ∀ e, krealloc mapped w.heap b.ptr size newRam = .error e → e = .panic .oom

/-- The pages of the heap, and the one it is given, are mapped. -/
def HeapMapped (mapped : Nat → Bool) (w : World) (newRam : Nat) : Prop :=
  ∀ p, p ∈ w.pages ∨ (p = newRam ∧ newRam ≠ 0) → ∀ x, p ≤ x → x < p + pgSize → mapped x = true

section

variable {mapped : Nat → Bool} {w : World} {l : List Blk} {b : Blk} {size newRam : Nat}
  {r : Result}

theorem accessible_of {a n : Nat} (hn : a + n ≤ 2 ^ 64)
    (h : ∀ x, a ≤ x → x < a + n → mapped x = true) : accessible mapped a n = true := by
  refine List.all_eq_true.mpr fun k hk => ?_
  have hlt := List.mem_range.mp hk
  rw [Nat.mod_eq_of_lt (by omega)]
  exact h (a + k) (by omega) (by omega)

theorem HeapMapped.has (h : HeapMapped mapped w newRam)
    (hinv : Inv (served w size newRam r) l) (hb : b ∈ (served w size newRam r).live) {x : Nat}
    (hx : b.Has x) : mapped x = true := by
  obtain ⟨p, hp, hle, hlt⟩ := hinv.inside x ⟨b, List.mem_append_right _ hb, hx⟩
  have hne := (hinv.page p hp).1
  refine h p ?_ x hle hlt
  have hp' : p ∈ if r.grew then newRam :: w.pages else w.pages := hp
  split at hp'
  · exact (List.mem_cons.mp hp').symm.imp_right fun e => ⟨e, e ▸ hne⟩
  · exact Or.inl hp'

/-- The first bytes of a live block can be accessed. -/
theorem HeapMapped.accessible (h : HeapMapped mapped w newRam)
    (hinv : Inv (served w size newRam r) l) (hb : b ∈ (served w size newRam r).live) {n : Nat}
    (hn : n ≤ b.size) : accessible mapped b.ptr n = true := by
  have hle := (hinv.valid (List.mem_append_right _ hb)).le
  have hstop : b.stop = b.ptr + b.size := rfl
  refine accessible_of (by omega) fun x hx hx' => h.has hinv hb ⟨?_, by omega⟩
  exact Nat.le_trans (Nat.le_add_right _ _) hx

theorem krealloc_eq {h : Heap} {ptr : Nat} (hptr : ptr ≠ 0) (hsize : size ≠ 0)
    (hrun : kmalloc h size newRam = .ok r) {n : Nat}
    (hn : n = min size (r.heap.size (ptr - totalMetadataSize))) :
    krealloc mapped h ptr size newRam =
      if accessible mapped r.ptr n ∧ accessible mapped ptr n then
        ((kfree { r.heap with mem := memcpy r.heap.mem r.ptr ptr n } ptr).map fun h =>
          ⟨h, r.ptr, r.grew⟩).mapError .panic
      else .error .pgfault := by
  rw [krealloc, if_neg hptr, if_neg hsize, hrun]
  dsimp only [Except.mapError, bind, Except.bind]
  rw [← hn]
  split
  · cases kfree { r.heap with mem := memcpy r.heap.mem r.ptr ptr n } ptr <;> rfl
  · rfl

/-- What the copy of `krealloc` does to memory. -/
theorem Inv.memcpy_apply {q : Blk} (h : Inv w l) (hq : q ∈ w.live) (hb : b ∈ w.live) {n : Nat}
    (hnq : n ≤ q.size) (hnb : n ≤ b.size) (m : Bytes) (x : Nat) :
    memcpy m q.ptr b.ptr n x =
      if q.ptr ≤ x ∧ x < q.ptr + n then m (b.ptr + (x - q.ptr)) else m x := by
  have hqle := (h.valid (List.mem_append_right _ hq)).le
  have hble := (h.valid (List.mem_append_right _ hb)).le
  rw [Blk.stop_ptr] at hqle hble
  exact memmove_apply (by omega) (by omega)

/-- The call when `kmalloc` returns a block. -/
theorem Inv.krealloc_moved (h : Inv w l) (hb : b ∈ w.live) (hc : Legal w (.kmalloc size newRam))
    (hmap : HeapMapped mapped w newRam) (hsize : size ≠ 0)
    (hrun : kmalloc w.heap size newRam = .ok r) (hr : r.ptr ≠ 0) :
    ∃ r', krealloc mapped w.heap b.ptr size newRam = .ok r' ∧ r'.ptr ≠ 0 ∧
      MovedTo w (reallocated w b.ptr size newRam r') b size r'.ptr := by
  obtain ⟨l', hmoved⟩ := h.kmalloc_moved hc hrun
  obtain ⟨q, hq⟩ : ∃ q, NewBlk w size newRam r l' q := ⟨_, hmoved.newBlk hr⟩
  have hbmem : b ∈ (served w size newRam r).live := hmoved.live b hb
  have hnq : min size b.size ≤ q.size := by
    rw [hq.size]
    exact Nat.min_le_left _ _
  have hnb : min size b.size ≤ b.size := Nat.min_le_right _ _
  have hcopy := hq.inv.memcpy_apply hq.mem hbmem hnq hnb r.heap.mem
  have hout : ∀ x, ¬ (q.ptr ≤ x ∧ x < q.stop) →
      memcpy r.heap.mem q.ptr b.ptr (min size b.size) x = r.heap.mem x := by
    intro x hx
    rw [Blk.stop_ptr] at hx
    rw [hcopy, if_neg (by omega)]
  obtain ⟨h', l'', hfree, hinv, hfreed, hothers⟩ := hq.inv.kfree_setMem hbmem (hq.headers hout)
  obtain ⟨hqlive, hqbytes⟩ := hothers q hq.mem (hq.ne hb)
  refine ⟨⟨h', q.ptr, r.grew⟩, ?_, q.ptr_ne_zero, ?_⟩
  · have hn : min size b.size = min size (r.heap.size (b.ptr - totalMetadataSize)) := by
      rw [b.ptr_sub]
      exact congrArg _ (hq.inv.header b hbmem).symm
    have hrun' : kfree { r.heap with mem := memcpy r.heap.mem q.ptr b.ptr (min size b.size) } b.ptr =
        .ok h' := hfree
    rw [krealloc_eq b.ptr_ne_zero hsize hrun hn, ← hq.ptr,
      if_pos ⟨hmap.accessible hq.inv hq.mem hnq, hmap.accessible hq.inv hbmem hnb⟩, hrun']
    rfl
  · rw [reallocated, served, hq.ptr]
    refine ⟨⟨q, hqlive, hq.ptr, hq.size, hinv.exclusive hqlive, fun k hk => ?_⟩, hfreed,
      fun c hcl hne => ?_⟩
    · show h'.mem (q.ptr + k) = w.heap.mem (b.ptr + k)
      have hsize := hq.size
      rw [hqbytes _ (Blk.has_ptr (by omega)), hcopy, if_pos (by omega), Nat.add_sub_cancel_left]
      exact hmoved.bytes b hb _ (Blk.has_ptr (by omega))
    · obtain ⟨hmem, hbytes⟩ := hothers c (hmoved.live c hcl) hne
      refine ⟨hmem, fun x hx => ?_⟩
      show h'.mem x = w.heap.mem x
      rw [hbytes x hx, hq.bytes hout (List.mem_append_right _ hcl) hx]
      exact hmoved.bytes c hcl x hx

/-- The blocks of the heap are not in the page at null. -/
theorem Inv.pgSize_le (h : Inv w l) (hb : b ∈ l ++ w.live) : pgSize ≤ b.addr := by
  obtain ⟨p, hp, hle, _⟩ := h.inside b.addr ⟨b, hb, b.has_addr⟩
  obtain ⟨hne, hdvd, _⟩ := h.page p hp
  exact Nat.le_trans (Nat.le_of_dvd (Nat.pos_of_ne_zero hne) hdvd) hle

/-- The call when `kmalloc` returns null: the block is copied to null and freed. -/
theorem Inv.krealloc_null (h : Inv w l) (hb : b ∈ w.live) (hle : b.size ≤ pgSize)
    (hc : Legal w (.kmalloc size newRam)) (hsize : size ≠ 0)
    (hrun : kmalloc w.heap size newRam = .ok r) (hr : r.ptr = 0) :
    ¬ Atomic mapped w b size newRam := by
  obtain ⟨l', hmoved⟩ := h.kmalloc_moved hc hrun
  have hbmem : b ∈ (served w size newRam r).live := hmoved.live b hb
  have hn : min size b.size = min size (r.heap.size (b.ptr - totalMetadataSize)) := by
    rw [b.ptr_sub]
    exact congrArg _ (hmoved.inv.header b hbmem).symm
  have heq := @krealloc_eq mapped _ _ _ _ _ b.ptr_ne_zero hsize hrun _ hn
  intro hatomic
  split at heq
  · -- The pages of the heap are not at null, so the copy leaves the heap intact.
    have hsame : ∀ c ∈ l' ++ (served w size newRam r).live, ∀ x, c.addr ≤ x → x < c.addr + 16 →
        memcpy r.heap.mem r.ptr b.ptr (min size b.size) x = r.heap.mem x := by
      intro c hcl x hx _
      have hpage := hmoved.inv.pgSize_le hcl
      have hvalid := (hmoved.inv.valid (List.mem_append_right _ hbmem)).le
      have hmin : min size b.size ≤ b.size := Nat.min_le_right _ _
      rw [Blk.stop_ptr] at hvalid
      exact (memmove_apply (by omega) (by omega)).trans (if_neg (by omega))
    obtain ⟨h', l'', hfree, hinv, hfreed, hothers⟩ := hmoved.inv.kfree_setMem hbmem hsame
    have hfree' : kfree { r.heap with mem := memcpy r.heap.mem r.ptr b.ptr (min size b.size) } b.ptr =
        .ok h' := hfree
    rw [hfree'] at heq
    have hkept := hatomic.kept _ heq hr
    exact hfreed b hkept.block.1 rfl
  · exact absurd (hatomic.panics _ heq) (by decide)

end

/-- A request of an accepted size that no free block serves, when there is no page. -/
def Starved (w : World) (size newRam : Nat) : Prop :=
  size ≤ pgSize - totalMetadataSize ∧ (∀ b ∈ freeList w.heap, ¬ Fits size b) ∧ newRam = 0

/-- `krealloc` of a live pointer is atomic exactly if `kmalloc` serves the size or panics. -/
theorem run_krealloc_atomic_iff {h : History} {w : World} (hrun : Run h w) {b : Blk}
    (hb : b ∈ w.live) {size newRam : Nat} (hsize : 1 ≤ size)
    (hc : newRam = 0 ∨ FreshPage w.pages newRam) {mapped : Nat → Bool}
    (hmap : HeapMapped mapped w newRam) :
    Atomic mapped w b size newRam ↔ Granted w size newRam ∨ Starved w size newRam := by
  obtain ⟨l, hinv⟩ := hrun.inv
  have hlegal : Legal w (.kmalloc size newRam) := hc
  have hcases := kmalloc_cases hinv hlegal
  have hne : size ≠ 0 := by omega
  have hgrant := hinv.ptr_iff_granted hlegal
  cases hk : kmalloc w.heap size newRam with
  | error e =>
      -- The only panic is that of a request without a page.
      rw [hk] at hcases
      cases hcases with
      | oom _ hle hnone hram =>
          have heq : krealloc mapped w.heap b.ptr size newRam = .error (.panic .oom) := by
            rw [krealloc, if_neg b.ptr_ne_zero, if_neg hne, hk]
            rfl
          refine iff_of_true ⟨?_, ?_, ?_⟩ (Or.inr ⟨hle, ?_, hram⟩)
          · rw [heq]
            exact fun r hr => by cases hr
          · rw [heq]
            exact fun r hr => by cases hr
          · rw [heq]
            exact fun e he => (Except.error.inj he).symm
          · rw [hinv.freeList_eq]
            exact allocBlk_eq_none_iff.mp hnone
  | ok r =>
      by_cases hr : r.ptr = 0
      · have hle : b.size ≤ pgSize := (hrun.live_size b hb).2.trans (Nat.sub_le _ _)
        refine iff_of_false (hinv.krealloc_null hb hle hc hne hk hr) ?_
        rintro (hg | ⟨hsz, hno, hram⟩)
        · obtain ⟨r', hr', hptr⟩ := hgrant.mpr hg
          rw [hk, Except.ok.injEq] at hr'
          exact hptr (hr' ▸ hr)
        · rw [hk] at hcases
          rw [hinv.freeList_eq] at hno
          cases hcases with
          | refused hbad => omega
          | fit _ _ halloc _ _ =>
              obtain ⟨c, hcl, hfit⟩ := exists_fits_of_allocBlk halloc
              exact hno c hcl hfit
          | grown _ _ _ hp _ _ _ => exact hp.ne_zero hram
          | wasted _ _ _ hp _ _ => exact hp.ne_zero hram
      · obtain ⟨r', hr', hptr, hmoved⟩ := hinv.krealloc_moved hb hc hmap hne hk hr
        refine iff_of_true ⟨?_, ?_, ?_⟩ (Or.inl (hgrant.mp ⟨r, hk, hr⟩))
        · intro r'' hr'' _
          rw [hr', Except.ok.injEq] at hr''
          exact hr'' ▸ hmoved
        · intro r'' hr'' hnull
          rw [hr', Except.ok.injEq] at hr''
          exact absurd hnull (hr'' ▸ hptr)
        · intro e he
          rw [hr'] at he
          cases he

/-- A block of eight bytes is live, and its first byte is set. -/
def byteSet : World := after (after zeroed (.kmalloc 8 4096)) (.clientStore 8184 1)

theorem live_eight : (after zeroed (.kmalloc 8 4096)).live = [⟨8168, 8⟩] := by decide +kernel

theorem live_byteSet : byteSet.live = [⟨8168, 8⟩] := live_eight

theorem run_byteSet : Run [(after zeroed (.kmalloc 8 4096), .clientStore 8184 1),
    (zeroed, .kmalloc 8 4096)] byteSet := by
  refine (run_zeroed (by decide +kernel)).after (Or.inl ⟨⟨8168, 8⟩, ?_, by decide, by decide⟩) rfl
  rw [live_eight]
  exact List.mem_cons_self

theorem heapMapped_byteSet {mapped : Nat → Bool}
    (h : ∀ x, 4096 ≤ x → x < 8192 → mapped x = true) : HeapMapped mapped byteSet 0 := by
  have hpages : byteSet.pages = [4096] := by decide +kernel
  rintro p (hp | ⟨_, hne⟩) x hx hx'
  · rw [hpages, List.mem_singleton] at hp
    rw [hp] at hx hx'
    exact h x hx hx'
  · exact absurd rfl hne

theorem run_krealloc_atomic_byteSet :
    HeapMapped (fun x => 4096 ≤ x) byteSet 0 ∧
      Atomic (fun x => 4096 ≤ x) byteSet ⟨8168, 8⟩ 100 0 := by
  have hmap : HeapMapped (fun x => 4096 ≤ x) byteSet 0 :=
    heapMapped_byteSet fun x hx _ => by simpa using hx
  have hfree : freeList byteSet.heap = [⟨4096, 4056⟩] := by decide +kernel
  refine ⟨hmap, (run_krealloc_atomic_iff run_byteSet ?_ (by decide) (Or.inl rfl) hmap).mpr ?_⟩
  · rw [live_byteSet]
    exact List.mem_cons_self
  · refine Or.inl ⟨by decide, Or.inl ⟨⟨4096, 4056⟩, ?_, by decide⟩⟩
    rw [hfree]
    exact List.mem_cons_self

/-- A request that `kmalloc` refuses.  With low memory mapped, `krealloc` overwrites the
byte at null and returns null with the block freed; without, it faults. -/
theorem krealloc_refused_not_atomic :
    (∃ h, Run h byteSet) ∧ ⟨8168, 8⟩ ∈ byteSet.live ∧
      (∃ r, krealloc (fun _ => true) byteSet.heap 8184 4081 0 = .ok r ∧ r.ptr = 0 ∧
        (reallocated byteSet 8184 4081 0 r).live = [] ∧
        byteSet.heap.mem 0 = 0 ∧ r.heap.mem 0 = 1) ∧
      krealloc (fun x => 4096 ≤ x) byteSet.heap 8184 4081 0 = .error .pgfault ∧
      ¬ Atomic (fun _ => true) byteSet ⟨8168, 8⟩ 4081 0 ∧
      ¬ Atomic (fun x => 4096 ≤ x) byteSet ⟨8168, 8⟩ 4081 0 := by
  have hfault : krealloc (fun x => 4096 ≤ x) byteSet.heap 8184 4081 0 = .error .pgfault := by
    have hrun : kmalloc byteSet.heap 4081 0 = .ok ⟨byteSet.heap, 0, false⟩ := by
      rw [kmalloc, if_neg (by decide), if_pos (by decide)]
    have hn : 8 = min 4081 (byteSet.heap.size (8184 - totalMetadataSize)) := by decide +kernel
    rw [krealloc_eq (by decide) (by decide) hrun hn, if_neg (by decide)]
  have hnull : (krealloc (fun _ => true) byteSet.heap 8184 4081 0).toOption.map
      (fun r => (r.ptr, byteSet.heap.mem 0, r.heap.mem 0)) = some (0, 0, 1) := by decide +kernel
  obtain ⟨r, hr, hres⟩ := exists_ok_of_toOption hnull
  obtain ⟨hptr, hmem⟩ := Prod.mk.inj hres
  obtain ⟨hbefore, hafter⟩ := Prod.mk.inj hmem
  have hlive : (reallocated byteSet 8184 4081 0 r).live = [] := by
    rw [reallocated, served, if_pos hptr, live_byteSet]
    rfl
  refine ⟨⟨_, run_byteSet⟩, ?_, ⟨r, hr, hptr, hlive, hbefore, hafter⟩, hfault, ?_, ?_⟩
  · rw [live_byteSet]
    exact List.mem_cons_self
  · intro hatomic
    have hkept := (hatomic.kept r hr hptr).block.1
    rw [show Blk.ptr ⟨8168, 8⟩ = 8184 from rfl, hlive] at hkept
    exact absurd hkept List.not_mem_nil
  · intro hatomic
    exact absurd (hatomic.panics _ hfault) (by decide)

/-! ## Zeroed blocks -/

/-- If `kcalloc` returns a block then it holds `nmemb` elements of `size` bytes, all
zero. -/
def HoldsZeroes (w : World) (nmemb size newRam : Nat) : Prop :=
  ∀ r, kcalloc w.heap nmemb size newRam = .ok r → r.ptr ≠ 0 →
    ∃ q ∈ (served w (nmemb * size % 2 ^ 64) newRam r).live, q.ptr = r.ptr ∧
      Exclusive (served w (nmemb * size % 2 ^ 64) newRam r) q ∧ nmemb * size ≤ q.size ∧
      ∀ k < nmemb * size, r.heap.mem (q.ptr + k) = 0

section

variable {w : World} {l : List Blk} {nmemb size newRam : Nat} {r : Result}

theorem kcalloc_eq {h : Heap} (hrun : kmalloc h (nmemb * size % 2 ^ 64) newRam = .ok r)
    (hr : r.ptr ≠ 0) :
    kcalloc h nmemb size newRam = .ok { r with
      heap := { r.heap with mem := memset r.heap.mem r.ptr 0 (nmemb * size % 2 ^ 64) } } := by
  rw [kcalloc, hrun, Nat.mul_comm size nmemb]
  dsimp only [bind, Except.bind]
  rw [if_pos hr]
  rfl

theorem kcalloc_null {h : Heap} (hrun : kmalloc h (nmemb * size % 2 ^ 64) newRam = .ok r)
    (hr : r.ptr = 0) : kcalloc h nmemb size newRam = .ok r := by
  rw [kcalloc, hrun]
  dsimp only [bind, Except.bind]
  rw [if_neg (not_not.mpr hr)]
  rfl

/-- A block that `kcalloc` returns is one that `kmalloc` returned. -/
theorem kmalloc_of_kcalloc {h : Heap} (hrun : kcalloc h nmemb size newRam = .ok r)
    (hr : r.ptr ≠ 0) : ∃ r', kmalloc h (nmemb * size % 2 ^ 64) newRam = .ok r' ∧ r'.ptr ≠ 0 := by
  cases hk : kmalloc h (nmemb * size % 2 ^ 64) newRam with
  | error e =>
      rw [kcalloc, hk] at hrun
      cases hrun
  | ok r' =>
      refine ⟨r', rfl, fun hnull => hr ?_⟩
      rw [kcalloc_null hk hnull, Except.ok.injEq] at hrun
      rw [← hrun]
      exact hnull

/-- The block that `kcalloc` returns has the size of the wrapped product, and is zero. -/
theorem Inv.kcalloc_block (h : Inv w l) {n : Nat} (hn : n = nmemb * size % 2 ^ 64)
    (hc : Legal w (.kmalloc n newRam)) (hgrant : Granted w n newRam) :
    ∃ r, kcalloc w.heap nmemb size newRam = .ok r ∧ r.ptr ≠ 0 ∧
      ∃ q ∈ (served w n newRam r).live, q.ptr = r.ptr ∧ q.size = n ∧
        Exclusive (served w n newRam r) q ∧ ∀ k < n, r.heap.mem (q.ptr + k) = 0 := by
  obtain ⟨r, hrun, hr⟩ := (h.ptr_iff_granted hc).mpr hgrant
  obtain ⟨l', hmoved⟩ := h.kmalloc_moved hc hrun
  obtain ⟨q, hq⟩ : ∃ q, NewBlk w n newRam r l' q := ⟨_, hmoved.newBlk hr⟩
  have hle := (hq.inv.valid (List.mem_append_right _ hq.mem)).le
  have hsmall : n < 2 ^ 31 := Nat.lt_of_le_of_lt hgrant.1.2 (by decide)
  have hfill : ∀ x, memset r.heap.mem r.ptr 0 n x =
      if r.ptr ≤ x ∧ x < r.ptr + n then 0 else r.heap.mem x := by
    rw [Blk.stop_ptr, hq.ptr, hq.size] at hle
    exact fun x => memset_apply hle hsmall
  have hout : ∀ x, ¬ (q.ptr ≤ x ∧ x < q.stop) → memset r.heap.mem r.ptr 0 n x = r.heap.mem x := by
    intro x hx
    rw [Blk.stop_ptr, hq.ptr, hq.size] at hx
    rw [hfill, if_neg hx]
  have hinv := hq.inv.setMem (hq.headers hout)
  subst hn
  refine ⟨_, kcalloc_eq hrun hr, hr, q, hq.mem, hq.ptr, hq.size, hinv.exclusive hq.mem, ?_⟩
  intro k hk
  show memset r.heap.mem r.ptr 0 (nmemb * size % 2 ^ 64) (q.ptr + k) = 0
  rw [hfill, hq.ptr, if_pos (by omega)]

end

/-- `kcalloc` returns enough zeroes exactly if the product does not wrap, or the wrapped
product is a size that is not served. -/
theorem run_kcalloc_holds_iff {h : History} {w : World} (hrun : Run h w) {nmemb size newRam : Nat}
    (hc : newRam = 0 ∨ FreshPage w.pages newRam) :
    HoldsZeroes w nmemb size newRam ↔
      nmemb * size < 2 ^ 64 ∨ ¬ Granted w (nmemb * size % 2 ^ 64) newRam := by
  obtain ⟨l, hinv⟩ := hrun.inv
  by_cases hgrant : Granted w (nmemb * size % 2 ^ 64) newRam
  · obtain ⟨r, hr, hptr, q, hq, hqptr, hqsize, hexcl, hzero⟩ := hinv.kcalloc_block rfl hc hgrant
    constructor
    · intro hholds
      obtain ⟨q', hq', hq'ptr, hexcl', hle, _⟩ := hholds r hr hptr
      -- Both are the block whose header lies in front of the pointer.
      have haddr : q'.addr = q.addr := Nat.add_right_cancel (hq'ptr.trans hqptr.symm)
      have hsame : q'.size = q.size := by
        rw [← hexcl'.header, ← hexcl.header, haddr]
      have hlt : nmemb * size % 2 ^ 64 < 2 ^ 64 := Nat.mod_lt _ (by decide)
      omega
    · rintro (hlt | hno)
      · intro r' hr' _
        rw [hr, Except.ok.injEq] at hr'
        subst hr'
        have hmod := Nat.mod_eq_of_lt hlt
        refine ⟨q, hq, hqptr, hexcl, by omega, fun k hk => hzero k (by omega)⟩
      · exact absurd hgrant hno
  · refine iff_of_true (fun r hr hptr => ?_) (Or.inr hgrant)
    exact absurd ((hinv.ptr_iff_granted hc).mp (kmalloc_of_kcalloc hr hptr)) hgrant

theorem run_kcalloc_holds_page :
    HoldsZeroes zeroed 4 25 4096 ∧ (kcalloc zeroed.heap 4 25 4096).toOption.map (·.ptr) = some 8092 :=
  ⟨(run_kcalloc_holds_iff (Run.start _) (Or.inr freshPage_zeroed)).mpr (Or.inl (by decide)),
    by decide +kernel⟩

/-- `2 ^ 61 + 1` elements of eight bytes get a block of eight bytes. -/
theorem kcalloc_wraps :
    Run [] zeroed ∧ 2 ^ 61 + 1 < 2 ^ 64 ∧
      (∃ r, kcalloc zeroed.heap (2 ^ 61 + 1) 8 4096 = .ok r ∧ r.ptr = 8184 ∧
        r.heap.size (r.ptr - totalMetadataSize) = 8) ∧
      ¬ HoldsZeroes zeroed (2 ^ 61 + 1) 8 4096 := by
  have hrun : (kcalloc zeroed.heap (2 ^ 61 + 1) 8 4096).toOption.map
      (fun r => (r.ptr, r.heap.size (r.ptr - totalMetadataSize))) = some (8184, 8) := by
    decide +kernel
  obtain ⟨r, hr, hres⟩ := exists_ok_of_toOption hrun
  obtain ⟨hptr, hsize⟩ := Prod.mk.inj hres
  refine ⟨Run.start _, by decide, ⟨r, hr, hptr, hsize⟩, fun hholds => ?_⟩
  obtain ⟨q, _, hqptr, hexcl, hle, _⟩ := hholds r hr (by rw [hptr]; decide)
  have hheader : r.heap.size q.addr = q.size := hexcl.header
  rw [← q.ptr_sub, hqptr, hsize] at hheader
  omega

end Kmalloc
end GuideOS
