import GuideOS.Lib.Result
import GuideOS.Mem.PageAlloc.Ownership
import GuideOS.Mem.Vmm
import GuideOS.Proc.Ctxsw
import GuideOS.Proc.Sched

/-!
# The process table

`proc_init`, `proc_kern_init` and `proc_alloc` of `proc/proc.c`, over the page allocator.
`mapped` tells the addresses that the page table maps, and a store to another one is a
page fault.  The slots are claimed under `ptable.lock`, in one step.
-/

namespace GuideOS
namespace Table

open Lib PageAlloc
open Sched (ProcState)

def nproc : Nat := 1024

inductive ProcType
  | kernel
  | user
deriving DecidableEq, Repr

/-- `struct proc` -/
structure Proc where
  pgtable : Nat
  tf : Nat
  ctx : Nat
  kstack : Nat
  kstackTop : Nat
  state : ProcState
  type : ProcType
  name : Fin 32 → BitVec 8
  chan : Nat
  intDisableLayer : BitVec 32
  pid : BitVec 16
  killed : Bool
  intEnabled : Bool

/-- A slot after `memset`. -/
def Proc.zero : Proc := ⟨0, 0, 0, 0, 0, .unused, .kernel, fun _ => 0, 0, 0, 0, false, false⟩

/-- `ptable`, with the page allocator. -/
structure State where
  nextPid : BitVec 32
  proc : Nat → Proc
  pages : PageAlloc.State

inductive Fault
  | panic (p : PageAlloc.Panic)
  | pgfault

def procInit (s : State) : State := { s with proc := fun _ => .zero, nextPid := 1 }

/-- `sp -= n` -/
def sub64 (sp n : Nat) : Nat := (sp + (2 ^ 64 - n)) % 2 ^ 64

/-- A store of a word. -/
def storeWord (mapped : Nat → Bool) (s : PageAlloc.State) (va v : Nat) : Except Fault PageAlloc.State :=
  if mapped va then .ok (s.store va v) else .error .pgfault

/-- `memset` with zero, of words. -/
def clearWords (mapped : Nat → Bool) (s : PageAlloc.State) (va : Nat) : Nat → Except Fault PageAlloc.State
  | 0 => .ok s
  | n + 1 => do
      let s ← storeWord mapped s va 0
      clearWords mapped s ((va + 8) % 2 ^ 64) n

def procKernInit (mapped : Nat → Bool) (sym : Ctxsw.Symbols) (s : State) : Option Nat → Except Fault State
  | none => .ok s
  | some i => do
      let (kstack, pages) ← (pgallocAllocate s.pages 0).mapError .panic
      let kstackTop := (kstack + pgSize) % 2 ^ 64
      let p := { s.proc i with kstack := kstack, kstackTop := kstackTop }
      let sp := sub64 kstackTop (Ctxsw.sizeOf Ctxsw.trapframe)
      let p := { p with tf := sp }
      let sp := sub64 sp 8
      let pages ← storeWord mapped pages sp sym.returnFromIsr.toNat
      let sp := sub64 sp (Ctxsw.sizeOf Ctxsw.procContext)
      let p := { p with ctx := sp }
      let pages ← clearWords mapped pages sp Ctxsw.procContext.length
      return { s with proc := Function.update s.proc i p, pages := pages }

/-- The slot `i` is claimed. -/
def claimed (s : State) (i : Nat) : State :=
  let p := { Proc.zero with state := .creation, pid := s.nextPid.setWidth 16 }
  { s with proc := Function.update s.proc i p, nextPid := s.nextPid + 1 }

/-- The `for` of `proc_alloc`, with `n` slots left. -/
def claimLoop (s : State) : Nat → Nat → Option Nat × State
  | _, 0 => (none, s)
  | i, n + 1 =>
      if (s.proc i).state = .unused then (some i, claimed s i) else claimLoop s (i + 1) n

/-- The slots are their indices, and `none` is the null pointer. -/
def procAlloc (mapped : Nat → Bool) (sym : Ctxsw.Symbols) (s : State) :
    Except Fault (Option Nat × State) :=
  match claimLoop s 0 nproc with
  | (none, s) => .ok (none, s)
  | (some i, s) => do
      let s ← procKernInit mapped sym s (some i)
      return (some i, s)

/-! ## Runs -/

def InUse (s : State) (i : Nat) : Prop := (s.proc i).state ≠ .unused

/-- The states of the table, from `proc_init` on, over a page allocator whose pages are
mapped.  Besides `proc_alloc` the owners of the slots change them, and the rest of the kernel
calls the page allocator; neither gives a slot or a kernel stack back. -/
inductive Reach (mapped : Nat → Bool) (sym : Ctxsw.Symbols) : State → Prop
  | init (s : State) {h : History} (hrun : Run h s.pages)
      (hmap : ∀ a, kernBase ≤ a → a < kernBase + s.pages.maxAddr → mapped a = true) :
      Reach mapped sym (procInit s)
  | alloc {s s' : State} {r : Option Nat} (h : Reach mapped sym s)
      (hrun : procAlloc mapped sym s = .ok (r, s')) : Reach mapped sym s'
  | owner {s : State} (h : Reach mapped sym s) (i : Nat) (p : Proc) (huse : InUse s i)
      (hstate : p.state ≠ .unused) (hpid : p.pid = (s.proc i).pid) (hkstack : p.kstack = (s.proc i).kstack) :
      Reach mapped sym { s with proc := Function.update s.proc i p }
  | call {s : State} {c : PageAlloc.Call} {r : Nat} {pages : PageAlloc.State} (h : Reach mapped sym s)
      (hc : Legal s.pages c) (hexec : exec s.pages c = .ok (r, pages))
      (hkept : ∀ i, InUse s i → (s.proc i).kstack ≠ 0 → pgIndex (kv2p (s.proc i).kstack) ∉ freed c) :
      Reach mapped sym { s with pages := pages }

/-- The slot `i` of `s` was claimed and given a stack. -/
structure Created (s : State) (i : Nat) (s' : State) : Prop where
  lt : i < nproc
  unused : (s.proc i).state = .unused
  creation : (s'.proc i).state = .creation
  pid_ne_zero : (s'.proc i).pid ≠ 0
  pid_ne : ∀ j < nproc, j ≠ i → InUse s' j → (s'.proc j).pid ≠ (s'.proc i).pid
  allocated : ∃ pages, pgallocAllocate s.pages 0 = .ok ((s'.proc i).kstack, pages)
  kstack_ne_zero : (s'.proc i).kstack ≠ 0
  kstack_ne : ∀ j < nproc, j ≠ i → InUse s' j → (s'.proc j).kstack ≠ (s'.proc i).kstack
  tf_inside : (s'.proc i).kstack ≤ (s'.proc i).tf ∧
    (s'.proc i).tf + Ctxsw.sizeOf Ctxsw.trapframe ≤ (s'.proc i).kstack + pgSize
  ctx_inside : (s'.proc i).kstack ≤ (s'.proc i).ctx ∧
    (s'.proc i).ctx + Ctxsw.sizeOf Ctxsw.procContext ≤ (s'.proc i).kstack + pgSize
  others : ∀ j < nproc, j ≠ i → s'.proc j = s.proc j

/-- What a call of `proc_alloc` shall do. -/
def Outcome (s : State) : Option Nat × State → Prop
  | (none, s') => ∀ j < nproc, s'.proc j = s.proc j
  | (some i, s') => Created s i s'

/-- `proc_alloc` does all or nothing in `s`. -/
structure AllOrNothing (mapped : Nat → Bool) (sym : Ctxsw.Symbols) (s : State) : Prop where
  returns : ∃ r, procAlloc mapped sym s = .ok r ∧ Outcome s r
  null : (∀ i < nproc, InUse s i) ∨ (∃ pages, pgallocAllocate s.pages 0 = .ok (0, pages)) →
    ∃ s', procAlloc mapped sym s = .ok (none, s')

theorem claimed_self (s : State) (i : Nat) :
    (claimed s i).proc i = { Proc.zero with state := .creation, pid := s.nextPid.setWidth 16 } :=
  Function.update_self ..

theorem claimed_of_ne (s : State) {i j : Nat} (h : j ≠ i) : (claimed s i).proc j = s.proc j :=
  Function.update_of_ne h ..

theorem inUse_claimed (s : State) (i : Nat) : InUse (claimed s i) i := by
  rw [InUse, claimed_self]
  exact show ProcState.creation ≠ .unused by decide

/-! ## The search -/

theorem claimLoop_cases (s : State) (i n : Nat) :
    ((∀ j, i ≤ j → j < i + n → InUse s j) ∧ claimLoop s i n = (none, s)) ∨
      ∃ j, i ≤ j ∧ j < i + n ∧ (s.proc j).state = .unused ∧ (∀ k, i ≤ k → k < j → InUse s k) ∧
        claimLoop s i n = (some j, claimed s j) := by
  induction n generalizing i with
  | zero => exact Or.inl ⟨fun j hj hj' => by omega, rfl⟩
  | succ n ih =>
      by_cases hfree : (s.proc i).state = .unused
      · exact Or.inr ⟨i, le_rfl, by omega, hfree, fun k hk hk' => by omega, by rw [claimLoop, if_pos hfree]⟩
      · have hcons : ∀ {k : Nat}, i ≤ k → (i + 1 ≤ k → InUse s k) → InUse s k := fun hk h => by
          rcases Nat.eq_or_lt_of_le hk with rfl | hk
          · exact hfree
          · exact h hk
        rw [claimLoop, if_neg hfree]
        rcases ih (i + 1) with ⟨huse, hrun⟩ | ⟨j, hle, hlt, hj, huse, hrun⟩
        · exact Or.inl ⟨fun k hk hk' => hcons hk fun h => huse k h (by omega), hrun⟩
        · exact Or.inr ⟨j, by omega, by omega, hj, fun k hk hk' => hcons hk fun h => huse k h hk', hrun⟩

/-! ## The kernel stack -/

section

variable {mapped : Nat → Bool} {s t : PageAlloc.State} {l : Nat → List Nat} {va v n : Nat}

/-- The stores to `t` left the lists of `s` alone. -/
structure Kept (s t : PageAlloc.State) : Prop where
  inv : ∃ l, Inv t l
  maxAddr : t.maxAddr = s.maxAddr
  pages : freePages t = freePages s

theorem storeWord_kept (h : Inv s l) (hva : pgIndex (kv2p va) ∉ freePages s)
    (hrun : storeWord mapped s va v = .ok t) : Kept s t := by
  rw [storeWord] at hrun
  split at hrun
  · cases hrun
    refine ⟨⟨l, h.store hva⟩, rfl, ?_⟩
    ext p
    rw [(h.store hva).mem_freePages, h.mem_freePages]
  · cases hrun

theorem clearWords_kept (h : Inv s l) (hva : ∀ k < n, pgIndex (kv2p ((va + 8 * k) % 2 ^ 64)) ∉ freePages s)
    (hlt : va < 2 ^ 64) (hrun : clearWords mapped s va n = .ok t) : Kept s t := by
  induction n generalizing s l va with
  | zero =>
      cases hrun
      exact ⟨⟨l, h⟩, rfl, rfl⟩
  | succ n ih =>
      obtain ⟨u, hstore, hrest⟩ := exists_ok_of_bind hrun
      have hfirst := hva 0 (by omega)
      rw [Nat.mul_zero, Nat.add_zero, Nat.mod_eq_of_lt hlt] at hfirst
      have hu := storeWord_kept h hfirst hstore
      obtain ⟨l', hl'⟩ := hu.inv
      have hnext : ∀ k < n, pgIndex (kv2p (((va + 8) % 2 ^ 64 + 8 * k) % 2 ^ 64)) ∉ freePages u := by
        intro k hk
        rw [hu.pages, Nat.mod_add_mod, show va + 8 + 8 * k = va + 8 * (k + 1) by omega]
        exact hva (k + 1) (by omega)
      have ht := ih hl' hnext (Nat.mod_lt _ (by decide)) hrest
      exact ⟨ht.inv, ht.maxAddr.trans hu.maxAddr, ht.pages.trans hu.pages⟩

theorem clearWords_ok (hmap : ∀ k < n, mapped ((va + 8 * k) % 2 ^ 64) = true) (hlt : va < 2 ^ 64) :
    ∃ t, clearWords mapped s va n = .ok t := by
  induction n generalizing s va with
  | zero => exact ⟨s, rfl⟩
  | succ n ih =>
      have hfirst := hmap 0 (by omega)
      rw [Nat.mul_zero, Nat.add_zero, Nat.mod_eq_of_lt hlt] at hfirst
      have hnext : ∀ k < n, mapped (((va + 8) % 2 ^ 64 + 8 * k) % 2 ^ 64) = true := by
        intro k hk
        rw [Nat.mod_add_mod, show va + 8 + 8 * k = va + 8 * (k + 1) by omega]
        exact hmap (k + 1) (by omega)
      obtain ⟨t, ht⟩ := ih (s := s.store va 0) hnext (Nat.mod_lt _ (by decide))
      refine ⟨t, ?_⟩
      rw [clearWords, storeWord, if_pos hfirst]
      exact ht

/-- The page `q` was free in `s` and is allocated in `t`. -/
structure Fresh (s : PageAlloc.State) (q : Nat) (t : PageAlloc.State) : Prop where
  allocated : pgallocAllocate s 0 = .ok (pageVa q, t)
  ne_zero : pageVa q ≠ 0
  below : (q + 1) * pgSize ≤ s.maxAddr
  va : pageVa q = kernBase + q * pgSize
  fit : pageVa q + pgSize ≤ 2 ^ 64
  free : q ∈ freePages s
  out : q ∉ freePages t
  subset : freePages t ⊆ freePages s
  maxAddr : t.maxAddr = s.maxAddr
  inv : ∃ l, Inv t l

/-- No page is free, or one is allocated. -/
theorem fresh_or_empty (h : Inv s l) :
    (pgallocAllocate s 0 = .ok (0, s) ∧ freePages s = ∅) ∨ ∃ q t, Fresh s q t := by
  rcases pgallocAllocate_ok h 0 with ⟨hrun, hnone⟩ | ⟨q, t, hrun, hne, -, htaken⟩
  · refine Or.inl ⟨hrun, Finset.eq_empty_of_forall_notMem fun p hp => ?_⟩
    obtain ⟨o, i, hon, -⟩ := h.mem_freePages.mp hp
    exact hnone o i (Nat.zero_le o) hon
  · have hbelow : (q + 1) * pgSize ≤ s.maxAddr := htaken.below
    have hfit := h.fit
    have hva := pageVa_eq hfit hbelow
    have hsize : (q + 1) * pgSize = q * pgSize + pgSize := Nat.succ_mul q pgSize
    refine Or.inr ⟨q, t, hrun, hne, hbelow, hva, by omega, htaken.free (self_mem_block q 0), ?_, ?_,
      htaken.maxAddr, htaken.inv⟩
    · rw [htaken.pages, Finset.mem_sdiff]
      exact fun hmem => hmem.2 (self_mem_block q 0)
    · rw [htaken.pages]
      exact Finset.sdiff_subset

theorem pgallocAllocate_empty (h : Inv s l) (hempty : freePages s = ∅) :
    pgallocAllocate s 0 = .ok (0, s) := by
  rcases fresh_or_empty h with ⟨halloc, -⟩ | ⟨q, t, hq⟩
  · exact halloc
  · exact absurd (hempty ▸ hq.free) (Finset.notMem_empty q)

/-- The bytes of an allocated page are not on a list. -/
theorem Fresh.pgIndex {q : Nat} (h : Fresh s q t) {n : Nat} (hn : n < pgSize) :
    pgIndex (kv2p (pageVa q + n)) = q := by
  have hfit := h.fit
  rw [h.va] at hfit ⊢
  rw [kv2p, GuideOS.pgIndex]
  simp only [pgSize, kernBase] at *
  omega

end

/-- The addresses in the first frame of a stack: the trap frame, the return address and the
context. -/
def frameTf (kstack : Nat) : Nat := sub64 ((kstack + pgSize) % 2 ^ 64) (Ctxsw.sizeOf Ctxsw.trapframe)

def frameRet (kstack : Nat) : Nat := sub64 (frameTf kstack) 8

def frameCtx (kstack : Nat) : Nat := sub64 (frameRet kstack) (Ctxsw.sizeOf Ctxsw.procContext)

def stacked (p : Proc) (kstack : Nat) : Proc :=
  { p with
    kstack := kstack
    kstackTop := (kstack + pgSize) % 2 ^ 64
    tf := frameTf kstack
    ctx := frameCtx kstack }

@[simp] theorem kstack_stacked (p : Proc) (k : Nat) : (stacked p k).kstack = k := by
  rw [stacked]

@[simp] theorem state_stacked (p : Proc) (k : Nat) : (stacked p k).state = p.state := by
  rw [stacked]

@[simp] theorem pid_stacked (p : Proc) (k : Nat) : (stacked p k).pid = p.pid := by
  rw [stacked]

@[simp] theorem tf_stacked (p : Proc) (k : Nat) : (stacked p k).tf = frameTf k := by
  rw [stacked]

@[simp] theorem ctx_stacked (p : Proc) (k : Nat) : (stacked p k).ctx = frameCtx k := by
  rw [stacked]

section

variable {mapped : Nat → Bool} {sym : Ctxsw.Symbols} {s s' : State} {l : Nat → List Nat} {t : PageAlloc.State}
  {i k p : Nat}

theorem procKernInit_some (mapped : Nat → Bool) (sym : Ctxsw.Symbols)
    (h : pgallocAllocate s.pages 0 = .ok (k, t)) (i : Nat) :
    procKernInit mapped sym s (some i) = do
      let pages ← storeWord mapped t (frameRet k) sym.returnFromIsr.toNat
      let pages ← clearWords mapped pages (frameCtx k) Ctxsw.procContext.length
      return { s with proc := Function.update s.proc i (stacked (s.proc i) k), pages := pages } := by
  rw [procKernInit, h]
  rfl

theorem frame_eq (h : k + pgSize ≤ 2 ^ 64) :
    frameTf k = k + 3920 ∧ frameRet k = k + 3912 ∧ frameCtx k = k + 3856 := by
  have htf : Ctxsw.sizeOf Ctxsw.trapframe = 176 := by decide
  have hctx : Ctxsw.sizeOf Ctxsw.procContext = 56 := by decide
  rw [pgSize] at h
  rw [frameCtx, frameRet, frameTf, sub64, sub64, sub64, htf, hctx, pgSize]
  omega

/-- What `proc_kern_init` leaves when it got the stack `k` from the page allocator. -/
structure Initialised (s : State) (i k : Nat) (t : PageAlloc.State) (s' : State) : Prop where
  proc : s'.proc = Function.update s.proc i (stacked (s.proc i) k)
  nextPid : s'.nextPid = s.nextPid
  kept : Kept t s'.pages

theorem procKernInit_kept (halloc : pgallocAllocate s.pages 0 = .ok (k, t)) (h : Inv t l)
    (hk : k + pgSize ≤ 2 ^ 64) (hout : ∀ n < pgSize, pgIndex (kv2p (k + n)) ∉ freePages t)
    (hrun : procKernInit mapped sym s (some i) = .ok s') : Initialised s i k t s' := by
  obtain ⟨-, hret, hctx⟩ := frame_eq hk
  rw [pgSize] at hk
  rw [procKernInit_some mapped sym halloc, hret, hctx] at hrun
  obtain ⟨u, hstore, hrun⟩ := exists_ok_of_bind hrun
  obtain ⟨v, hclear, hrun⟩ := exists_ok_of_bind hrun
  cases hrun
  have hu := storeWord_kept h (hout 3912 (by decide)) hstore
  obtain ⟨l', hl'⟩ := hu.inv
  have hv := clearWords_kept hl' (fun j hj => by
    have hlen : Ctxsw.procContext.length = 7 := rfl
    rw [hu.pages, Nat.mod_eq_of_lt (by omega), Nat.add_assoc]
    exact hout _ (by rw [pgSize]; omega)) (by omega) hclear
  exact ⟨rfl, rfl, hv.inv, hv.maxAddr.trans hu.maxAddr, hv.pages.trans hu.pages⟩

/-- A stack from a fresh page. -/
theorem Fresh.initialised {q : Nat} (hq : Fresh s.pages q t)
    (hrun : procKernInit mapped sym s (some i) = .ok s') : Initialised s i (pageVa q) t s' := by
  obtain ⟨l, hinv⟩ := hq.inv
  refine procKernInit_kept hq.allocated hinv hq.fit (fun n hn => ?_) hrun
  rw [hq.pgIndex hn]
  exact hq.out

theorem exists_procKernInit (sym : Ctxsw.Symbols) (halloc : pgallocAllocate s.pages 0 = .ok (k, t)) (hk : k + pgSize ≤ 2 ^ 64)
    (hmap : ∀ n < pgSize, mapped (k + n) = true) (i : Nat) :
    ∃ s', procKernInit mapped sym s (some i) = .ok s' := by
  obtain ⟨-, hret, hctx⟩ := frame_eq hk
  rw [pgSize] at hk
  have hwords : ∀ j < Ctxsw.procContext.length, mapped ((k + 3856 + 8 * j) % 2 ^ 64) = true := by
    intro j hj
    have hlen : Ctxsw.procContext.length = 7 := rfl
    rw [Nat.mod_eq_of_lt (by omega), Nat.add_assoc]
    exact hmap _ (by rw [pgSize]; omega)
  obtain ⟨v, hv⟩ := clearWords_ok (s := t.store (k + 3912) sym.returnFromIsr.toNat) hwords (by omega)
  refine ⟨{ s with proc := Function.update s.proc i (stacked (s.proc i) k), pages := v }, ?_⟩
  rw [procKernInit_some mapped sym halloc, hret, hctx, storeWord, if_pos (hmap 3912 (by decide))]
  show (clearWords mapped _ _ _ >>= fun pages => _) = _
  rw [hv]
  rfl

end

/-! ## The invariant -/

/-- The slots in use are the first ones, in the order of their pids, and their stacks are
pages of their own. -/
structure Sound (mapped : Nat → Bool) (s : State) : Prop where
  count : ∃ n ≤ nproc, s.nextPid.toNat = n + 1 ∧
    ∀ i, (InUse s i ↔ i < n) ∧ (i < n → (s.proc i).pid.toNat = i + 1)
  pages : ∃ l, Inv s.pages l
  map : ∀ a, kernBase ≤ a → a < kernBase + s.pages.maxAddr → mapped a = true
  kstack : ∀ i, InUse s i → (s.proc i).kstack = 0 ∨ ∃ p, (s.proc i).kstack = pageVa p ∧
    (p + 1) * pgSize ≤ s.pages.maxAddr ∧ p ∉ freePages s.pages
  apart : ∀ i j, InUse s i → InUse s j → i ≠ j → (s.proc i).kstack ≠ 0 →
    (s.proc i).kstack ≠ (s.proc j).kstack

section

variable {mapped : Nat → Bool} {sym : Ctxsw.Symbols} {s s' : State}

theorem sound_procInit (s : State) (hinv : ∃ l, Inv s.pages l)
    (hmap : ∀ a, kernBase ≤ a → a < kernBase + s.pages.maxAddr → mapped a = true) :
    Sound mapped (procInit s) where
  count := ⟨0, by decide, rfl, fun i => ⟨⟨fun h => absurd rfl h, fun h => absurd h (Nat.not_lt_zero i)⟩,
    fun h => absurd h (Nat.not_lt_zero i)⟩⟩
  pages := hinv
  map := hmap
  kstack _ h := absurd rfl h
  apart _ _ h := absurd rfl h

theorem inUse_set {i : Nat} {p : Proc} (hproc : s'.proc = Function.update s.proc i p) (huse : InUse s i)
    (hstate : p.state ≠ .unused) (j : Nat) : InUse s' j ↔ InUse s j := by
  by_cases hj : j = i
  · subst hj
    rw [InUse, hproc, Function.update_self]
    exact iff_of_true hstate huse
  · rw [InUse, hproc, Function.update_of_ne hj, InUse]

/-- A slot in use changes. -/
theorem Sound.set (h : Sound mapped s) {i : Nat} {p : Proc} (hproc : s'.proc = Function.update s.proc i p)
    (hnextPid : s'.nextPid = s.nextPid) (huse : InUse s i) (hstate : p.state ≠ .unused)
    (hpid : p.pid = (s.proc i).pid) (hinv : ∃ l, Inv s'.pages l) (hmax : s'.pages.maxAddr = s.pages.maxAddr)
    (hfree : freePages s'.pages ⊆ freePages s.pages)
    (hkstack : p.kstack = 0 ∨ ∃ q, p.kstack = pageVa q ∧ (q + 1) * pgSize ≤ s.pages.maxAddr ∧
      q ∉ freePages s'.pages)
    (hapart : ∀ j, InUse s j → j ≠ i → p.kstack ≠ 0 → p.kstack ≠ (s.proc j).kstack) : Sound mapped s' := by
  have hself : s'.proc i = p := by rw [hproc, Function.update_self]
  have hother : ∀ {j}, j ≠ i → s'.proc j = s.proc j := fun hj => by rw [hproc, Function.update_of_ne hj]
  have huse' := inUse_set hproc huse hstate
  obtain ⟨n, hn, hnext, hslots⟩ := h.count
  refine ⟨⟨n, hn, hnextPid ▸ hnext, fun j => ⟨(huse' j).trans (hslots j).1, fun hj => ?_⟩⟩, hinv, ?_,
    fun j hj => ?_, fun j k hj hk hne hnz => ?_⟩
  · by_cases hji : j = i
    · subst hji
      rw [hself, hpid]
      exact (hslots j).2 hj
    · rw [hother hji]
      exact (hslots j).2 hj
  · rw [hmax]
    exact h.map
  · by_cases hji : j = i
    · subst hji
      rw [hself, hmax]
      exact hkstack
    · rw [hother hji, hmax]
      exact (h.kstack j ((huse' j).mp hj)).imp_right fun ⟨q, hq, hle, hout⟩ => ⟨q, hq, hle, mt (@hfree q) hout⟩
  · have huj := (huse' j).mp hj
    have huk := (huse' k).mp hk
    by_cases hji : j = i
    · subst hji
      rw [hself] at hnz ⊢
      rw [hother (Ne.symm hne)]
      exact hapart k huk (Ne.symm hne) hnz
    · rw [hother hji] at hnz ⊢
      by_cases hki : k = i
      · subst hki
        rw [hself]
        intro heq
        exact hapart j huj hji (heq ▸ hnz) heq.symm
      · rw [hother hki]
        exact h.apart j k huj huk hne hnz

theorem Sound.owner (h : Sound mapped s) {i : Nat} {p : Proc} (huse : InUse s i) (hstate : p.state ≠ .unused)
    (hpid : p.pid = (s.proc i).pid) (hkstack : p.kstack = (s.proc i).kstack) :
    Sound mapped { s with proc := Function.update s.proc i p } := by
  refine h.set rfl rfl huse hstate hpid h.pages rfl (Finset.Subset.refl _) ?_ fun j hj hne hnz => ?_
  · rw [hkstack]
    exact h.kstack i huse
  · rw [hkstack] at hnz ⊢
    exact h.apart i j huse hj (Ne.symm hne) hnz

theorem inUse_claimed_iff {i : Nat} (hslots : ∀ j, InUse s j ↔ j < i) (j : Nat) :
    InUse (claimed s i) j ↔ j < i + 1 := by
  by_cases hj : j = i
  · subst hj
    exact iff_of_true (inUse_claimed s j) (by omega)
  · rw [InUse, claimed_of_ne s hj, ← InUse, hslots j]
    omega

/-- The slots below the first free one are those in use. -/
theorem Sound.claim (h : Sound mapped s) {i : Nat} (hi : i < nproc) (hfree : (s.proc i).state = .unused)
    (huse : ∀ j < i, InUse s j) :
    s.nextPid.toNat = i + 1 ∧ (∀ j, InUse s j ↔ j < i) ∧ (∀ j < i, (s.proc j).pid.toNat = j + 1) ∧
      Sound mapped (claimed s i) := by
  obtain ⟨n, hn, hnext, hslots⟩ := h.count
  have hin : i = n := by
    have hlo : ¬i < n := fun hlt => (hslots i).1.mpr hlt hfree
    have hhi : ¬n < i := fun hlt => Nat.lt_irrefl n ((hslots n).1.mp (huse n hlt))
    omega
  subst hin
  have huse' := inUse_claimed_iff fun j => (hslots j).1
  have hkstack : ((claimed s i).proc i).kstack = 0 := by
    rw [claimed_self]
    rfl
  have hold : ∀ {j}, InUse (claimed s i) j → j ≠ i → InUse s j := fun hj hne =>
    (hslots _).1.mpr (by have := (huse' _).mp hj; omega)
  refine ⟨hnext, fun j => (hslots j).1, fun j hj => (hslots j).2 hj, ⟨i + 1, by omega, ?_, fun j => ⟨huse' j, fun hj => ?_⟩⟩,
    h.pages, h.map, fun j hj => ?_, fun j k hj hk hne hnz => ?_⟩
  · show (s.nextPid + 1).toNat = i + 1 + 1
    rw [BitVec.toNat_add, hnext]
    exact Nat.mod_eq_of_lt (by rw [nproc] at hi; simp; omega)
  · by_cases hji : j = i
    · subst hji
      rw [claimed_self]
      show (s.nextPid.setWidth 16).toNat = j + 1
      rw [BitVec.toNat_setWidth, hnext, Nat.mod_eq_of_lt (by rw [nproc] at hi; omega)]
    · rw [claimed_of_ne s hji]
      exact (hslots j).2 (by omega)
  · by_cases hji : j = i
    · subst hji
      exact Or.inl hkstack
    · rw [claimed_of_ne s hji]
      exact h.kstack j (hold hj hji)
  · have hji : j ≠ i := fun heq => hnz (heq ▸ hkstack)
    rw [claimed_of_ne s hji] at hnz ⊢
    by_cases hki : k = i
    · subst hki
      rw [hkstack]
      exact hnz
    · rw [claimed_of_ne s hki]
      exact h.apart j k (hold hj hji) (hold hk hki) hne hnz

theorem Sound.kstack_ne (h : Sound mapped s) {q : Nat} {t : PageAlloc.State} (hq : Fresh s.pages q t)
    {j : Nat} (hj : InUse s j) : pageVa q ≠ (s.proc j).kstack := by
  obtain ⟨l, hinv⟩ := h.pages
  intro heq
  rcases h.kstack j hj with hz | ⟨q', hq', hbelow, hout⟩
  · exact hq.ne_zero (heq.trans hz)
  · have hpage := pageVa_inj hinv.fit hq.below hbelow (heq.trans hq')
    exact hout (hpage ▸ hq.free)

/-- `proc_kern_init` finds no free page, or gives the slot one of its own. -/
theorem Sound.procKernInit (h : Sound mapped s) {i : Nat} (huse : InUse s i)
    (hrun : procKernInit mapped sym s (some i) = .ok s') : Sound mapped s' := by
  obtain ⟨l, hinv⟩ := h.pages
  have hstate : ∀ {k}, (stacked (s.proc i) k).state ≠ .unused := by
    intro k
    rw [state_stacked]
    exact huse
  rcases fresh_or_empty hinv with ⟨halloc, hempty⟩ | ⟨q, t, hq⟩
  · have hi := procKernInit_kept halloc hinv (by decide) (fun n _ => by
      rw [hempty]
      exact Finset.notMem_empty _) hrun
    refine h.set hi.proc hi.nextPid huse hstate (pid_stacked _ _) hi.kept.inv hi.kept.maxAddr ?_
      (Or.inl (kstack_stacked _ _)) fun _ _ _ hnz => absurd (kstack_stacked _ _) hnz
    rw [hi.kept.pages]
  · have hi := hq.initialised hrun
    refine h.set hi.proc hi.nextPid huse hstate (pid_stacked _ _) hi.kept.inv
      (hi.kept.maxAddr.trans hq.maxAddr) ?_ (Or.inr ⟨q, kstack_stacked _ _, hq.below, ?_⟩)
      fun j hj _ _ => ?_
    · rw [hi.kept.pages]
      exact hq.subset
    · rw [hi.kept.pages]
      exact hq.out
    · rw [kstack_stacked]
      exact h.kstack_ne hq hj

/-- A call to the page allocator by the rest of the kernel. -/
theorem Sound.call (h : Sound mapped s) {c : PageAlloc.Call} {r : Nat} {pages : PageAlloc.State}
    (hc : Legal s.pages c) (hexec : exec s.pages c = .ok (r, pages))
    (hkept : ∀ i, InUse s i → (s.proc i).kstack ≠ 0 → pgIndex (kv2p (s.proc i).kstack) ∉ freed c) :
    Sound mapped { s with pages := pages } := by
  obtain ⟨l, hinv⟩ := h.pages
  have hmoved := exec_moved hinv hc hexec
  have hmax := exec_maxAddr hinv hc hexec
  obtain ⟨r', t, hok, hinv'⟩ := exec_ok hinv hc
  rw [hexec, Except.ok.injEq, Prod.mk.injEq] at hok
  obtain ⟨-, rfl⟩ := hok
  refine ⟨h.count, hinv', by rw [hmax]; exact h.map, fun i hi => ?_, h.apart⟩
  rcases h.kstack i hi with hz | ⟨q, hq, hbelow, hout⟩
  · exact Or.inl hz
  · refine Or.inr ⟨q, hq, by rwa [hmax], ?_⟩
    have hfreed := hkept i hi (by rw [hq]; exact pageVa_ne_zero hinv.fit hbelow)
    rw [hq, pgIndex_kv2p_pageVa hinv.fit hbelow] at hfreed
    rw [hmoved.pages, Finset.mem_sdiff, Finset.mem_union]
    exact fun hmem => hmem.1.elim hout hfreed

/-- The slot that `proc_alloc` takes is the first free one. -/
theorem procAlloc_cases (mapped : Nat → Bool) (sym : Ctxsw.Symbols) (s : State) :
    ((∀ i < nproc, InUse s i) ∧ procAlloc mapped sym s = .ok (none, s)) ∨
      ∃ i < nproc, (s.proc i).state = .unused ∧ (∀ j < i, InUse s j) ∧ procAlloc mapped sym s = do
        let s ← Table.procKernInit mapped sym (claimed s i) (some i)
        return (some i, s) := by
  rcases claimLoop_cases s 0 nproc with ⟨huse, hrun⟩ | ⟨i, -, hi, hfree, huse, hrun⟩
  · refine Or.inl ⟨fun i hi => huse i (Nat.zero_le i) (by omega), ?_⟩
    rw [procAlloc, hrun]
  · refine Or.inr ⟨i, by omega, hfree, fun j hj => huse j (Nat.zero_le j) hj, ?_⟩
    rw [procAlloc, hrun]

theorem Sound.procAlloc (h : Sound mapped s) {r : Option Nat} (hrun : procAlloc mapped sym s = .ok (r, s')) :
    Sound mapped s' := by
  rcases procAlloc_cases mapped sym s with ⟨-, hnone⟩ | ⟨i, hi, hfree, huse, hsome⟩
  · rw [hnone] at hrun
    cases hrun
    exact h
  · rw [hsome] at hrun
    obtain ⟨t, hinit, hrun⟩ := exists_ok_of_bind hrun
    cases hrun
    exact (h.claim hi hfree huse).2.2.2.procKernInit (inUse_claimed s i) hinit

theorem Reach.sound (h : Reach mapped sym s) : Sound mapped s := by
  induction h with
  | init s hrun hmap => exact sound_procInit s hrun.inv hmap
  | alloc _ hrun ih => exact ih.procAlloc hrun
  | owner _ i p huse hstate hpid hkstack ih => exact ih.owner huse hstate hpid hkstack
  | call _ hc hexec hkept ih => exact ih.call hc hexec hkept

/-! ## All or nothing -/

/-- Without a free page a free slot is taken all the same. -/
theorem not_allOrNothing (h : Sound mapped s) {i : Nat} (hi : i < nproc) (hfree : (s.proc i).state = .unused)
    (hempty : freePages s.pages = ∅) : ¬AllOrNothing mapped sym s := by
  intro hall
  obtain ⟨l, hinv⟩ := h.pages
  obtain ⟨s', hnull⟩ := hall.null (Or.inr ⟨s.pages, pgallocAllocate_empty hinv hempty⟩)
  rcases procAlloc_cases mapped sym s with ⟨huse, -⟩ | ⟨j, -, -, -, hsome⟩
  · exact huse i hi hfree
  · rw [hsome] at hnull
    obtain ⟨t, -, hrun⟩ := exists_ok_of_bind hnull
    cases hrun

/-- A fresh page makes a claimed slot a process. -/
theorem Sound.created (h : Sound mapped s) {i q : Nat} {t : PageAlloc.State} (hi : i < nproc)
    (hfree : (s.proc i).state = .unused) (huse : ∀ j < i, InUse s j) (hq : Fresh s.pages q t)
    (hinit : Initialised (claimed s i) i (pageVa q) t s') : Created s i s' := by
  obtain ⟨hnext, hslots, hpids, -⟩ := h.claim hi hfree huse
  have hself : s'.proc i = stacked ((claimed s i).proc i) (pageVa q) := by
    rw [hinit.proc, Function.update_self]
  have hother : ∀ {j}, j ≠ i → s'.proc j = s.proc j := fun hj => by
    rw [hinit.proc, Function.update_of_ne hj, claimed_of_ne s hj]
  have hpid : (s'.proc i).pid.toNat = i + 1 := by
    rw [hself, pid_stacked, claimed_self, BitVec.toNat_setWidth, hnext, Nat.mod_eq_of_lt]
    rw [nproc] at hi
    omega
  obtain ⟨htf, -, hctx⟩ := frame_eq hq.fit
  have htfSize : Ctxsw.sizeOf Ctxsw.trapframe = 176 := by decide
  have hctxSize : Ctxsw.sizeOf Ctxsw.procContext = 56 := by decide
  refine ⟨hi, hfree, ?_, fun hz => ?_, fun j hj hji hjuse heq => ?_, ?_, ?_,
    fun j hj hji hjuse => ?_, ?_, ?_, fun j hj hji => hother hji⟩
  · rw [hself, state_stacked, claimed_self]
  · rw [hz] at hpid
    exact absurd hpid (Nat.succ_ne_zero i).symm
  · rw [InUse, hother hji] at hjuse
    have hlt := (hslots j).mp hjuse
    have hj' := hpids j hlt
    rw [← hother hji, heq, hpid] at hj'
    omega
  · rw [hself, kstack_stacked]
    exact ⟨t, hq.allocated⟩
  · rw [hself, kstack_stacked]
    exact hq.ne_zero
  · rw [InUse, hother hji] at hjuse
    rw [hself, kstack_stacked, hother hji]
    exact (h.kstack_ne hq hjuse).symm
  · rw [hself, tf_stacked, kstack_stacked, htf, pgSize]
    omega
  · rw [hself, ctx_stacked, kstack_stacked, hctx, pgSize]
    omega

/-- With a free page a free slot becomes a process. -/
theorem Sound.exists_created (sym : Ctxsw.Symbols) (h : Sound mapped s) {i : Nat} (hi : i < nproc)
    (hfree : (s.proc i).state = .unused) (huse : ∀ j < i, InUse s j) (hpage : (freePages s.pages).Nonempty) :
    ∃ s', Table.procKernInit mapped sym (claimed s i) (some i) = .ok s' ∧ Created s i s' := by
  obtain ⟨l, hinv⟩ := h.pages
  rcases fresh_or_empty hinv with ⟨-, hempty⟩ | ⟨q, t, hq⟩
  · rw [hempty] at hpage
    exact absurd hpage Finset.not_nonempty_empty
  · have hin : ∀ n < pgSize, mapped (pageVa q + n) = true := by
      intro n hn
      have hbelow := hq.below
      rw [Nat.succ_mul] at hbelow
      rw [hq.va]
      exact h.map _ (by omega) (by omega)
    obtain ⟨s', hrun⟩ := exists_procKernInit (s := claimed s i) sym hq.allocated hq.fit hin i
    exact ⟨s', hrun, h.created hi hfree huse hq (Fresh.initialised (s := claimed s i) hq hrun)⟩

/-- **All or nothing.**  In every state that the table reaches, `proc_alloc` does all or
nothing exactly when no slot is free or a page is. -/
theorem procAlloc_allOrNothing_iff (h : Reach mapped sym s) :
    AllOrNothing mapped sym s ↔ (∀ i < nproc, InUse s i) ∨ (freePages s.pages).Nonempty := by
  have hsound := h.sound
  constructor
  · intro hall
    by_contra hnot
    obtain ⟨hslot, hpage⟩ := not_or.mp hnot
    push Not at hslot
    obtain ⟨i, hi, hfree⟩ := hslot
    exact not_allOrNothing hsound hi (not_not.mp hfree) (Finset.not_nonempty_iff_eq_empty.mp hpage) hall
  · intro hcond
    rcases procAlloc_cases mapped sym s with ⟨-, hnone⟩ | ⟨i, hi, hfree, huse, hsome⟩
    · exact ⟨⟨_, hnone, fun _ _ => rfl⟩, fun _ => ⟨s, hnone⟩⟩
    · have hpage := hcond.resolve_left fun hall => hall i hi hfree
      obtain ⟨s', hinit, hcreated⟩ := hsound.exists_created sym hi hfree huse hpage
      refine ⟨⟨(some i, s'), ?_, hcreated⟩, ?_⟩
      · rw [hsome, hinit]
        rfl
      · rintro (hall | ⟨pages, hnull⟩)
        · exact absurd hfree (hall i hi)
        · obtain ⟨pages', halloc⟩ := hcreated.allocated
          rw [hnull] at halloc
          have hzero := congrArg Prod.fst (Except.ok.inj halloc)
          exact absurd hzero.symm hcreated.kstack_ne_zero

end

/-- The addresses that the kernel's page table maps. -/
def kernMapped (a : Nat) : Bool := decide (kernBase ≤ a ∧ a < Vmm.kernPhymapTop)

def kernSymbols : Ctxsw.Symbols := ⟨0xFFFF800000101000, 0xFFFF800000102000⟩

theorem reach_kern {h : History} {pages : PageAlloc.State} (hrun : Run h pages) (hmax : pages.maxAddr = 2 ^ 32) :
    Reach kernMapped kernSymbols (procInit ⟨0, fun _ => .zero, pages⟩) := by
  refine .init _ hrun fun a ha ha' => decide_eq_true ⟨ha, Nat.lt_trans ha' ?_⟩
  show kernBase + pages.maxAddr < Vmm.kernPhymapTop
  rw [hmax]
  decide

theorem procAlloc_allOrNothing_feed : ∃ s, Reach kernMapped kernSymbols s ∧ (freePages s.pages).Nonempty ∧
    AllOrNothing kernMapped kernSymbols s := by
  obtain ⟨pages, hrun, hmax, hpages⟩ := exists_run_feed
  have hreach := reach_kern hrun hmax
  have hne : (freePages pages).Nonempty := ⟨0, by rw [hpages]; exact Finset.mem_range.mpr (by decide)⟩
  exact ⟨_, hreach, hne, (procAlloc_allOrNothing_iff hreach).mpr (Or.inr hne)⟩

/-- The only page of the allocator is taken. -/
theorem exists_run_exhausted : ∃ h s, Run h s ∧ s.maxAddr = 2 ^ 32 ∧ freePages s = ∅ := by
  have hfit : kernBase + 2 ^ 32 ≤ 2 ^ 64 := by decide
  have hinv := inv_cleared (fun _ => 0) hfit
  have hempty := freePages_cleared (2 ^ 32) fun _ => 0
  have hrange : freed (.freeRange kernBase (kernBase + pgSize)) = {0} := by decide
  have hlegal : Legal (cleared (2 ^ 32) fun _ => 0) (.freeRange kernBase (kernBase + pgSize)) := by
    refine ⟨trivial, fun p hp => ⟨?_, by rw [hempty]; exact Finset.notMem_empty p⟩⟩
    rw [hrange, Finset.mem_singleton] at hp
    subst hp
    show (0 + 1) * pgSize ≤ 2 ^ 32
    decide
  obtain ⟨s, hfree, hfreed⟩ := pgallocFreeRange_ok hinv hlegal
  obtain ⟨l, hl⟩ := hfreed.inv
  have hrun : Run [(.freeRange kernBase (kernBase + pgSize), 0)] s :=
    .call (.start _ _ hfit) hlegal (by rw [exec, hfree, Except.map])
  have hpages : freePages s = {0} := by
    rw [hfreed.pages, hempty, Finset.empty_union]
    exact hrange
  rcases fresh_or_empty hl with ⟨-, hnone⟩ | ⟨q, t, hq⟩
  · rw [hpages] at hnone
    exact absurd hnone (Finset.singleton_ne_empty 0)
  · have hcall : Legal s (.allocate 0) := ⟨trivial, fun p hp => absurd hp (Finset.notMem_empty p)⟩
    refine ⟨_, t, hrun.call hcall hq.allocated, hq.maxAddr.trans hfreed.maxAddr, ?_⟩
    refine Finset.eq_empty_of_forall_notMem fun p hp => ?_
    have hp0 := hq.subset hp
    have hq0 := hq.free
    rw [hpages, Finset.mem_singleton] at hp0 hq0
    exact hq.out (hq0 ▸ hp0 ▸ hp)

/-- Without memory `proc_alloc` claims a slot and faults at the null pointer. -/
theorem procAlloc_pgfault : ∃ s, Reach kernMapped kernSymbols s ∧ (s.proc 0).state = .unused ∧
    freePages s.pages = ∅ ∧ procAlloc kernMapped kernSymbols s = .error .pgfault ∧
    ¬AllOrNothing kernMapped kernSymbols s := by
  obtain ⟨h, pages, hrun, hmax, hempty⟩ := exists_run_exhausted
  obtain ⟨l, hinv⟩ := hrun.inv
  let s := procInit ⟨0, fun _ => .zero, pages⟩
  have halloc := pgallocAllocate_empty hinv hempty
  have hfault : procAlloc kernMapped kernSymbols s = .error .pgfault := by
    rcases procAlloc_cases kernMapped kernSymbols s with ⟨huse, -⟩ | ⟨i, -, -, -, hsome⟩
    · exact absurd rfl (huse 0 (by decide))
    · have hinit := procKernInit_some (s := claimed s i) kernMapped kernSymbols halloc i
      rw [(frame_eq (show 0 + pgSize ≤ 2 ^ 64 by decide)).2.1, storeWord, if_neg (by decide)] at hinit
      rw [hsome, hinit]
      rfl
  refine ⟨s, reach_kern hrun hmax, rfl, hempty, hfault, fun hall => ?_⟩
  obtain ⟨r, hr, -⟩ := hall.returns
  rw [hfault] at hr
  cases hr

end Table
end GuideOS
