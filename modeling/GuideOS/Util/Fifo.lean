import GuideOS.Lib.Trace
import Mathlib.Data.List.Infix
import Mathlib.Data.Nat.ModEq
import Mathlib.Logic.Function.Basic

/-!
# The single-producer single-consumer ring

One producer calls `spsc_fifo_write` and one consumer calls `spsc_fifo_read`.
The two indices are atomics and nothing else synchronises the sides, so each
load, store and buffer access is a step of its own and the other side may run
between any two of them.  A side keeps what it has loaded in its program
counter.

The lists at the end of the machine record what happened: the bytes whose write
index has been stored, the bytes whose write has returned `OSERR_OK`, and the
same for the read side.
-/

namespace GuideOS
namespace Fifo

inductive OsError
  | ok
  | invalidArgument
  | noMemory
  deriving DecidableEq, Repr

structure SpscFifo where
  buffer : Nat → UInt8
  bufferSize : Nat
  read : Nat
  write : Nat

def spscFifoInit (buffer : Nat → UInt8) (bufferSize : Nat) : SpscFifo :=
  { buffer := buffer, bufferSize := bufferSize, read := 0, write := 0 }

/-- `(cur + 1) % f->buffer_size` on `size_t`. -/
def SpscFifo.succ (f : SpscFifo) (cur : Nat) : Nat :=
  (cur + 1) % 2 ^ 64 % f.bufferSize

/-- Where the producer is in `spsc_fifo_write`. -/
inductive WritePc
  | idle
  | loadRead (byte : UInt8)
  | loadWrite (byte : UInt8) (curRead : Nat)
  | storeBuffer (byte : UInt8) (curWrite : Nat)
  | storeWrite (byte : UInt8) (curWrite : Nat)
  | ret (byte : UInt8) (err : OsError)
  deriving DecidableEq

/-- Where the consumer is in `spsc_fifo_read`. -/
inductive ReadPc
  | idle
  | loadRead
  | loadWrite (curRead : Nat)
  | loadBuffer (curRead : Nat)
  | storeRead (curRead : Nat)
  | ret (err : Int)
  deriving DecidableEq

structure Machine where
  fifo : SpscFifo
  producer : WritePc
  consumer : ReadPc
  /-- `*pOut` -/
  out : UInt8
  stored : List UInt8
  acked : List UInt8
  taken : List UInt8
  returned : List UInt8

/-- A call names whether its pointer arguments are non-null. -/
inductive Event
  | writeCall (f : Bool) (byte : UInt8)
  | writeStep
  | readCall (f pOut : Bool)
  | readStep
  deriving DecidableEq

def Event.ofProducer : Event → Bool
  | .writeCall _ _ | .writeStep => true
  | .readCall _ _ | .readStep => false

def spscFifoWrite (m : Machine) : Option Machine :=
  match m.producer with
  | .idle => none
  | .loadRead byte => some { m with producer := .loadWrite byte m.fifo.read }
  | .loadWrite byte curRead =>
      if m.fifo.succ m.fifo.write = curRead then some { m with producer := .ret byte .noMemory }
      else some { m with producer := .storeBuffer byte m.fifo.write }
  | .storeBuffer byte curWrite =>
      some { m with
        fifo.buffer := Function.update m.fifo.buffer curWrite byte
        producer := .storeWrite byte curWrite }
  | .storeWrite byte curWrite =>
      some { m with
        fifo.write := m.fifo.succ curWrite
        producer := .ret byte .ok
        stored := m.stored ++ [byte] }
  | .ret byte err =>
      some { m with
        producer := .idle
        acked := if err = .ok then m.acked ++ [byte] else m.acked }

def spscFifoRead (m : Machine) : Option Machine :=
  match m.consumer with
  | .idle => none
  | .loadRead => some { m with consumer := .loadWrite m.fifo.read }
  | .loadWrite curRead =>
      if curRead = m.fifo.write then some { m with consumer := .ret (-1) }
      else some { m with consumer := .loadBuffer curRead }
  | .loadBuffer curRead =>
      some { m with out := m.fifo.buffer curRead, consumer := .storeRead curRead }
  | .storeRead curRead =>
      some { m with
        fifo.read := m.fifo.succ curRead
        consumer := .ret 0
        taken := m.taken ++ [m.out] }
  | .ret err =>
      some { m with
        consumer := .idle
        returned := if err = 0 then m.returned ++ [m.out] else m.returned }

def step (m : Machine) : Event → Option Machine
  | .writeCall f byte =>
      if m.producer = .idle then
        some { m with producer := if f then .loadRead byte else .ret byte .invalidArgument }
      else none
  | .writeStep => spscFifoWrite m
  | .readCall f pOut =>
      if m.consumer = .idle then
        some { m with consumer := if f && pOut then .loadRead else .ret (-1) }
      else none
  | .readStep => spscFifoRead m

def Step (m : Machine) (e : Event) (m' : Machine) : Prop := step m e = some m'

/-- Both sides start after `spsc_fifo_init`, whatever the buffer holds. -/
def start (buffer : Nat → UInt8) (n : Nat) (out : UInt8) : Machine :=
  { fifo := spscFifoInit buffer n, producer := .idle, consumer := .idle, out := out,
    stored := [], acked := [], taken := [], returned := [] }

def Reachable (n : Nat) (m : Machine) : Prop :=
  ∃ buffer out l, Lib.Trace Step (start buffer n out) l m

/-! ## The invariant

Count the bytes stored and taken since the start, without wrapping.  The two
indices are these counts modulo the size, the counts differ by less than the
size, and the cells between them hold the bytes that are stored and not taken. -/

/-- The byte of a call that has stored its index and not returned. -/
def WritePc.inFlight : WritePc → List UInt8
  | .ret byte .ok => [byte]
  | _ => []

def ReadPc.inFlight (out : UInt8) : ReadPc → List UInt8
  | .ret err => if err = 0 then [out] else []
  | _ => []

/-- What the producer knows when `t` bytes are taken and `w` stored.  The read
index it has loaded may be stale: it was right when `k ≤ t` bytes were taken. -/
def WriteOk (n : Nat) (buffer : Nat → UInt8) (t w : Nat) : WritePc → Prop
  | .loadWrite _ curRead => ∃ k ≤ t, curRead = k % n ∧ w < k + n
  | .storeBuffer _ curWrite => curWrite = w % n ∧ w + 1 < t + n
  | .storeWrite byte curWrite => curWrite = w % n ∧ w + 1 < t + n ∧ buffer curWrite = byte
  | _ => True

/-- What the consumer knows when `t` bytes are taken. -/
def ReadOk (n t : Nat) (stored : List UInt8) (out : UInt8) : ReadPc → Prop
  | .loadWrite curRead => curRead = t % n
  | .loadBuffer curRead => curRead = t % n ∧ t < stored.length
  | .storeRead curRead => curRead = t % n ∧ stored[t]? = some out
  | _ => True

structure Inv (n : Nat) (m : Machine) : Prop where
  size : m.fifo.bufferSize = n
  read : m.fifo.read = m.taken.length % n
  write : m.fifo.write = m.stored.length % n
  room : m.stored.length < m.taken.length + n
  taken : m.taken <+: m.stored
  cells : ∀ i, m.taken.length ≤ i → i < m.stored.length → m.stored[i]? = some (m.fifo.buffer (i % n))
  acked : m.stored = m.acked ++ m.producer.inFlight
  returned : m.taken = m.returned ++ m.consumer.inFlight m.out
  producer : WriteOk n m.fifo.buffer m.taken.length m.stored.length m.producer
  consumer : ReadOk n m.taken.length m.stored m.out m.consumer

theorem WriteOk.mono {n t t' w : Nat} {buffer : Nat → UInt8} {pc : WritePc}
    (h : WriteOk n buffer t w pc) (ht : t ≤ t') : WriteOk n buffer t' w pc := by
  cases pc with
  | loadWrite byte curRead =>
      obtain ⟨k, hk, hr, hw⟩ := h
      exact ⟨k, Nat.le_trans hk ht, hr, hw⟩
  | storeBuffer byte curWrite => exact ⟨h.1, Nat.lt_of_lt_of_le h.2 (by omega)⟩
  | storeWrite byte curWrite => exact ⟨h.1, Nat.lt_of_lt_of_le h.2.1 (by omega), h.2.2⟩
  | idle => trivial
  | loadRead byte => trivial
  | ret byte err => trivial

theorem ReadOk.append {n t : Nat} {stored : List UInt8} {out : UInt8} {pc : ReadPc}
    (h : ReadOk n t stored out pc) (r : List UInt8) : ReadOk n t (stored ++ r) out pc := by
  cases pc with
  | loadWrite curRead => exact h
  | loadBuffer curRead => exact ⟨h.1, by rw [List.length_append]; exact Nat.lt_add_right _ h.2⟩
  | storeRead curRead =>
      refine ⟨h.1, ?_⟩
      rw [List.getElem?_append_left (List.getElem?_eq_some_iff.mp h.2).1]
      exact h.2
  | idle => trivial
  | loadRead => trivial
  | ret err => trivial

/-! ## Counts and indices -/

/-- Two counts less than the size apart have different indices. -/
theorem mod_ne_mod {n a b : Nat} (hab : a < b) (hb : b < a + n) : a % n ≠ b % n := by
  intro h
  have hdvd : n ∣ b - a := (Nat.modEq_iff_dvd' (Nat.le_of_lt hab)).mp h
  have := Nat.le_of_dvd (by omega) hdvd
  omega

theorem succ_eq {f : SpscFifo} {n k : Nat} (hf : f.bufferSize = n) (hn : 1 ≤ n) (hw : n < 2 ^ 64) :
    f.succ (k % n) = (k + 1) % n := by
  have hk : k % n < n := Nat.mod_lt k hn
  have hlt : k % n + 1 < 2 ^ 64 := by omega
  rw [SpscFifo.succ, hf, Nat.mod_eq_of_lt hlt, Nat.mod_add_mod]

/-- The full test cannot be fooled by a stale read index. -/
theorem lt_of_not_full {n t k w : Nat} (hk : k ≤ t) (hw : w < k + n) (h : (w + 1) % n ≠ k % n) :
    w + 1 < t + n := by
  have hne : w + 1 ≠ k + n := by
    intro e
    rw [e, Nat.add_mod_right] at h
    exact h rfl
  omega

theorem length_concat {l : List UInt8} {b : UInt8} : (l ++ [b]).length = l.length + 1 := by
  rw [List.length_append, List.length_singleton]

theorem prefix_concat {l r : List UInt8} {b : UInt8} (h : l <+: r) (hb : r[l.length]? = some b) :
    l ++ [b] <+: r := by
  obtain ⟨q, rfl⟩ := h
  cases q with
  | nil => simp at hb
  | cons a q =>
      rw [List.getElem?_append_right (Nat.le_refl _), Nat.sub_self] at hb
      obtain rfl : a = b := by simpa using hb
      exact ⟨q, by rw [List.append_assoc, List.singleton_append]⟩

/-! ## One step -/

section

variable {n : Nat} {m m' : Machine}

theorem inv_start {buffer : Nat → UInt8} {out : UInt8} (hn : 1 ≤ n) :
    Inv n (start buffer n out) where
  size := rfl
  read := (Nat.zero_mod n).symm
  write := (Nat.zero_mod n).symm
  room := by show 0 < 0 + n; omega
  taken := List.nil_prefix
  cells := fun i _ hi => absurd hi (Nat.not_lt_zero i)
  acked := rfl
  returned := rfl
  producer := trivial
  consumer := trivial

theorem spscFifoWrite_inv (hn : 1 ≤ n) (hw : n < 2 ^ 64) (h : Inv n m)
    (hstep : spscFifoWrite m = some m') : Inv n m' := by
  unfold spscFifoWrite at hstep
  have hp := h.producer
  have hack := h.acked
  cases hpc : m.producer with
  | idle => simp [hpc] at hstep
  | loadRead byte =>
      simp only [hpc, Option.some.injEq] at hstep
      subst hstep
      rw [hpc] at hack
      exact { h with
        acked := hack
        producer := ⟨m.taken.length, Nat.le_refl _, h.read, h.room⟩ }
  | loadWrite byte curRead =>
      rw [hpc] at hp hack
      obtain ⟨k, hk, hr, hroom⟩ := hp
      simp only [hpc] at hstep
      rw [h.write, succ_eq h.size hn hw, hr] at hstep
      split at hstep
      · injection hstep with hstep
        subst hstep
        exact { h with acked := hack, producer := trivial }
      · rename_i hfull
        injection hstep with hstep
        subst hstep
        exact { h with acked := hack, producer := ⟨rfl, lt_of_not_full hk hroom hfull⟩ }
  | storeBuffer byte curWrite =>
      rw [hpc] at hp hack
      obtain ⟨rfl, hroom⟩ := hp
      simp only [hpc, Option.some.injEq] at hstep
      subst hstep
      -- The cell written is none of those that hold a stored byte.
      refine { h with
        acked := hack
        cells := fun i hi hi' => ?_
        producer := ⟨rfl, hroom, Function.update_self _ _ _⟩ }
      have hne : i % n ≠ m.stored.length % n :=
        mod_ne_mod hi' (Nat.lt_of_lt_of_le (Nat.lt_of_succ_lt hroom) (Nat.add_le_add_right hi n))
      show _ = some (Function.update m.fifo.buffer _ byte (i % n))
      rw [Function.update_of_ne hne]
      exact h.cells i hi hi'
  | storeWrite byte curWrite =>
      rw [hpc] at hp hack
      obtain ⟨rfl, hroom, hbyte⟩ := hp
      simp only [hpc, Option.some.injEq] at hstep
      subst hstep
      have hlen : (m.stored ++ [byte]).length = m.stored.length + 1 := length_concat
      refine { h with
        write := ?_
        room := by rw [hlen]; exact hroom
        taken := h.taken.trans (List.prefix_append _ _)
        cells := fun i hi hi' => ?_
        acked := by rw [hack]; exact congrArg (· ++ [byte]) (List.append_nil _)
        producer := trivial
        consumer := h.consumer.append [byte] }
      · show m.fifo.succ _ = _
        rw [succ_eq h.size hn hw, hlen]
      · rcases Nat.lt_succ_iff_lt_or_eq.mp (Nat.lt_of_lt_of_eq hi' hlen) with hlt | rfl
        · rw [List.getElem?_append_left hlt]
          exact h.cells i hi hlt
        · rw [List.getElem?_concat_length]
          exact congrArg some hbyte.symm
  | ret byte err =>
      rw [hpc] at hack
      simp only [hpc, Option.some.injEq] at hstep
      subst hstep
      refine { h with acked := ?_, producer := trivial }
      show m.stored = _ ++ []
      cases err with
      | ok => rw [if_pos rfl, List.append_nil]; exact hack
      | invalidArgument => exact hack
      | noMemory => exact hack

theorem spscFifoRead_inv (hn : 1 ≤ n) (hw : n < 2 ^ 64) (h : Inv n m)
    (hstep : spscFifoRead m = some m') : Inv n m' := by
  unfold spscFifoRead at hstep
  have hc := h.consumer
  have hret := h.returned
  cases hpc : m.consumer with
  | idle => simp [hpc] at hstep
  | loadRead =>
      simp only [hpc, Option.some.injEq] at hstep
      subst hstep
      rw [hpc] at hret
      exact { h with returned := hret, consumer := h.read }
  | loadWrite curRead =>
      rw [hpc] at hc hret
      have hr : curRead = m.taken.length % n := hc
      simp only [hpc] at hstep
      rw [h.write, hr] at hstep
      split at hstep
      · injection hstep with hstep
        subst hstep
        exact { h with returned := hret, consumer := trivial }
      · rename_i hempty
        injection hstep with hstep
        subst hstep
        have hle : m.taken.length ≤ m.stored.length := h.taken.length_le
        have hne : m.taken.length ≠ m.stored.length := fun e => hempty (by rw [e])
        exact { h with returned := hret, consumer := ⟨rfl, Nat.lt_of_le_of_ne hle hne⟩ }
  | loadBuffer curRead =>
      rw [hpc] at hc hret
      obtain ⟨rfl, hlt⟩ := hc
      simp only [hpc, Option.some.injEq] at hstep
      subst hstep
      exact { h with
        returned := hret
        consumer := ⟨rfl, h.cells _ (Nat.le_refl _) hlt⟩ }
  | storeRead curRead =>
      rw [hpc] at hc hret
      obtain ⟨rfl, hout⟩ := hc
      simp only [hpc, Option.some.injEq] at hstep
      subst hstep
      have hlen : (m.taken ++ [m.out]).length = m.taken.length + 1 := length_concat
      have hlt := (List.getElem?_eq_some_iff.mp hout).1
      refine { h with
        read := ?_
        room := by rw [hlen]; exact Nat.lt_of_lt_of_le h.room (by omega)
        taken := ?_
        cells := fun i hi hi' => h.cells i (by rw [hlen] at hi; omega) hi'
        returned := by rw [hret]; exact congrArg (· ++ [m.out]) (List.append_nil _)
        producer := h.producer.mono (by rw [hlen]; exact Nat.le_succ _)
        consumer := trivial }
      · show m.fifo.succ _ = _
        rw [succ_eq h.size hn hw, hlen]
      · exact prefix_concat h.taken hout
  | ret err =>
      rw [hpc] at hret
      simp only [hpc, Option.some.injEq] at hstep
      subst hstep
      refine { h with returned := ?_, consumer := trivial }
      show m.taken = _ ++ []
      rw [hret]
      show _ ++ (if err = 0 then [m.out] else []) = _
      by_cases herr : err = 0
      · rw [if_pos herr, if_pos herr, List.append_nil]
      · rw [if_neg herr, if_neg herr]

theorem step_inv (hn : 1 ≤ n) (hw : n < 2 ^ 64) {e : Event} (h : Inv n m) (hstep : Step m e m') :
    Inv n m' := by
  unfold Step at hstep
  cases e with
  | writeCall f byte =>
      simp only [step] at hstep
      split at hstep
      · rename_i hidle
        injection hstep with hstep
        subst hstep
        have hack : m.stored = m.acked ++ [] := by
          have := h.acked
          rwa [hidle] at this
        cases f with
        | true => exact { h with acked := hack, producer := trivial }
        | false => exact { h with acked := hack, producer := trivial }
      · cases hstep
  | writeStep => exact spscFifoWrite_inv hn hw h hstep
  | readCall f pOut =>
      simp only [step] at hstep
      split at hstep
      · rename_i hidle
        injection hstep with hstep
        subst hstep
        have hret : m.taken = m.returned ++ [] := by
          have := h.returned
          rwa [hidle] at this
        cases f && pOut with
        | true => exact { h with returned := hret, consumer := trivial }
        | false => exact { h with returned := hret, consumer := trivial }
      · cases hstep
  | readStep => exact spscFifoRead_inv hn hw h hstep

theorem Reachable.inv (hn : 1 ≤ n) (hw : n < 2 ^ 64) (h : Reachable n m) : Inv n m := by
  obtain ⟨buffer, out, l, htrace⟩ := h
  exact htrace.invariant (step_inv hn hw) (inv_start hn)

/-! ## Whole calls

A call is followed from its first step to its return, with whatever the other
side does in between. -/

/-- `spsc_fifo_write(f, byte)` is called in `m` and returns `err` in `m'`. -/
def WriteCall (m : Machine) (l : List (Machine × Event × Machine)) (m' : Machine)
    (f : Bool) (byte : UInt8) (err : OsError) : Prop :=
  ∃ m₁ body m₂, Step m (.writeCall f byte) m₁ ∧ Lib.Trace Step m₁ body m₂ ∧
    (∀ x ∈ body, ∀ f byte, x.2.1 ≠ .writeCall f byte) ∧ m₂.producer = .ret byte err ∧
    Step m₂ .writeStep m' ∧ l = (m, .writeCall f byte, m₁) :: body ++ [(m₂, .writeStep, m')]

/-- `spsc_fifo_read(f, pOut)` is called in `m` and returns `err` in `m'`. -/
def ReadCall (m : Machine) (l : List (Machine × Event × Machine)) (m' : Machine)
    (f pOut : Bool) (err : Int) : Prop :=
  ∃ m₁ body m₂, Step m (.readCall f pOut) m₁ ∧ Lib.Trace Step m₁ body m₂ ∧
    (∀ x ∈ body, ∀ f pOut, x.2.1 ≠ .readCall f pOut) ∧ m₂.consumer = .ret err ∧
    Step m₂ .readStep m' ∧ l = (m, .readCall f pOut, m₁) :: body ++ [(m₂, .readStep, m')]

/-- From here the call may still return an error. -/
def WritePc.mayFail : WritePc → Prop
  | .loadRead _ | .loadWrite _ _ => True
  | .ret _ err => err ≠ .ok
  | _ => False

def ReadPc.mayFail : ReadPc → Prop
  | .loadRead | .loadWrite _ => True
  | .ret err => err ≠ 0
  | _ => False

/-- What one step does to the two program counters. -/
theorem readCall_producer {f pOut : Bool} (h : Step m (.readCall f pOut) m') :
    m' = { m with consumer := m'.consumer } := by
  simp only [Step, step] at h
  split at h
  · injection h with h
    rw [← h]
  · cases h

theorem writeCall_consumer {f : Bool} {byte : UInt8} (h : Step m (.writeCall f byte) m') :
    m' = { m with producer := m'.producer } := by
  simp only [Step, step] at h
  split at h
  · injection h with h
    rw [← h]
  · cases h

theorem readStep_producer (h : Step m .readStep m') : m'.producer = m.producer := by
  simp only [Step, step, spscFifoRead] at h
  split at h
  case h_3 => split at h <;> (injection h with h; rw [← h])
  case h_1 => cases h
  all_goals (injection h with h; rw [← h])

theorem writeStep_consumer (h : Step m .writeStep m') : m'.consumer = m.consumer := by
  simp only [Step, step, spscFifoWrite] at h
  split at h
  case h_3 => split at h <;> (injection h with h; rw [← h])
  case h_1 => cases h
  all_goals (injection h with h; rw [← h])

/-- A producer that may still fail changes its program counter only. -/
theorem writeStep_of_mayFail (h : Step m .writeStep m') (hpc : m.producer.mayFail) :
    m' = { m with producer := m'.producer } := by
  simp only [Step, step, spscFifoWrite] at h
  cases hp : m.producer with
  | idle => simp [hp] at h
  | loadRead byte =>
      simp only [hp, Option.some.injEq] at h
      rw [← h]
  | loadWrite byte curRead =>
      simp only [hp] at h
      split at h <;> (injection h with h; rw [← h])
  | storeBuffer byte curWrite => rw [hp] at hpc; exact hpc.elim
  | storeWrite byte curWrite => rw [hp] at hpc; exact hpc.elim
  | ret byte err =>
      rw [hp] at hpc
      have herr : err ≠ .ok := hpc
      simp only [hp, if_neg herr, Option.some.injEq] at h
      rw [← h]

theorem readStep_of_mayFail (h : Step m .readStep m') (hpc : m.consumer.mayFail) :
    m' = { m with consumer := m'.consumer } := by
  simp only [Step, step, spscFifoRead] at h
  cases hp : m.consumer with
  | idle => simp [hp] at h
  | loadRead =>
      simp only [hp, Option.some.injEq] at h
      rw [← h]
  | loadWrite curRead =>
      simp only [hp] at h
      split at h <;> (injection h with h; rw [← h])
  | loadBuffer curRead => rw [hp] at hpc; exact hpc.elim
  | storeRead curRead => rw [hp] at hpc; exact hpc.elim
  | ret err =>
      rw [hp] at hpc
      have herr : err ≠ 0 := hpc
      simp only [hp, if_neg herr, Option.some.injEq] at h
      rw [← h]

/-- Once a write has passed the full test it can only succeed. -/
theorem mayFail_of_writeStep (h : Step m .writeStep m') (hpc : m'.producer.mayFail) :
    m.producer.mayFail := by
  simp only [Step, step, spscFifoWrite] at h
  cases hp : m.producer with
  | idle => simp [hp] at h
  | loadRead byte => trivial
  | loadWrite byte curRead => trivial
  | storeBuffer byte curWrite =>
      simp only [hp, Option.some.injEq] at h
      rw [← h] at hpc
      exact hpc.elim
  | storeWrite byte curWrite =>
      simp only [hp, Option.some.injEq] at h
      rw [← h] at hpc
      exact absurd rfl hpc
  | ret byte err =>
      simp only [hp, Option.some.injEq] at h
      rw [← h] at hpc
      exact hpc.elim

theorem mayFail_of_readStep (h : Step m .readStep m') (hpc : m'.consumer.mayFail) :
    m.consumer.mayFail := by
  simp only [Step, step, spscFifoRead] at h
  cases hp : m.consumer with
  | idle => simp [hp] at h
  | loadRead => trivial
  | loadWrite curRead => trivial
  | loadBuffer curRead =>
      simp only [hp, Option.some.injEq] at h
      rw [← h] at hpc
      exact hpc.elim
  | storeRead curRead =>
      simp only [hp, Option.some.injEq] at h
      rw [← h] at hpc
      exact absurd rfl hpc
  | ret err =>
      simp only [hp, Option.some.injEq] at h
      rw [← h] at hpc
      exact hpc.elim

/-- No step of a failing write changes anything but the producer's place in it. -/
theorem WriteCall.fails {l : List (Machine × Event × Machine)} {f : Bool} {byte : UInt8}
    {err : OsError} (h : WriteCall m l m' f byte err) (herr : err ≠ .ok) :
    ∀ x ∈ l, x.2.1.ofProducer → x.2.2 = { x.1 with producer := x.2.2.producer } := by
  obtain ⟨m₁, body, m₂, hcall, hbody, hno, hpc, hret, rfl⟩ := h
  have hfail : m₂.producer.mayFail := by rw [hpc]; exact herr
  have hback := hbody.backward (P := fun s => s.producer.mayFail)
    (A := fun _ e => ∀ f byte, e ≠ .writeCall f byte) (fun {s e t} hA he ht => by
      cases e with
      | writeCall f byte => exact absurd rfl (hA f byte)
      | writeStep => exact mayFail_of_writeStep he ht
      | readCall f pOut =>
          rw [readCall_producer he] at ht
          exact ht
      | readStep =>
          rw [readStep_producer he] at ht
          exact ht) hno hfail
  intro x hx hprod
  rcases List.mem_append.mp hx with hx | hx
  · rcases List.mem_cons.mp hx with rfl | hx
    · exact writeCall_consumer hcall
    · obtain ⟨_, _, _, hstep, _⟩ := hbody.split hx
      have hmay := hback.2 x hx
      obtain ⟨s, e, t⟩ := x
      cases e with
      | writeCall f byte => exact absurd rfl (hno _ hx f byte)
      | writeStep => exact writeStep_of_mayFail hstep hmay
      | readCall f pOut => cases hprod
      | readStep => cases hprod
  · rw [List.mem_singleton.mp hx]
    exact writeStep_of_mayFail hret hfail

/-- No step of a failing read changes anything but the consumer's place in it. -/
theorem ReadCall.fails {l : List (Machine × Event × Machine)} {f pOut : Bool} {err : Int}
    (h : ReadCall m l m' f pOut err) (herr : err ≠ 0) :
    ∀ x ∈ l, ¬x.2.1.ofProducer → x.2.2 = { x.1 with consumer := x.2.2.consumer } := by
  obtain ⟨m₁, body, m₂, hcall, hbody, hno, hpc, hret, rfl⟩ := h
  have hfail : m₂.consumer.mayFail := by rw [hpc]; exact herr
  have hback := hbody.backward (P := fun s => s.consumer.mayFail)
    (A := fun _ e => ∀ f pOut, e ≠ .readCall f pOut) (fun {s e t} hA he ht => by
      cases e with
      | readCall f pOut => exact absurd rfl (hA f pOut)
      | readStep => exact mayFail_of_readStep he ht
      | writeCall f byte =>
          rw [writeCall_consumer he] at ht
          exact ht
      | writeStep =>
          rw [writeStep_consumer he] at ht
          exact ht) hno hfail
  intro x hx hprod
  rcases List.mem_append.mp hx with hx | hx
  · rcases List.mem_cons.mp hx with rfl | hx
    · exact readCall_producer hcall
    · obtain ⟨_, _, _, hstep, _⟩ := hbody.split hx
      have hmay := hback.2 x hx
      obtain ⟨s, e, t⟩ := x
      cases e with
      | readCall f pOut => exact absurd rfl (hno _ hx f pOut)
      | readStep => exact readStep_of_mayFail hstep hmay
      | writeCall f byte => exact absurd rfl hprod
      | writeStep => exact absurd rfl hprod
  · rw [List.mem_singleton.mp hx]
    exact readStep_of_mayFail hret hfail

/-! ## A write with no concurrent read -/

/-- The bytes in the buffer. -/
def Machine.count (m : Machine) : Nat := m.stored.length - m.taken.length

theorem full_iff (hn : 1 ≤ n) (h : Inv n m) :
    (m.stored.length + 1) % n = m.taken.length % n ↔ m.count = n - 1 := by
  have hle := h.taken.length_le
  have hroom := h.room
  unfold Machine.count
  constructor
  · intro heq
    by_contra hne
    exact mod_ne_mod (a := m.taken.length) (b := m.stored.length + 1) (by omega) (by omega) heq.symm
  · intro heq
    have hW : m.stored.length + 1 = m.taken.length + n := by omega
    rw [hW, Nat.add_mod_right]

/-- How far a write called in `m` has come while the consumer rests. -/
def Alone (n : Nat) (m s : Machine) : Prop :=
  Inv n s ∧ s.taken = m.taken ∧
    match s.producer with
    | .idle => True
    | .loadRead _ => s.stored = m.stored
    | .loadWrite _ curRead => s.stored = m.stored ∧ curRead = m.taken.length % n
    | .storeBuffer _ _ | .storeWrite _ _ => m.count ≠ n - 1
    | .ret _ err => err = .ok ∧ m.count ≠ n - 1 ∨ err = .noMemory ∧ m.count = n - 1

theorem Alone.writeStep (hn : 1 ≤ n) (hw : n < 2 ^ 64) (hm : Inv n m) {s t : Machine}
    (h : Alone n m s) (hstep : Step s .writeStep t) : Alone n m t := by
  obtain ⟨hinv, htaken, hpc⟩ := h
  refine ⟨step_inv hn hw hinv hstep, ?_⟩
  simp only [Step, step, spscFifoWrite] at hstep
  cases hp : s.producer with
  | idle => simp [hp] at hstep
  | loadRead byte =>
      simp only [hp, Option.some.injEq] at hstep hpc
      subst hstep
      exact ⟨htaken, hpc, by rw [hinv.read, htaken]⟩
  | loadWrite byte curRead =>
      simp only [hp] at hstep hpc
      obtain ⟨hstored, rfl⟩ := hpc
      rw [hinv.write, succ_eq hinv.size hn hw, hstored] at hstep
      split at hstep
      · rename_i hfull
        injection hstep with hstep
        subst hstep
        exact ⟨htaken, Or.inr ⟨rfl, (full_iff hn hm).mp hfull⟩⟩
      · rename_i hfull
        injection hstep with hstep
        subst hstep
        exact ⟨htaken, fun e => hfull ((full_iff hn hm).mpr e)⟩
  | storeBuffer byte curWrite =>
      simp only [hp, Option.some.injEq] at hstep hpc
      subst hstep
      exact ⟨htaken, hpc⟩
  | storeWrite byte curWrite =>
      simp only [hp, Option.some.injEq] at hstep hpc
      subst hstep
      exact ⟨htaken, Or.inl ⟨rfl, hpc⟩⟩
  | ret byte err =>
      simp only [hp, Option.some.injEq] at hstep
      subst hstep
      exact ⟨htaken, trivial⟩

/-- A write during which the consumer makes no step fails exactly when
`buffer_size - 1` bytes are stored. -/
theorem WriteCall.alone (hn : 1 ≤ n) (hw : n < 2 ^ 64) (h : Inv n m)
    {l : List (Machine × Event × Machine)} {byte : UInt8} {err : OsError}
    (hcall : WriteCall m l m' true byte err) (hl : ∀ x ∈ l, x.2.1.ofProducer) :
    err = .ok ∧ m.count ≠ n - 1 ∨ err = .noMemory ∧ m.count = n - 1 := by
  obtain ⟨m₁, body, m₂, hfirst, hbody, hno, hpc, _, rfl⟩ := hcall
  have hm₁ : Alone n m m₁ := by
    refine ⟨step_inv hn hw h hfirst, ?_⟩
    simp only [Step, step] at hfirst
    split at hfirst
    · injection hfirst with hfirst
      subst hfirst
      exact ⟨rfl, rfl⟩
    · cases hfirst
  have honly : ∀ x ∈ body, x.2.1 = .writeStep := by
    intro x hx
    have hprod := hl x (List.mem_append_left _ (List.mem_cons_of_mem _ hx))
    cases he : x.2.1 with
    | writeCall f byte => exact absurd he (hno x hx f byte)
    | writeStep => rfl
    | readCall f pOut => rw [he] at hprod; cases hprod
    | readStep => rw [he] at hprod; cases hprod
  have hm₂ : Alone n m m₂ :=
    hbody.forward (A := fun _ e => e = .writeStep)
      (fun he hs ht => by subst he; exact hs.writeStep hn hw h ht) honly hm₁
  have hend := hm₂.2.2
  simp only [hpc] at hend
  exact hend

/-- A write whose consumer rests does return. -/
theorem exists_writeCall (hidle : m.producer = .idle) (byte : UInt8) :
    ∃ l m' err, WriteCall m l m' true byte err ∧ ∀ x ∈ l, x.2.1.ofProducer := by
  have hfirst : Step m (.writeCall true byte) { m with producer := .loadRead byte } := by
    simp [Step, step, hidle]
  have hload : Step { m with producer := .loadRead byte } .writeStep
      { m with producer := .loadWrite byte m.fifo.read } := rfl
  by_cases hfull : m.fifo.succ m.fifo.write = m.fifo.read
  · have htest : Step { m with producer := .loadWrite byte m.fifo.read } .writeStep
        { m with producer := .ret byte .noMemory } := by
      simp [Step, step, spscFifoWrite, hfull]
    refine ⟨_, _, .noMemory, ⟨_, _, _, hfirst, .cons hload (.cons htest (.nil _)), ?_, rfl,
      Eq.refl _, rfl⟩, ?_⟩
    · simp
    · simp [Event.ofProducer]
  · have htest : Step { m with producer := .loadWrite byte m.fifo.read } .writeStep
        { m with producer := .storeBuffer byte m.fifo.write } := by
      simp [Step, step, spscFifoWrite, hfull]
    have hbuffer : Step { m with producer := .storeBuffer byte m.fifo.write } .writeStep
        { m with
          fifo.buffer := Function.update m.fifo.buffer m.fifo.write byte
          producer := .storeWrite byte m.fifo.write } := rfl
    have hstore : Step { m with
          fifo.buffer := Function.update m.fifo.buffer m.fifo.write byte
          producer := .storeWrite byte m.fifo.write } .writeStep
        { m with
          fifo.buffer := Function.update m.fifo.buffer m.fifo.write byte
          fifo.write := m.fifo.succ m.fifo.write
          producer := .ret byte .ok
          stored := m.stored ++ [byte] } := rfl
    refine ⟨_, _, .ok, ⟨_, _, _, hfirst,
      .cons hload (.cons htest (.cons hbuffer (.cons hstore (.nil _)))), ?_, rfl,
      Eq.refl _, rfl⟩, ?_⟩
    · simp
    · simp [Event.ofProducer]

/-- The cell the consumer is about to read holds the next byte, and the producer
is not at work on it. -/
theorem Inv.loadBuffer (h : Inv n m) {r : Nat} (hr : m.consumer = .loadBuffer r) :
    m.stored[m.taken.length]? = some (m.fifo.buffer r) ∧
      ∀ byte w, m.producer = .storeBuffer byte w ∨ m.producer = .storeWrite byte w → w ≠ r := by
  have hc := h.consumer
  rw [hr] at hc
  obtain ⟨rfl, hlt⟩ := hc
  refine ⟨h.cells _ (Nat.le_refl _) hlt, fun byte w hw => ?_⟩
  have hp := h.producer
  have hcell : w = m.stored.length % n ∧ m.stored.length + 1 < m.taken.length + n := by
    rcases hw with hw | hw
    · rw [hw] at hp
      exact hp
    · rw [hw] at hp
      exact ⟨hp.1, hp.2.1⟩
  rw [hcell.1]
  exact (mod_ne_mod hlt (Nat.lt_of_succ_lt hcell.2)).symm

/-- The ring is linear in every interleaving of one producer and one consumer. -/
theorem run_linear (hn : 1 ≤ n) (hw : n < 2 ^ 64) (h : Reachable n m) :
    (m.fifo.read < n ∧ m.fifo.write < n) ∧
    (m.returned <+: m.stored ∧ m.stored = m.acked ++ m.producer.inFlight) ∧
    (∀ r, m.consumer = .loadBuffer r → m.stored[m.taken.length]? = some (m.fifo.buffer r) ∧
      ∀ byte w, m.producer = .storeBuffer byte w ∨ m.producer = .storeWrite byte w → w ≠ r) ∧
    (∀ byte, m.producer = .idle →
      (∃ l m' err, WriteCall m l m' true byte err ∧ ∀ x ∈ l, x.2.1.ofProducer) ∧
      ∀ l m' err, WriteCall m l m' true byte err → (∀ x ∈ l, x.2.1.ofProducer) →
        (err ≠ .ok ↔ m.count = n - 1)) ∧
    (∀ l m' f byte err, WriteCall m l m' f byte err → err ≠ .ok →
      ∀ x ∈ l, x.2.1.ofProducer → x.2.2 = { x.1 with producer := x.2.2.producer }) ∧
    (∀ l m' f pOut err, ReadCall m l m' f pOut err → err ≠ 0 →
      ∀ x ∈ l, ¬x.2.1.ofProducer → x.2.2 = { x.1 with consumer := x.2.2.consumer }) := by
  have hinv := h.inv hn hw
  refine ⟨⟨?_, ?_⟩, ⟨?_, hinv.acked⟩, fun r hr => hinv.loadBuffer hr, fun byte hidle => ⟨?_, ?_⟩,
    fun l m' f byte err hcall herr => hcall.fails herr,
    fun l m' f pOut err hcall herr => hcall.fails herr⟩
  · rw [hinv.read]
    exact Nat.mod_lt _ hn
  · rw [hinv.write]
    exact Nat.mod_lt _ hn
  · have hpre : m.returned <+: m.taken := ⟨_, hinv.returned.symm⟩
    exact hpre.trans hinv.taken
  · exact exists_writeCall hidle byte
  · intro l m' err hcall hl
    rcases hcall.alone hn hw hinv hl with ⟨rfl, hcount⟩ | ⟨rfl, hcount⟩
    · exact iff_of_false (fun hne => hne rfl) hcount
    · exact iff_of_true OsError.noConfusion hcount

/-- A ring of two cells: a byte is written, and a call of the consumer returns it. -/
theorem run_linear_two : ∃ m, Reachable 2 m ∧ m.stored = [7] ∧ m.returned = [7] ∧ m.consumer = .idle ∧
    m.fifo.read < 2 := by
  have hreach : ∃ m, Reachable 2 m ∧ m.stored = [7] ∧ m.returned.length = 1 ∧ m.consumer = .idle := by
    obtain ⟨l, hl⟩ := Lib.exists_trace_of_foldlM (f := step) (s := start (fun _ => 0) 2 0)
      [.writeCall true 7, .writeStep, .writeStep, .writeStep, .writeStep, .writeStep,
        .readCall true true, .readStep, .readStep, .readStep, .readStep, .readStep] rfl
    exact ⟨_, ⟨_, _, l, hl⟩, rfl, rfl, rfl⟩
  obtain ⟨m, hm, hstored, hlen, hidle⟩ := hreach
  have hlinear := run_linear (by decide) (by decide) hm
  have hprefix := hlinear.2.1.1
  rw [hstored] at hprefix
  exact ⟨m, hm, hstored, hprefix.eq_of_length hlen, hidle, hlinear.1.1⟩

end

end Fifo
end GuideOS
