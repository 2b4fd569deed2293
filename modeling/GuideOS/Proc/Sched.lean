import GuideOS.Proc.Cpu
import Mathlib.Data.Finset.Card
import Mathlib.Data.Fintype.Sum
import Mathlib.Logic.Function.Basic
import Mathlib.Tactic.DeriveFintype

/-!
# Scheduler, console input and interrupts

`proc/sched.c`, `spinlock.c`, the console input of `arch/x86/console.c` and
`handle_interrupt` of `arch/x86/interrupt.c`, on any number of CPUs.

Kernel code is a list of instructions, one for each piece between two points
where another CPU or an interrupt can step in.  The code a thread still has to
run stays with the thread, so a context switch changes only which thread the CPU
executes, and an interrupt puts its handler in front of the code it interrupts.
A thread with no code left is in a client of these functions, which may call any
of them; a process that waits in `sched_ctxsw` has the code after the switch.

A spinlock is the CPU that holds it.  The queues are lists.  `flag`, `passed` and
`added` are history: the interrupt flag a thread had before its outermost
`acquire`, the processes given to `sched_add`, and those it has queued.
-/

namespace GuideOS
namespace Sched

inductive ProcState
  | unused
  | creation
  | sleeping
  | runnable
  | running
  | zombie
deriving DecidableEq, Repr

/-- The sleep channels: null, `&console_fifo`, which is private to the console,
and the others. -/
inductive Chan
  | null
  | consoleFifo
  | other (n : Nat)
deriving DecidableEq, Repr

/-- The number of spinlocks, of 32 bytes each, that fit the 4 GiB of memory the
kernel manages. -/
def maxLocks : Nat := 2 ^ 27

/-- The spinlocks: `sched.lock`, `console_read_lock`, and the others. -/
inductive LockId
  | sched
  | consoleRead
  | other (n : Fin maxLocks)
deriving DecidableEq, Fintype

structure Proc where
  state : ProcState
  chan : Chan
deriving DecidableEq, Repr

inductive Instr
  /-- `acquire` up to the exchange: `push_int_disable` and the test of `holding` -/
  | acquire (l : LockId)
  /-- the exchange loop of `acquire` -/
  | spin (l : LockId)
  | release (l : LockId)
  /-- the test of `sched_add` -/
  | addCheck (p : ProcId)
  /-- `dequeue_push_back(&sched.ready_queue, proc)` of `sched_add` -/
  | addReady (p : ProcId)
  /-- `sched_start` up to `enable_interrupt` -/
  | startCpu
  /-- the choice of the next process in `sched_start` -/
  | pick
  /-- `c->proc = p; p->state = RUNNING; sched_ctxsw(..)` -/
  | dispatch (p : ProcId)
  /-- the `dequeue_push_back` after the switch back to the scheduler -/
  | requeue
  /-- `c->proc = NULL` -/
  | clearProc
  /-- the test and the mark of `sched_yield` -/
  | yieldMark
  /-- `sched_switch_out` up to `sched_ctxsw` -/
  | switchOut
  /-- `cur_cpu()->int_enabled = intena` -/
  | restoreInt (intena : Bool)
  /-- `sched_sleep` up to its locking -/
  | sleepEnter (chan : Chan) (lk : LockId)
  /-- `p->chan = chan; p->state = SLEEPING` -/
  | setSleeping (p : ProcId) (chan : Chan)
  /-- `p->chan = NULL` -/
  | clearChan (p : ProcId)
  /-- the loop of `sched_wakeup`, with the iterator before element `i` -/
  | wakeLoop (chan : Chan) (i : Nat)
  /-- `dequeue_push_back(&sched.ready_queue, p)` of `sched_wakeup` -/
  | pushReady (p : ProcId)
  /-- the test of `proc_kentry` -/
  | kentry
  /-- the timer case of `handle_interrupt` -/
  | tick
  /-- `sys_con_read` -/
  | conRead
  /-- the end of `handle_interrupt` -/
  | maybeYield
  /-- the return from an interrupt, with the saved flag -/
  | iret (intFlag : Bool)
  /-- the read loop of `console_isr_handler`, with what the UART delivers -/
  | isrRead (bytes : List (BitVec 8))
  /-- the test of the loop of `console_getc` -/
  | getcTry
  /-- the return value of `console_getc` -/
  | ret (val : Nat)
deriving DecidableEq

abbrev Code := List Instr

structure Machine where
  cpu : Nat → Cpu
  proc : ProcId → Proc
  code : ThreadId → Code
  readyQueue : List ProcId
  waitingQueue : List ProcId
  owner : LockId → Option Nat
  uartEnable : Bool
  consoleFifo : List (BitVec 8)
  flag : ThreadId → Option Bool
  passed : List ProcId
  added : List ProcId

/-! ## Kernel functions -/

def schedAdd (p : ProcId) : Code := [.addCheck p, .acquire .sched, .addReady p, .release .sched]

def schedStart : Code := [.startCpu, .acquire .sched, .pick]

def schedYield : Code := [.acquire .sched, .yieldMark, .switchOut, .release .sched]

/-- `sched_sleep` after its tests, for the current process `p`. -/
def sleepBody (p : ProcId) (chan : Chan) (lk : LockId) : Code :=
  if lk = .sched then
    [.setSleeping p chan, .switchOut, .clearChan p]
  else
    [.acquire .sched, .release lk, .setSleeping p chan, .switchOut, .clearChan p, .acquire lk,
      .release .sched]

def schedWakeup (chan : Chan) : Code := [.acquire .sched, .wakeLoop chan 0, .release .sched]

/-- What `sched_create_kproc` prepares: `proc_kentry`, then the return from the
trap frame, which enables interrupts. -/
def procKentry : Code := [.kentry, .release .sched, .iret true]

def consoleIsrHandler (uartEnable : Bool) (bytes : List (BitVec 8)) : Code :=
  if uartEnable then
    .acquire .consoleRead :: .isrRead bytes ::
      (schedWakeup .consoleFifo ++ [.release .consoleRead])
  else []

def consoleGetc : Code := [.acquire .consoleRead, .getcTry]

/-- The filter of `console_getc`, with `BACKSPACE` as `0x100`. -/
def filterChar (val : BitVec 8) : Nat := if val = 0x7f ∨ val = 0x08 then 0x100 else val.toNat

/-- A ring of `CON_FIFO_SIZE` cells holds one byte less. -/
def conFifoSize : Nat := 32

/-- The interrupts that `handle_interrupt` returns from. -/
inductive Irq
  | spurious
  | timer
  | com1 (bytes : List (BitVec 8))
deriving DecidableEq

def handleInterrupt (uartEnable : Bool) : Irq → Code
  | .spurious => [.maybeYield]
  | .timer => [.tick, .maybeYield]
  | .com1 bytes => consoleIsrHandler uartEnable bytes ++ [.maybeYield]

inductive Syscall
  | yield
  | conRead
  | unknown
deriving DecidableEq

def handleSyscall : Syscall → Code
  | .yield => schedYield ++ [.maybeYield]
  | .conRead => [.conRead, .maybeYield]
  | .unknown => [.maybeYield]

/-! ## One instruction -/

namespace Machine

/-- The code the CPU runs next. -/
def next (m : Machine) (c : Nat) : Code := m.code (m.cpu c).running

def setCpu (m : Machine) (c : Nat) (x : Cpu) : Machine :=
  { m with cpu := Function.update m.cpu c x }

def setProc (m : Machine) (p : ProcId) (x : Proc) : Machine :=
  { m with proc := Function.update m.proc p x }

def setOwner (m : Machine) (l : LockId) (o : Option Nat) : Machine :=
  { m with owner := Function.update m.owner l o }

/-- Go on with the code `k`. -/
def goto (m : Machine) (c : Nat) (k : Code) : Machine :=
  { m with code := Function.update m.code (m.cpu c).running k }

/-- `panic`: the CPU stops with interrupts off. -/
def fail (m : Machine) (c : Nat) (e : Panic) : Machine :=
  m.setCpu c { m.cpu c with panicked := some e, intFlag := false }

/-- A call of `curproc`. -/
def callCurproc (m : Machine) (c : Nat) : Machine := m.setCpu c (m.cpu c).curproc

/-- If the current process is `RUNNING` it becomes `RUNNABLE`. -/
def markRunnable (m : Machine) (p : ProcId) : Machine :=
  if (m.proc p).state = .running then m.setProc p { m.proc p with state := .runnable } else m

end Machine

/-- Run the first instruction of the code on a CPU; `k` is the rest.  `none` is a
lock that is taken. -/
def exec (m : Machine) (c : Nat) (k : Code) : Instr → Option Machine
  | .acquire l =>
      let x := m.cpu c
      let m' := { m.setCpu c x.pushIntDisable with
        flag := if x.intDisableLayer = 0 then Function.update m.flag x.running (some x.intFlag)
          else m.flag }
      if m.owner l = some c then some (m'.fail c .acquire)
      else some (m'.goto c (.spin l :: k))
  | .spin l =>
      if m.owner l = none then some ((m.setOwner l (some c)).goto c k) else none
  | .release l =>
      if m.owner l = some c then
        match (m.cpu c).popIntDisable with
        | none => some ((m.setOwner l none).fail c .curCpuWithIf)
        | some x =>
            some ({ (m.setOwner l none).setCpu c x with
              flag := if x.intDisableLayer = 0 then Function.update m.flag x.running none
                else m.flag }.goto c k)
      else some (m.fail c .release)
  | .addCheck p =>
      if (m.proc p).state = .runnable then some (m.goto c k)
      else some (m.fail c .schedAddNotReady)
  | .addReady p =>
      some ({ m with readyQueue := m.readyQueue ++ [p], added := p :: m.added }.goto c k)
  | .startCpu =>
      if (m.cpu c).intFlag then some (m.fail c .curCpuWithIf)
      else
        let m := m.setCpu c { m.cpu c with proc := none, intFlag := true }
        let m := m.setProc (.idle c) { m.proc (.idle c) with state := .runnable }
        some ({ m with code := Function.update m.code (.proc (.idle c)) procKentry }.goto c k)
  | .pick =>
      match m.readyQueue with
      | p :: ps => some ({ m with readyQueue := ps }.goto c [.dispatch p])
      | [] => some (m.goto c [.dispatch (.idle c)])
  | .dispatch p =>
      let m := m.goto c [.requeue]
      let m := m.setProc p { m.proc p with state := .running }
      some (m.setCpu c { m.cpu c with proc := some p, running := .proc p })
  | .requeue =>
      let m := m.goto c [.clearProc]
      match (m.cpu c).proc with
      | none => some m
      | some p =>
          if p = .idle c then some m
          else if (m.proc p).state = .runnable then
            some { m with readyQueue := m.readyQueue ++ [p] }
          else some { m with waitingQueue := m.waitingQueue ++ [p] }
  | .clearProc => some ((m.setCpu c { m.cpu c with proc := none }).goto c [.pick])
  | .yieldMark =>
      let m := m.callCurproc c
      match (m.cpu c).proc with
      | none => some (m.fail c .nullProc)
      | some p => some ((m.markRunnable p).goto c k)
  | .switchOut =>
      let m := m.callCurproc c
      if m.owner .sched ≠ some c then some (m.fail c .switchOutLock)
      else if (m.cpu c).intDisableLayer ≠ 1 then some (m.fail c .switchOutLockCount)
      else
        match (m.cpu c).proc with
        | none => some (m.fail c .nullProc)
        | some p =>
            if (m.proc p).state = .running then some (m.fail c .switchingOutRunning)
            else
              let m := { m with
                code := Function.update m.code (.proc p) (.restoreInt (m.cpu c).intEnabled :: k) }
              some (m.setCpu c { m.cpu c with running := .cpu c })
  | .restoreInt intena => some ((m.setCpu c { m.cpu c with intEnabled := intena }).goto c k)
  | .sleepEnter chan lk =>
      let m := m.callCurproc c
      match (m.cpu c).proc with
      | none => some (m.fail c .schedSleep)
      | some p => some (m.goto c (sleepBody p chan lk ++ k))
  | .setSleeping p chan => some ((m.setProc p { state := .sleeping, chan := chan }).goto c k)
  | .clearChan p => some ((m.setProc p { m.proc p with chan := .null }).goto c k)
  | .wakeLoop chan i =>
      match m.waitingQueue[i]? with
      | none => some (m.goto c k)
      | some p =>
          if (m.proc p).chan = chan then
            some ({ m with waitingQueue := m.waitingQueue.eraseIdx i }.goto c
              (.pushReady p :: .wakeLoop chan i :: k))
          else some (m.goto c (.wakeLoop chan (i + 1) :: k))
  | .pushReady p => some ({ m with readyQueue := m.readyQueue ++ [p] }.goto c k)
  | .kentry =>
      let m := m.callCurproc c
      match (m.cpu c).proc with
      | none => some (m.fail c .noCurproc)
      | some _ => some (m.goto c k)
  | .tick =>
      let m := m.callCurproc c
      match (m.cpu c).proc with
      | none => some (m.goto c k)
      | some p => some ((m.markRunnable p).goto c k)
  | .conRead =>
      let m := m.callCurproc c
      match (m.cpu c).proc with
      | none => some (m.fail c .nullProc)
      | some p => some ((m.markRunnable p).goto c k)
  | .maybeYield =>
      let m := m.callCurproc c
      match (m.cpu c).proc with
      | none => some (m.goto c k)
      | some p =>
          if (m.proc p).state = .running then some (m.goto c k)
          else some (m.goto c (schedYield ++ k))
  | .iret intFlag => some ((m.setCpu c { m.cpu c with intFlag := intFlag }).goto c k)
  | .isrRead bytes =>
      let fifo := m.consoleFifo ++ bytes
      if fifo.length < conFifoSize then some ({ m with consoleFifo := fifo }.goto c k)
      else some ({ m with consoleFifo := fifo.take (conFifoSize - 1) }.fail c .uartBufferFull)
  | .getcTry =>
      match m.consoleFifo with
      | [] => some (m.goto c (.sleepEnter .consoleFifo .consoleRead :: .getcTry :: k))
      | val :: rest =>
          some ({ m with consoleFifo := rest }.goto c
            (.release .consoleRead :: .ret (filterChar val) :: k))
  | .ret _ => some (m.goto c k)

/-! ## Steps -/

/-- What client code may do. -/
inductive Call
  | acquire (l : LockId)
  | release (l : LockId)
  | curproc
  /-- `sti` or `cli` -/
  | setInterrupt (on : Bool)
  /-- `proc_alloc` and `sched_create_kproc` -/
  | schedCreateKproc (p : ProcId)
  | schedAdd (p : ProcId)
  | schedStart
  | schedYield
  | schedSleep (chan : Nat) (lk : LockId)
  | schedWakeup (chan : Nat)
  | consoleGetc
  | syscall (s : Syscall)
deriving DecidableEq

def call (m : Machine) (c : Nat) : Call → Machine
  | .acquire l => m.goto c [.acquire l]
  | .release l => m.goto c [.release l]
  | .curproc => m.callCurproc c
  | .setInterrupt on => m.setCpu c { m.cpu c with intFlag := on }
  | .schedCreateKproc p =>
      { m.setProc p { state := .runnable, chan := .null } with
        code := Function.update m.code (.proc p) procKentry }
  | .schedAdd p => { m with passed := p :: m.passed }.goto c (schedAdd p)
  | .schedStart => m.goto c schedStart
  | .schedYield => m.goto c schedYield
  | .schedSleep chan lk => m.goto c [.sleepEnter (.other chan) lk]
  | .schedWakeup chan => m.goto c (schedWakeup (.other chan))
  | .consoleGetc => m.goto c consoleGetc
  | .syscall s => m.goto c (handleSyscall s ++ [.iret (m.cpu c).intFlag])

inductive Event
  /-- The CPU runs its next instruction. -/
  | exec
  /-- The client code on the CPU makes a call. -/
  | call (a : Call)
  | irq (i : Irq)
deriving DecidableEq

/-- The idle process only waits for interrupts. -/
def isIdle : ThreadId → Bool
  | .proc (.idle _) => true
  | _ => false

def step (m : Machine) (c : Nat) (e : Event) : Option Machine :=
  if (m.cpu c).panicked ≠ none then none
  else
    match e with
    | .exec =>
        match m.next c with
        | [] => none
        | i :: k => exec m c k i
    | .call a => if m.next c = [] ∧ isIdle (m.cpu c).running = false then some (call m c a) else none
    | .irq i =>
        if (m.cpu c).intFlag then
          some ((m.setCpu c { m.cpu c with intFlag := false }).goto c
            (handleInterrupt m.uartEnable i ++ .iret true :: m.next c))
        else none

/-- The locks a CPU holds. -/
def Machine.held (m : Machine) (c : Nat) : Finset LockId :=
  Finset.univ.filter fun l => m.owner l = some c

/-- What the clients of these functions keep to: `console_read_lock` is private
to the console, interrupts are switched by hand only outside every lock, a
process is made once and added once, and a CPU starts its scheduler from its boot
code, with no lock. -/
def Legal (m : Machine) (c : Nat) : Event → Prop
  | .call (.acquire l) => l ≠ .consoleRead
  | .call (.release l) => l ≠ .consoleRead
  | .call (.setInterrupt _) => m.held c = ∅
  | .call (.schedCreateKproc p) => (∃ n, p = .user n) ∧ (m.proc p).state = .unused
  | .call (.schedAdd p) => (∃ n, p = .user n) ∧ (m.proc p).state ≠ .unused ∧ p ∉ m.passed
  | .call .schedStart => (m.cpu c).running = .cpu c ∧ m.held c = ∅
  | .call (.schedSleep _ lk) => lk ≠ .consoleRead
  | _ => True

/-- All CPUs in their boot code, no process made, the queues empty. -/
def Machine.boot (uartEnable : Bool) : Machine where
  cpu c :=
    { proc := none
      intDisableLayer := 0
      intEnabled := false
      intFlag := false
      running := .cpu c
      panicked := none }
  proc _ := { state := .unused, chan := .null }
  code _ := []
  readyQueue := []
  waitingQueue := []
  owner _ := none
  uartEnable := uartEnable
  consoleFifo := []
  flag _ := none
  passed := []
  added := []

inductive Reachable : Machine → Prop
  | boot (uartEnable : Bool) : Reachable (Machine.boot uartEnable)
  | step {m m' : Machine} {c : Nat} {e : Event} (h : Reachable m) (hlegal : Legal m c e)
      (hstep : step m c e = some m') : Reachable m'

end Sched
end GuideOS
