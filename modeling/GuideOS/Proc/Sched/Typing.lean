import GuideOS.Proc.Sched

/-!
# Lock typing of kernel code

`Typed t k H` says that the code `k` of the thread `t` fits a CPU that holds
exactly the locks `H`: whatever touches the queues runs with `sched.lock`, the
scheduler and a resumed process run with `sched.lock` alone, the console buffer
is used with `console_read_lock`, and interrupts come back on only with no lock.
A test that panics on a wrong set of locks needs no type after the panic, so the
code of a careless client is typed too.
-/

namespace GuideOS
namespace Sched

/-- Scheduler code: it runs on the thread of a CPU, with `sched.lock` only, and
nothing follows it. -/
def InScheduler (t : ThreadId) (k : Code) (H : Finset LockId) : Prop :=
  (∃ c, t = .cpu c) ∧ H = {.sched} ∧ k = []

def Typed (t : ThreadId) : Code → Finset LockId → Prop
  | [], _ => True
  | .acquire l :: k, H => l ∉ H → Typed t k (insert l H)
  | .spin l :: k, H => l ∉ H ∧ Typed t k (insert l H)
  | .release l :: k, H => l ∈ H → Typed t k (H.erase l)
  | .addCheck _ :: k, H => Typed t k H
  | .addReady _ :: k, H => .sched ∈ H ∧ Typed t k H
  | .startCpu :: k, H => (∃ c, t = .cpu c) ∧ H = ∅ ∧ k = [.acquire .sched, .pick]
  | .pick :: k, H => InScheduler t k H
  | .dispatch _ :: k, H => InScheduler t k H
  | .requeue :: k, H => InScheduler t k H
  | .clearProc :: k, H => InScheduler t k H
  | .yieldMark :: k, H => .sched ∈ H ∧ Typed t k H
  | .switchOut :: k, H => H = {.sched} → Typed t k H
  | .restoreInt _ :: k, H => H = {.sched} ∧ Typed t k H
  | .sleepEnter _ _ :: k, H => Typed t k H
  | .setSleeping p _ :: k, H => t = .proc p ∧ Typed t k H
  | .clearChan p :: k, H => t = .proc p ∧ .sched ∈ H ∧ Typed t k H
  | .wakeLoop _ _ :: k, H => .sched ∈ H ∧ Typed t k H
  | .pushReady _ :: k, H => .sched ∈ H ∧ Typed t k H
  | .kentry :: k, H => H = {.sched} ∧ Typed t k H
  | .tick :: k, H => Typed t k H
  | .conRead :: k, H => Typed t k H
  | .maybeYield :: k, H => Typed t k H
  | .iret intFlag :: k, H => (intFlag = true → H = ∅) ∧ Typed t k H
  | .isrRead _ :: k, H => .consoleRead ∈ H ∧ Typed t k H
  | .getcTry :: k, H => .consoleRead ∈ H ∧ Typed t k (H.erase .consoleRead)
  | .ret _ :: k, H => Typed t k H

section

variable {t : ThreadId} {k : Code} {H : Finset LockId}

theorem typed_schedYield (h : Typed t k H) : Typed t (schedYield ++ k) H := by
  intro hs
  refine ⟨Finset.mem_insert_self _ _, fun hH => ?_⟩
  intro _
  rw [Finset.erase_insert hs]
  exact h

/-- `sched_sleep` ends with the locks it started with, if it gets past its
tests. -/
theorem typed_sleepBody {p : ProcId} {chan : Chan} {lk : LockId} (h : Typed (.proc p) k H) :
    Typed (.proc p) (sleepBody p chan lk ++ k) H := by
  rw [sleepBody]
  by_cases hlk : lk = .sched
  · rw [if_pos hlk]
    refine ⟨rfl, fun hH => ⟨rfl, by rw [hH]; simp, h⟩⟩
  · rw [if_neg hlk]
    intro hs hmem
    refine ⟨rfl, fun hH => ⟨rfl, by rw [hH]; simp, fun _ _ => ?_⟩⟩
    have hback : insert lk ((insert LockId.sched H).erase lk) = insert .sched H :=
      Finset.insert_erase hmem
    rw [hback, Finset.erase_insert hs]
    exact h

theorem typed_schedWakeup {chan : Chan} (h : Typed t k H) :
    Typed t (schedWakeup chan ++ k) H := by
  intro hs
  refine ⟨Finset.mem_insert_self _ _, fun _ => ?_⟩
  rw [Finset.erase_insert hs]
  exact h

theorem typed_consoleIsrHandler {uartEnable : Bool} {bytes : List (BitVec 8)} (h : Typed t k H) :
    Typed t (consoleIsrHandler uartEnable bytes ++ k) H := by
  cases uartEnable with
  | false => exact h
  | true =>
      intro hr
      refine ⟨Finset.mem_insert_self _ _, ?_⟩
      show Typed t (schedWakeup .consoleFifo ++ [.release .consoleRead] ++ k) _
      rw [List.append_assoc]
      refine typed_schedWakeup fun _ => ?_
      rw [Finset.erase_insert hr]
      exact h

theorem typed_handleInterrupt {uartEnable : Bool} {i : Irq} (h : Typed t k ∅) :
    Typed t (handleInterrupt uartEnable i ++ .iret true :: k) ∅ := by
  have hend : Typed t (.maybeYield :: .iret true :: k) ∅ := ⟨fun _ => rfl, h⟩
  cases i with
  | spurious => exact hend
  | timer => exact hend
  | com1 bytes =>
      show Typed t (consoleIsrHandler uartEnable bytes ++ [.maybeYield] ++ _) ∅
      rw [List.append_assoc]
      exact typed_consoleIsrHandler hend

theorem typed_handleSyscall {s : Syscall} {intFlag : Bool} (h : intFlag = true → H = ∅) :
    Typed t (handleSyscall s ++ [.iret intFlag]) H := by
  have hend : Typed t (.maybeYield :: [.iret intFlag]) H := ⟨h, trivial⟩
  cases s with
  | yield =>
      show Typed t (schedYield ++ [.maybeYield] ++ _) H
      rw [List.append_assoc]
      exact typed_schedYield hend
  | conRead => exact hend
  | unknown => exact hend

theorem typed_schedAdd {p : ProcId} : Typed t (schedAdd p) H := fun _ =>
  ⟨Finset.mem_insert_self _ _, fun _ => trivial⟩

theorem typed_consoleGetc : Typed t consoleGetc H := fun _ =>
  ⟨Finset.mem_insert_self _ _, trivial⟩

theorem typed_procKentry : Typed t procKentry {.sched} :=
  ⟨rfl, fun _ => ⟨fun _ => by simp, trivial⟩⟩

end

end Sched
end GuideOS
