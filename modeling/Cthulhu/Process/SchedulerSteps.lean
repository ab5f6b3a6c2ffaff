import Cthulhu.Process.Futex

/-!
# Steps of the scheduler

The lock-protected sections of the scheduler as the operations of a run, one section of one
CPU after the other in any order. Apart from the futex sections none of them touches a wait
list, a futex table or what a thread is blocked on.
-/

namespace Cthulhu

open Lib

/-- A section that one CPU goes through while it holds its locks. -/
inductive SchedulerOp (n : ℕ)
  | schedule (c : Fin (n + 1)) (r : Option Frame) (answer : Frame → Answer)
  | enschedule (t : ℕ) (c : Fin (n + 1))
  | enscheduleBest (t : ℕ)
  | createProcessBase (t : ℕ) (th : Thread)
  | futexWait (c : Fin (n + 1)) (ftx : ℕ)
  | futexWake (c : Fin (n + 1)) (ftx : ℕ) (num : ℤ)

namespace Scheduler

variable {n : ℕ}

/-- The state after one section; a CPU that finds no thread waits and changes nothing. -/
def step (st : Scheduler n) : SchedulerOp n → Scheduler n
  | .schedule c r answer => ((st.schedule r c answer).map Prod.snd).getD st
  | .enschedule t c => st.enschedule t c
  | .enscheduleBest t => (st.enscheduleBest none t).getD st
  | .createProcessBase t th => (st.createProcessBase t th).getD st
  | .futexWait c ftx => st.futexWait c ftx
  | .futexWake c ftx num => (st.futexWake c ftx num).2

/-- Two threads differ in their registers and their continuation at most. -/
structure SameThread (a b : Thread) : Prop where
  priority : b.priority = a.priority
  blocked : b.blocked = a.blocked
  parentProcess : b.parentProcess = a.parentProcess
  futexBlock : b.futexBlock = a.futexBlock

/-- Wait lists, futex tables and threads are as before. -/
structure Quiet (st st' : Scheduler n) : Prop where
  list : st'.list = st.list
  futexes : st'.futexes = st.futexes
  thread : ∀ t, SameThread (st.thread t) (st'.thread t)

/-- Nothing changed. -/
theorem Quiet.refl (st : Scheduler n) : Quiet st st := ⟨rfl, rfl, fun _ => ⟨rfl, rfl, rfl, rfl⟩⟩

/-- One quiet change after the other is quiet. -/
theorem Quiet.trans {st st' st'' : Scheduler n} (h : Quiet st st') (h' : Quiet st' st'') : Quiet st st'' :=
  ⟨h'.list.trans h.list, h'.futexes.trans h.futexes, fun t =>
    ⟨(h'.thread t).priority.trans (h.thread t).priority, (h'.thread t).blocked.trans (h.thread t).blocked,
      (h'.thread t).parentProcess.trans (h.thread t).parentProcess,
      (h'.thread t).futexBlock.trans (h.thread t).futexBlock⟩⟩

/-- Changing a CPU is quiet. -/
theorem quiet_setCpu (st : Scheduler n) (c : Fin (n + 1)) (cpu : Cpu) : Quiet st (st.setCpu c cpu) :=
  ⟨rfl, rfl, fun _ => ⟨rfl, rfl, rfl, rfl⟩⟩

/-- Changing the registers or the continuation of a thread is quiet. -/
theorem quiet_setThread (st : Scheduler n) (t : ℕ) {th : Thread} (h : SameThread (st.thread t) th) :
    Quiet st (st.setThread t th) := by
  refine ⟨rfl, rfl, fun x => ?_⟩
  rw [setThread_thread]
  split
  next hx =>
    rw [hx]
    exact h
  next => exact ⟨rfl, rfl, rfl, rfl⟩

/-- The end of a context switch is quiet. -/
theorem quiet_resume (st : Scheduler n) (r : Option Frame) (selection : ℕ) (answer : Frame → Answer) :
    Quiet st (st.resume r selection answer).2 := by
  unfold resume
  cases r with
  | none => exact Quiet.refl st
  | some r =>
    dsimp only
    split
    next => exact Quiet.refl st
    next => exact st.quiet_setThread selection ⟨rfl, rfl, rfl, rfl⟩

/-- Pushing the old thread back is quiet. -/
theorem quiet_pushBack (st : Scheduler n) (c : Fin (n + 1)) (oldHead : Option ℕ) : Quiet st (st.pushBack c oldHead) := by
  cases oldHead with
  | none => exact Quiet.refl st
  | some old =>
    unfold pushBack
    dsimp only
    split
    next => exact Quiet.refl st
    next => exact st.quiet_setCpu ..

/-- Making another thread current is quiet. -/
theorem quiet_switchTo (st : Scheduler n) (r : Option Frame) (c : Fin (n + 1)) (oldHead : Option ℕ) (selection : ℕ) :
    Quiet st (st.switchTo r c oldHead selection) := by
  unfold switchTo
  refine (st.quiet_setCpu c { st.cpu c with ct := some selection }).trans ?_
  split
  next =>
    split
    next => exact quiet_setThread _ _ ⟨rfl, rfl, rfl, rfl⟩
    next => exact Quiet.refl _
  next => exact Quiet.refl _

/-- A context switch is quiet. -/
theorem quiet_contextSwitch (st : Scheduler n) (r : Option Frame) (c : Fin (n + 1)) (oldHead : Option ℕ)
    (selection : ℕ) (answer : Frame → Answer) :
    Quiet st (st.contextSwitch r c oldHead selection answer).2 := by
  have hpush := st.quiet_pushBack c oldHead
  unfold contextSwitch
  dsimp only
  split
  next => exact hpush.trans ((quiet_switchTo ..).trans (quiet_resume ..))
  next =>
    split
    next => exact hpush.trans (quiet_resume ..)
    next r =>
      split
      next => exact hpush
      next => exact hpush.trans (quiet_resume ..)

/-- A scheduling is quiet. -/
theorem quiet_schedule {st st' : Scheduler n} {r : Option Frame} {c : Fin (n + 1)} {answer : Frame → Answer}
    {resumed : Resume} (h : st.schedule r c answer = some (resumed, st')) : Quiet st st' := by
  unfold schedule at h
  split at h
  next => exact absurd h (by simp)
  next =>
    split at h
    next => exact absurd h (by simp)
    next selection queues _ =>
      have hswitch := quiet_contextSwitch (st.setCpu c { st.cpu c with queues := queues }) r c (st.cpu c).ct
        selection answer
      rw [Option.some.inj h] at hswitch
      exact (st.quiet_setCpu ..).trans hswitch

/-- The best CPU of a caller without locks is the first one. -/
@[simp] theorem enscheduleBest_none (st : Scheduler n) (t : ℕ) :
    st.enscheduleBest none t = some (st.enschedule t 0) := by
  unfold enscheduleBest
  rw [bestCpu_eq]
  rfl

/-- A scheduling section is quiet, also where it finds no thread. -/
theorem quiet_step_schedule (st : Scheduler n) (c : Fin (n + 1)) (r : Option Frame) (answer : Frame → Answer) :
    Quiet st (st.step (.schedule c r answer)) := by
  unfold step
  dsimp only
  cases hsched : st.schedule r c answer with
  | none => exact Quiet.refl st
  | some resumed => exact quiet_schedule hsched

/-- The end of a context switch leaves the CPUs. -/
@[simp] theorem resume_cpu (st : Scheduler n) (r : Option Frame) (selection : ℕ) (answer : Frame → Answer) :
    (st.resume r selection answer).2.cpu = st.cpu := by
  unfold resume
  cases r with
  | none => rfl
  | some r =>
    dsimp only
    split
    next => rfl
    next => rfl

/-- Making another thread current leaves the other CPUs. -/
theorem switchTo_cpu (st : Scheduler n) (r : Option Frame) (c : Fin (n + 1)) (oldHead : Option ℕ) (selection : ℕ) :
    (st.switchTo r c oldHead selection).cpu = Function.update st.cpu c { st.cpu c with ct := some selection } := by
  unfold switchTo
  dsimp only
  split
  next =>
    split
    next => rfl
    next => rfl
  next => rfl

/-- Pushing back leaves the current threads. -/
theorem pushBack_ct (st : Scheduler n) (c : Fin (n + 1)) (oldHead : Option ℕ) (c' : Fin (n + 1)) :
    ((st.pushBack c oldHead).cpu c').ct = (st.cpu c').ct := by
  cases oldHead with
  | none => rfl
  | some old =>
    unfold pushBack
    dsimp only
    split
    next => rfl
    next => exact st.enqueue_ct ..

/-- A context switch on one CPU leaves the others. -/
theorem contextSwitch_cpu_of_ne (st : Scheduler n) (r : Option Frame) {c c' : Fin (n + 1)} (hc : c' ≠ c)
    (oldHead : Option ℕ) (selection : ℕ) (answer : Frame → Answer) :
    (st.contextSwitch r c oldHead selection answer).2.cpu c' = st.cpu c' := by
  have hpush : (st.pushBack c oldHead).cpu c' = st.cpu c' := by
    cases oldHead with
    | none => rfl
    | some old =>
      unfold pushBack
      dsimp only
      split
      next => rfl
      next => exact Function.update_of_ne hc ..
  unfold contextSwitch
  dsimp only
  split
  next => rw [resume_cpu, switchTo_cpu, Function.update_of_ne hc, hpush]
  next =>
    split
    next => rw [resume_cpu, hpush]
    next =>
      split
      next => exact hpush
      next => rw [resume_cpu, hpush]

/-- A scheduling section on one CPU leaves the others. -/
theorem step_schedule_cpu_of_ne (st : Scheduler n) {c c' : Fin (n + 1)} (hc : c' ≠ c) (r : Option Frame)
    (answer : Frame → Answer) : (st.step (.schedule c r answer)).cpu c' = st.cpu c' := by
  unfold step schedule
  dsimp only
  split
  next => rfl
  next =>
    split
    next => rfl
    next selection queues _ =>
      refine (contextSwitch_cpu_of_ne _ r hc _ _ _).trans ?_
      exact Function.update_of_ne hc ..

/-- Putting a thread on the best CPU is quiet. -/
theorem quiet_step_enscheduleBest (st : Scheduler n) (t : ℕ) : Quiet st (st.step (.enscheduleBest t)) := by
  unfold step
  dsimp only
  rw [enscheduleBest_none]
  exact st.quiet_setCpu ..

/-- A new process leaves lists and tables and all threads but its own. -/
theorem step_createProcessBase (st : Scheduler n) (t : ℕ) (th : Thread) :
    (st.step (.createProcessBase t th)).list = st.list ∧ (st.step (.createProcessBase t th)).futexes = st.futexes ∧
      ∀ x, x ≠ t → (st.step (.createProcessBase t th)).thread x = st.thread x := by
  unfold step createProcessBase
  dsimp only
  rw [enscheduleBest_none]
  exact ⟨rfl, rfl, fun x hx => Function.update_of_ne hx ..⟩

end Scheduler

end Cthulhu
