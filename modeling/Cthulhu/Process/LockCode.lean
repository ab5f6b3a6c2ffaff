import Cthulhu.Lib.Spinlock
import Cthulhu.Process.SchedulerSteps

/-!
# The scheduler's spinlocks

The functions of `scheduler.c` again, now with every `proc_spinlock_lock` and
`proc_spinlock_unlock` as a step of its own. What a function does between them is one or more of
the sections of the scheduler's model.

A CPU runs one call at a time. A `schedule` that finds no thread has released its locks when it
waits, so its call ends there, and it goes on as a new call without a frame. The lock that the
message to another CPU takes is not one of these. The stage of a call is kept for the statements.
-/

namespace Cthulhu

open Lib

/-- `__cpu_lock` and `__cpu_sched_lock` of a CPU, `__thread_modifier` and `__halted_modifier`. -/
inductive SchedLock (n : ℕ)
  | cpu (c : Fin (n + 1))
  | sched (c : Fin (n + 1))
  | threadModifier
  | haltedModifier
  deriving DecidableEq

/-- The stage of a call: it takes the locks of a CPU and then `__thread_modifier`, it holds all of them,
it counts the threads of CPUs, or it counts them while it holds the locks, to wake a thread. -/
inductive Stage (n : ℕ)
  | outside
  | entering (c : Fin (n + 1))
  | holding
  | counting
  | waking
  deriving DecidableEq

/-- A program over the scheduler's state and locks. -/
abbrev LockCode (n : ℕ) := Code (SchedLock n) (Stage n) (Scheduler n)

section Calls

variable {n : ℕ}

/-- `get_priority_count`. -/
def getPriorityCountCode (c : Fin (n + 1)) (next : ℕ → LockCode n) : LockCode n :=
  .lock (.cpu c) <| .lock (.sched c) <| .act id fun st =>
    .unlock (.cpu c) <| .unlock (.sched c) <| next (st.cpu c).priorityCount

/-- The loop of `enschedule_best` and `enschedule_best_nolock`. -/
def bestLoopCode (next : Fin (n + 1) → LockCode n) : ℕ → Fin (n + 1) × ℕ → LockCode n
  | 0, best => next best.1
  | rounds + 1, best =>
    getPriorityCountCode 0 fun np => bestLoopCode next rounds (if best.2 > np then (0, np) else best)

/-- The search of `enschedule_best` and `enschedule_best_nolock` for a CPU. -/
def bestCpuCode (next : Fin (n + 1) → LockCode n) : LockCode n :=
  getPriorityCountCode 0 fun priority => bestLoopCode next n (0, priority)

/-- `enschedule`. -/
def enscheduleCode (t : ℕ) (c : Fin (n + 1)) : LockCode n :=
  .mark (.entering c) <| .lock (.cpu c) <| .lock (.sched c) <| .lock .threadModifier <| .mark .holding <|
    .act (fun st => st.enschedule t c) fun _ =>
      .unlock .threadModifier <| .unlock (.sched c) <| .unlock (.cpu c) <| .mark .outside .done

/-- `enschedule_best`. -/
def enscheduleBestCode (t : ℕ) : LockCode n := .mark .counting <| bestCpuCode fun c => enscheduleCode t c

/-- `schedule` on a CPU, with `context_switch`. -/
def scheduleCode (c : Fin (n + 1)) (r : Option Frame) (answer : Frame → Answer) : LockCode n :=
  .mark (.entering c) <| .lock (.cpu c) <| .lock (.sched c) <| .act id fun st =>
    if (st.cpu c).priorityCount = 0 then .unlock (.cpu c) <| .unlock (.sched c) <| .mark .outside .done
    else
      .lock .threadModifier <| .mark .holding <|
        .act (fun st => ((st.schedule r c answer).map Prod.snd).getD st) fun _ =>
          .unlock .threadModifier <| .unlock (.cpu c) <| .unlock (.sched c) <| .mark .outside .done

/-- `futex_wait` on a CPU, with the word it reads first. -/
def futexWaitCode (c : Fin (n + 1)) (ftx word value : ℕ) (r : Option Frame) (answer : Frame → Answer) : LockCode n :=
  if word ≠ value then .done
  else
    .mark (.entering c) <| .lock (.cpu c) <| .lock (.sched c) <| .lock .threadModifier <| .mark .holding <|
      .lock .haltedModifier <| .act (fun st => st.futexPush c ftx) fun _ => .act (fun st => st.block c) fun _ =>
        .unlock .haltedModifier <| .unlock .threadModifier <| .unlock (.sched c) <| .unlock (.cpu c) <|
          scheduleCode c r answer

/-- The end of `futex_wake`. -/
def leaveWakeCode (c : Fin (n + 1)) : LockCode n :=
  .unlock .haltedModifier <| .unlock .threadModifier <| .unlock (.sched c) <| .unlock (.cpu c) <| .mark .outside .done

/-- One removal from the wait list in `futex_wake`. -/
def Scheduler.releaseFirst (st : Scheduler n) (btl : ℕ) : Scheduler n :=
  match st.list btl with
  | [] => st
  | t :: rest => st.release btl t rest

/-- The loop of `futex_wake`, with `enschedule_best_nolock`. -/
def wakeLoopCode (c : Fin (n + 1)) (btl : ℕ) : ℕ → LockCode n
  | 0 => leaveWakeCode c
  | num + 1 => .act (fun st => st.releaseFirst btl) fun st =>
    match st.list btl with
    | [] => leaveWakeCode c
    | t :: _ => .mark .waking <| bestCpuCode fun d => .act (fun st => st.enschedule t d) fun _ =>
        .mark .holding <| wakeLoopCode c btl num

/-- `futex_wake` on a CPU. -/
def futexWakeCode (c : Fin (n + 1)) (ftx : ℕ) (num : ℤ) : LockCode n :=
  .mark (.entering c) <| .lock (.cpu c) <| .lock (.sched c) <| .lock .threadModifier <| .mark .holding <|
    .lock .haltedModifier <| .act id fun st =>
      match (st.cpu c).ct with
      | none => leaveWakeCode c
      | some t =>
        match st.futexes (st.thread t).parentProcess ftx with
        | none => leaveWakeCode c
        | some btl => wakeLoopCode c btl num.toNat

/-- A call of one of the scheduler's functions. -/
inductive SchedCall (n : ℕ)
  | schedule (r : Option Frame) (answer : Frame → Answer)
  | enschedule (t : ℕ) (c : Fin (n + 1))
  | enscheduleBest (t : ℕ)
  | getPriorityCount (c : Fin (n + 1))
  | futexWait (ftx word value : ℕ) (r : Option Frame) (answer : Frame → Answer)
  | futexWake (ftx : ℕ) (num : ℤ)

/-- The program of a call on a CPU. -/
def SchedCall.code (c : Fin (n + 1)) : SchedCall n → LockCode n
  | .schedule r answer => scheduleCode c r answer
  | .enschedule t d => enscheduleCode t d
  | .enscheduleBest t => enscheduleBestCode t
  | .getPriorityCount d => .mark .counting <| getPriorityCountCode d fun _ => .mark .outside .done
  | .futexWait ftx word value r answer => futexWaitCode c ftx word value r answer
  | .futexWake ftx num => futexWakeCode c ftx num

end Calls

/-- The CPUs with their calls, over the scheduler's state and locks. -/
abbrev SpinScheduler (n : ℕ) := Spin (Fin (n + 1)) (SchedLock n) (Stage n) (Scheduler n)

/-- What can happen next: a CPU begins a call, or goes on with the one it is in. -/
inductive SpinMove (n : ℕ)
  | call (c : Fin (n + 1)) (call : SchedCall n)
  | step (c : Fin (n + 1))

namespace SpinScheduler

variable {n : ℕ}

/-- One move; a CPU that is in a call begins no other. -/
def move (s : SpinScheduler n) : SpinMove n → SpinScheduler n
  | .call c call =>
    match s.code c with
    | .done => s.start c (call.code c)
    | _ => s
  | .step c => s.step c

/-- No lock is held and no call is under way. -/
def Idle (s : SpinScheduler n) : Prop :=
  (∀ l, s.held l = none) ∧ ∀ c, s.stage c = .outside ∧ s.code c = .done

/-- A call of another CPU than the first may wake a thread while no call takes the locks of the first
CPU on its way to `__thread_modifier`, and such a call may begin while none wakes a thread. -/
def Apart (s : SpinScheduler n) (c : Fin (n + 1)) : LockCode n → Prop
  | .mark .waking _ => c ≠ 0 ∧ ∀ d, s.stage d ≠ .entering 0
  | .mark (.entering e) _ => e = 0 → ∀ d, s.stage d ≠ .waking
  | _ => True

/-- Wake-ups and the calls that take the locks of the first CPU keep out of each other's way. -/
def Uncrossed (s : SpinScheduler n) : SpinMove n → Prop
  | .step c => s.Apart c (s.code c)
  | .call .. => True

instance (s : SpinScheduler n) (c : Fin (n + 1)) : ∀ code : LockCode n, Decidable (s.Apart c code)
  | .mark .waking _ => inferInstanceAs (Decidable (c ≠ 0 ∧ ∀ d, s.stage d ≠ .entering 0))
  | .mark (.entering e) _ => inferInstanceAs (Decidable (e = 0 → ∀ d, s.stage d ≠ .waking))
  | .mark .outside _ | .mark .holding _ | .mark .counting _ | .done | .lock .. | .unlock .. | .act .. =>
    inferInstanceAs (Decidable True)

instance (s : SpinScheduler n) : ∀ move : SpinMove n, Decidable (s.Uncrossed move)
  | .call .. => inferInstanceAs (Decidable True)
  | .step c => inferInstanceAs (Decidable (s.Apart c (s.code c)))

end SpinScheduler

section Sections

variable {n : ℕ}

/-- A count alone changes nothing. -/
@[simp] theorem exec_getPriorityCountCode (c : Fin (n + 1)) (next : ℕ → LockCode n) (st : Scheduler n) :
    (getPriorityCountCode c next).exec st = (next (st.cpu c).priorityCount).exec st := rfl

/-- The loop alone goes on with the first CPU. -/
theorem exec_bestLoopCode (next : Fin (n + 1) → LockCode n) (rounds : ℕ) (priority : ℕ) (st : Scheduler n) :
    (bestLoopCode next rounds (0, priority)).exec st = (next 0).exec st := by
  induction rounds generalizing priority with
  | zero => rfl
  | succ rounds ih =>
    rw [bestLoopCode, exec_getPriorityCountCode]
    split
    · exact ih _
    · exact ih _

/-- The search alone goes on with the first CPU. -/
@[simp] theorem exec_bestCpuCode (next : Fin (n + 1) → LockCode n) (st : Scheduler n) :
    (bestCpuCode next).exec st = (next 0).exec st := exec_bestLoopCode next n _ st

/-- The loop alone wakes what the section of `futex_wake` wakes on a CPU that does not spin. -/
theorem exec_wakeLoopCode {c : Fin (n + 1)} (hc : c ≠ 0) (btl num : ℕ) (st : Scheduler n) :
    (wakeLoopCode c btl num).exec st = (Scheduler.wakeLoop c btl num st).2 := by
  induction num generalizing st with
  | zero => rfl
  | succ num ih =>
    unfold wakeLoopCode Scheduler.wakeLoop
    simp only [Code.exec]
    cases hlist : st.list btl with
    | nil => simp only [Scheduler.releaseFirst, hlist, leaveWakeCode, Code.exec]
    | cons t rest =>
      have hbest : (st.release btl t rest).bestCpu (some c) = some 0 := by
        rw [Scheduler.bestCpu_eq, if_neg (by simpa using hc)]
      simp only [Scheduler.releaseFirst, hlist, Code.exec, exec_bestCpuCode, ih, Scheduler.enscheduleBest, hbest,
        Option.map_some]

/-- `schedule` alone does what its section does. -/
theorem exec_scheduleCode (c : Fin (n + 1)) (r : Option Frame) (answer : Frame → Answer) (st : Scheduler n) :
    (scheduleCode c r answer).exec st = ((st.schedule r c answer).map Prod.snd).getD st := by
  simp only [scheduleCode, Code.exec]
  split
  · rename_i hcount
    simp only [Code.exec, Scheduler.schedule, if_pos hcount]
    rfl
  · rfl

/-- `enschedule_best` alone does what its section does. -/
theorem exec_enscheduleBestCode (t : ℕ) (st : Scheduler n) :
    some ((enscheduleBestCode t).exec st) = st.enscheduleBest none t := by
  simp only [enscheduleBestCode, enscheduleCode, Code.exec, exec_bestCpuCode, Scheduler.enscheduleBest,
    Scheduler.bestCpu_eq]
  rfl

/-- `futex_wait` alone does what its section does, and then schedules. -/
theorem exec_futexWaitCode (c : Fin (n + 1)) (ftx word : ℕ) (r : Option Frame) (answer : Frame → Answer)
    (st : Scheduler n) :
    (futexWaitCode c ftx word word r answer).exec st =
      (((st.futexWait c ftx).schedule r c answer).map Prod.snd).getD (st.futexWait c ftx) := by
  rw [← exec_scheduleCode, futexWaitCode, if_neg (not_not.mpr rfl)]
  rfl

/-- `futex_wake` alone does what its section does, on a CPU where it does not spin. -/
theorem exec_futexWakeCode {c : Fin (n + 1)} (hc : c ≠ 0) (ftx : ℕ) (num : ℤ) (st : Scheduler n) :
    (futexWakeCode c ftx num).exec st = (st.futexWake c ftx num).2 := by
  simp only [futexWakeCode, Code.exec, Scheduler.futexWake]
  cases hct : (st.cpu c).ct with
  | none => rfl
  | some t =>
    dsimp only [id]
    cases hbtl : st.futexes (st.thread t).parentProcess ftx with
    | none => rfl
    | some btl => exact exec_wakeLoopCode hc btl num.toNat st

end Sections

end Cthulhu
