import Mathlib.Data.List.FinRange
import Cthulhu.Lib.Queues
import Cthulhu.Lib.Run
import Cthulhu.Process.Registers

/-!
# The scheduler

The per-CPU priority queues of `cpu_t` and the functions of `scheduler.c` that move threads
between them and the CPUs. Threads, processes and lists are named by numbers, as the source
names them by pointers; the queues are first-in first-out sequences. Every function here is
what one lock-protected section of the source does.

A priority is an index into the array of five queues. Dereferences of a `NULL` current
thread leave the state as it is.
-/

namespace Cthulhu

open Lib

/-- `thread_t`, as far as the scheduler reads it; `continuation` is the call that is present. -/
structure Thread where
  priority : Fin 5
  blocked : Bool
  parentProcess : ℕ
  futexBlock : ℕ
  continuation : Option Syscall
  last : Registers

/-- The scheduling part of `cpu_t`. -/
structure Cpu where
  ct : Option ℕ
  queues : Fin 5 → List ℕ

/-- The threads, the CPUs, the wait lists and the futex table of each process.

There is at least one CPU, and `threads` names the threads of all processes. -/
structure Scheduler (n : ℕ) where
  cpu : Fin (n + 1) → Cpu
  thread : ℕ → Thread
  threads : List ℕ
  list : ℕ → List ℕ
  futexes : ℕ → ℕ → Option ℕ

/-- `do_get_priority_count`. -/
def Cpu.priorityCount (cpu : Cpu) : ℕ :=
  ((List.finRange 5).map fun i => (cpu.queues i).length * (5 - i)).sum

/-- `queue_push`. -/
def queuePush (queues : Fin 5 → List ℕ) (i : Fin 5) (t : ℕ) : Fin 5 → List ℕ :=
  Function.update queues i (queues i ++ [t])

/-- The loop of `get_and_update_queue`: the first queue with an element gives it to the queue
looked at before. -/
def promote (queues : Fin 5 → List ℕ) : Fin 5 → List (Fin 5) → Fin 5 → List ℕ
  | _, [] => queues
  | pushq, tq :: rest =>
    match queues tq with
    | [] => promote queues tq rest
    | t :: ts => queuePush (Function.update queues tq ts) pushq t

/-- The loop of `get_and_update_threads`, with `get_and_update_queue` at the first queue that has
an element. -/
def pickThread (queues : Fin 5 → List ℕ) : List (Fin 5) → Option (ℕ × (Fin 5 → List ℕ))
  | [] => none
  | tq :: rest =>
    match queues tq with
    | [] => pickThread queues rest
    | winner :: ts => some (winner, promote (Function.update queues tq ts) tq rest)

/-- `get_and_update_threads`. -/
def getAndUpdateThreads (queues : Fin 5 → List ℕ) : Option (ℕ × (Fin 5 → List ℕ)) :=
  pickThread queues (List.finRange 5)

/-- How a CPU gets back to user code: through the frame of its caller, or by
`switch_to_usermode`. -/
inductive Resume
  | frame (r : Frame)
  | usermode (u : Registers)
  deriving DecidableEq, Repr

namespace Scheduler

variable {n : ℕ}

/-- The state with another thread record. -/
def setThread (st : Scheduler n) (t : ℕ) (th : Thread) : Scheduler n :=
  { st with thread := Function.update st.thread t th }

/-- The state with another CPU record. -/
def setCpu (st : Scheduler n) (c : Fin (n + 1)) (cpu : Cpu) : Scheduler n :=
  { st with cpu := Function.update st.cpu c cpu }

/-- A thread at the end of the queue of its priority. -/
def enqueue (st : Scheduler n) (c : Fin (n + 1)) (t : ℕ) : Scheduler n :=
  st.setCpu c { st.cpu c with queues := queuePush (st.cpu c).queues (st.thread t).priority t }

@[simp] theorem setThread_thread (st : Scheduler n) (t : ℕ) (th : Thread) (x : ℕ) :
    (st.setThread t th).thread x = if x = t then th else st.thread x := Function.update_apply ..

@[simp] theorem setThread_cpu (st : Scheduler n) (t : ℕ) (th : Thread) : (st.setThread t th).cpu = st.cpu := rfl

@[simp] theorem setThread_list (st : Scheduler n) (t : ℕ) (th : Thread) : (st.setThread t th).list = st.list := rfl

@[simp] theorem setThread_futexes (st : Scheduler n) (t : ℕ) (th : Thread) :
    (st.setThread t th).futexes = st.futexes := rfl

@[simp] theorem setCpu_cpu (st : Scheduler n) (c : Fin (n + 1)) (cpu : Cpu) (c' : Fin (n + 1)) :
    (st.setCpu c cpu).cpu c' = if c' = c then cpu else st.cpu c' := Function.update_apply ..

@[simp] theorem setCpu_thread (st : Scheduler n) (c : Fin (n + 1)) (cpu : Cpu) :
    (st.setCpu c cpu).thread = st.thread := rfl

@[simp] theorem setCpu_list (st : Scheduler n) (c : Fin (n + 1)) (cpu : Cpu) : (st.setCpu c cpu).list = st.list := rfl

@[simp] theorem setCpu_futexes (st : Scheduler n) (c : Fin (n + 1)) (cpu : Cpu) :
    (st.setCpu c cpu).futexes = st.futexes := rfl

@[simp] theorem enqueue_thread (st : Scheduler n) (c : Fin (n + 1)) (t : ℕ) : (st.enqueue c t).thread = st.thread := rfl

@[simp] theorem enqueue_list (st : Scheduler n) (c : Fin (n + 1)) (t : ℕ) : (st.enqueue c t).list = st.list := rfl

@[simp] theorem enqueue_futexes (st : Scheduler n) (c : Fin (n + 1)) (t : ℕ) :
    (st.enqueue c t).futexes = st.futexes := rfl

/-- An enqueueing leaves every current thread. -/
@[simp] theorem enqueue_ct (st : Scheduler n) (c : Fin (n + 1)) (t : ℕ) (c' : Fin (n + 1)) :
    ((st.enqueue c t).cpu c').ct = (st.cpu c').ct := by
  unfold enqueue
  rw [setCpu_cpu]
  split
  next hc => rw [hc]
  next => rfl

/-- An enqueueing appends the thread to the queue of its priority. -/
theorem enqueue_queues (st : Scheduler n) (c : Fin (n + 1)) (t : ℕ) (i : Fin 5) :
    ((st.enqueue c t).cpu c).queues i =
      (st.cpu c).queues i ++ [t].filter fun x => (st.thread x).priority = i := by
  unfold enqueue queuePush
  rw [setCpu_cpu, if_pos rfl]
  by_cases hi : i = (st.thread t).priority
  · subst hi
    simp
  · simp [Function.update_of_ne hi, Ne.symm hi]

/-- The end of `context_switch`, behind the test for the same thread. -/
def resume (st : Scheduler n) (r : Option Frame) (selection : ℕ) (answer : Frame → Answer) :
    Resume × Scheduler n :=
  let th := st.thread selection
  match r with
  | none => (.usermode (switchToUsermode th.last.rdi th.last.rip th.last.rsp 512 th.last.rsi th.last.rcx), st)
  | some r =>
    let r := registersCopy th.last { r with cs := userCode, ss := userData, ds := userData, es := userData }
    match th.continuation with
    | none => (.frame r, st)
    | some sc =>
      (.frame (doSysHandler sc answer r),
        st.setThread selection { th with continuation := if (answer r).present then some sc else none })

/-- The start of `context_switch`: the old thread goes back to its queue unless it is blocked. -/
def pushBack (st : Scheduler n) (c : Fin (n + 1)) : Option ℕ → Scheduler n
  | none => st
  | some old => if (st.thread old).blocked then st else st.enqueue c old

/-- The middle of `context_switch`: another thread becomes current, and the registers of the old
one are saved unless the frame is the kernel's. -/
def switchTo (st : Scheduler n) (r : Option Frame) (c : Fin (n + 1)) (oldHead : Option ℕ) (selection : ℕ) :
    Scheduler n :=
  let st := st.setCpu c { st.cpu c with ct := some selection }
  match r, oldHead with
  | some r, some old =>
    if r.cs ≠ kernelCode then st.setThread old { st.thread old with last := copyRegisters r } else st
  | _, _ => st

/-- `context_switch`. -/
def contextSwitch (st : Scheduler n) (r : Option Frame) (c : Fin (n + 1)) (oldHead : Option ℕ) (selection : ℕ)
    (answer : Frame → Answer) : Resume × Scheduler n :=
  let st := st.pushBack c oldHead
  if oldHead ≠ some selection then (st.switchTo r c oldHead selection).resume r selection answer
  else
    match r with
    | none => st.resume none selection answer
    | some r => if r.cs = userCode then (.frame r, st) else st.resume (some r) selection answer

/-- `schedule`; `none` where it finds no thread, discards the frame and waits for one. -/
def schedule (st : Scheduler n) (r : Option Frame) (c : Fin (n + 1)) (answer : Frame → Answer) :
    Option (Resume × Scheduler n) :=
  if (st.cpu c).priorityCount = 0 then none
  else
    match getAndUpdateThreads (st.cpu c).queues with
    | none => none
    | some (selection, queues) =>
      some ((st.setCpu c { st.cpu c with queues := queues }).contextSwitch r c (st.cpu c).ct selection answer)

/-- `get_priority_count` for a caller that holds the locks of a CPU; `none` where it spins on a
lock that the caller holds itself. -/
def getPriorityCount (st : Scheduler n) (held : Option (Fin (n + 1))) (c : Fin (n + 1)) : Option ℕ :=
  if held = some c then none else some (st.cpu c).priorityCount

/-- One round of `enschedule_best`'s loop, which tests the first CPU whatever the round is. -/
def bestRound (st : Scheduler n) (held : Option (Fin (n + 1))) (best : Fin (n + 1) × ℕ) (_ : ℕ) :
    Option (Fin (n + 1) × ℕ) :=
  (st.getPriorityCount held 0).map fun np => if best.2 > np then (0, np) else best

/-- The CPU that `enschedule_best` settles on. -/
def bestCpu (st : Scheduler n) (held : Option (Fin (n + 1))) : Option (Fin (n + 1)) :=
  (st.getPriorityCount held 0).bind fun priority =>
    ((List.range' 1 n).foldlM (st.bestRound held) (0, priority)).map Prod.fst

/-- `enschedule`, and `do_enschedule` for a caller that holds the locks. -/
def enschedule (st : Scheduler n) (t : ℕ) (c : Fin (n + 1)) : Scheduler n := st.enqueue c t

/-- `enschedule_best`, and `enschedule_best_nolock` for a caller that holds the locks of a CPU. -/
def enscheduleBest (st : Scheduler n) (held : Option (Fin (n + 1))) (t : ℕ) : Option (Scheduler n) :=
  (st.bestCpu held).map (st.enschedule t)

/-- The end of `create_process_base`: the new main thread is known and scheduled. -/
def createProcessBase (st : Scheduler n) (t : ℕ) (th : Thread) : Option (Scheduler n) :=
  ({ st.setThread t th with threads := t :: st.threads }).enscheduleBest none t

end Scheduler

section Queues

/-- A promotion moves a thread and loses none. -/
theorem occurrences_promote (queues : Fin 5 → List ℕ) (pushq : Fin 5) (rest : List (Fin 5)) (x : ℕ) :
    occurrences (promote queues pushq rest) x = occurrences queues x := by
  induction rest generalizing pushq with
  | nil => rfl
  | cons tq rest ih =>
    unfold promote
    split
    next => exact ih tq
    next t ts htq =>
      unfold queuePush
      rw [occurrences_push, ← occurrences_pop htq]

/-- A pick takes one occurrence of the thread it returns. -/
theorem occurrences_pickThread {queues queues' : Fin 5 → List ℕ} {order : List (Fin 5)} {winner : ℕ}
    (h : pickThread queues order = some (winner, queues')) (x : ℕ) :
    occurrences queues x = occurrences queues' x + if winner = x then 1 else 0 := by
  induction order with
  | nil => exact absurd h (by simp [pickThread])
  | cons tq rest ih =>
    unfold pickThread at h
    split at h
    next => exact ih h
    next winner' ts htq =>
      obtain ⟨rfl, rfl⟩ := Prod.mk.inj (Option.some.inj h)
      rw [occurrences_promote, ← occurrences_pop htq]

/-- A pick finds nothing only in empty queues. -/
theorem pickThread_eq_none {queues : Fin 5 → List ℕ} {order : List (Fin 5)} :
    pickThread queues order = none ↔ ∀ i ∈ order, queues i = [] := by
  induction order with
  | nil => simp [pickThread]
  | cons tq rest ih =>
    unfold pickThread
    rw [List.forall_mem_cons]
    split
    next htq => rw [ih, htq, eq_self, true_and]
    next winner ts htq =>
      rw [htq]
      simp

/-- The count is zero only without a thread. -/
theorem Cpu.priorityCount_eq_zero (cpu : Cpu) : cpu.priorityCount = 0 ↔ ∀ i, cpu.queues i = [] := by
  unfold Cpu.priorityCount
  rw [List.sum_eq_zero_iff]
  simp only [List.mem_map, List.mem_finRange, true_and, forall_exists_index, forall_apply_eq_imp_iff,
    Nat.mul_eq_zero, List.length_eq_zero_iff]
  constructor
  · intro h i
    exact (h i).resolve_right (by omega)
  · exact fun h i => Or.inl (h i)

end Queues

namespace Scheduler

variable {n : ℕ}

/-- The loop of `enschedule_best` stays at the first CPU. -/
theorem foldlM_bestRound (st : Scheduler n) {held : Option (Fin (n + 1))} (hheld : held ≠ some 0) (rounds : List ℕ)
    (priority : ℕ) : (rounds.foldlM (st.bestRound held) (0, priority)).map Prod.fst = some 0 := by
  induction rounds generalizing priority with
  | nil => rfl
  | cons i rounds ih =>
    have hround : ∃ priority', st.bestRound held (0, priority) i = some (0, priority') := by
      unfold bestRound getPriorityCount
      rw [if_neg hheld, Option.map_some]
      split
      · exact ⟨_, rfl⟩
      · exact ⟨_, rfl⟩
    obtain ⟨priority', hround⟩ := hround
    rw [List.foldlM_cons, hround]
    exact ih priority'

/-- The best CPU is the first one, for every caller that does not hold its locks. -/
theorem bestCpu_eq (st : Scheduler n) (held : Option (Fin (n + 1))) :
    st.bestCpu held = if held = some 0 then none else some 0 := by
  by_cases hheld : held = some 0
  · unfold bestCpu getPriorityCount
    rw [if_pos hheld, if_pos hheld, Option.bind_none]
  · have hcount : st.getPriorityCount held 0 = some (st.cpu 0).priorityCount := if_neg hheld
    unfold bestCpu
    rw [if_neg hheld, hcount, Option.bind_some, st.foldlM_bestRound hheld]

end Scheduler

end Cthulhu
