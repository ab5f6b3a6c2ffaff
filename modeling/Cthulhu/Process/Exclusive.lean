import Cthulhu.Process.SchedulerSteps

/-!
# One place for each thread

A thread should be in one priority queue or current on one CPU, and not more. Boot breaks
this: `kernel_main` enschedules the main thread of init, which pushes it, and pushes it once
more. Scheduling moves the two copies about and loses neither, so no state has one place for
each thread until that thread blocks.
-/

namespace Cthulhu

open Lib

/-- How often a thread is queued on a CPU or current there. -/
def Cpu.copies (cpu : Cpu) (t : ℕ) : ℕ := occurrences cpu.queues t + if cpu.ct = some t then 1 else 0

namespace Scheduler

variable {n : ℕ}

/-- How often a thread is queued or current on all CPUs together. -/
def copies (st : Scheduler n) (t : ℕ) : ℕ := ∑ c, (st.cpu c).copies t

/-- No thread is queued twice, a current thread is nowhere else, and every thread that is not blocked
is somewhere. -/
structure Exclusive (st : Scheduler n) : Prop where
  once : ∀ t, ∑ c, occurrences (st.cpu c).queues t ≤ 1
  current : ∀ c t, (st.cpu c).ct = some t →
    (∀ c' i, t ∉ (st.cpu c').queues i) ∧ ∀ c', c' ≠ c → (st.cpu c').ct ≠ some t
  somewhere : ∀ t ∈ st.threads, (st.thread t).blocked = false →
    (∃ c, (st.cpu c).ct = some t) ∨ ∃ c i, t ∈ (st.cpu c).queues i

/-- The end of `kernel_main`, up to its call of `schedule`: init's main thread is enscheduled and
pushed to the first queue. -/
def kernelMain (st : Scheduler n) (c : Fin (n + 1)) (t : ℕ) : Scheduler n :=
  let st := st.enschedule t c
  st.setCpu c { st.cpu c with queues := queuePush (st.cpu c).queues 0 t }

/-- The section does not make the thread wait, nor replace it by a new one. -/
def Spares (t : ℕ) (st : Scheduler n) : SchedulerOp n → Prop
  | .futexWait c _ => (st.cpu c).ct ≠ some t
  | .createProcessBase t' _ => t' ≠ t
  | _ => True

/-- A thread with two copies does not have one place. -/
theorem not_exclusive_of_copies {st : Scheduler n} {t : ℕ} (h : 2 ≤ st.copies t) : ¬ st.Exclusive := by
  intro hexcl
  have hsplit : st.copies t = ∑ c, occurrences (st.cpu c).queues t +
      ∑ c, if (st.cpu c).ct = some t then 1 else 0 := Finset.sum_add_distrib
  have honce := hexcl.once t
  rw [Finset.sum_boole, Nat.cast_id] at hsplit
  -- a current copy leaves no queued one, so there would have to be two current ones
  have hcurrent : 0 < (Finset.univ.filter fun c => (st.cpu c).ct = some t).card := by omega
  obtain ⟨c, hc⟩ := Finset.card_pos.mp hcurrent
  obtain ⟨hqueued, hother⟩ := hexcl.current c t (Finset.mem_filter.mp hc).2
  have hnone : ∑ c, occurrences (st.cpu c).queues t = 0 := Finset.sum_eq_zero fun c' _ => by
    by_contra hne
    obtain ⟨i, hi⟩ := occurrences_pos.mp (Nat.pos_of_ne_zero hne)
    exact hqueued c' i hi
  have htwo : 1 < (Finset.univ.filter fun c => (st.cpu c).ct = some t).card := by omega
  obtain ⟨c', hc', hne⟩ := Finset.exists_mem_ne htwo c
  exact hother c' hne (Finset.mem_filter.mp hc').2

/-- Changing a CPU moves the copies by the difference there. -/
theorem copies_setCpu (st : Scheduler n) (c : Fin (n + 1)) (cpu : Cpu) (t : ℕ) :
    (st.setCpu c cpu).copies t + (st.cpu c).copies t = st.copies t + cpu.copies t :=
  sum_update_add (fun cpu => cpu.copies t) st.cpu c cpu

/-- Pushing to a queue of a CPU adds a copy of the thread that is pushed. -/
theorem copies_queuePush (st : Scheduler n) (c : Fin (n + 1)) (i : Fin 5) (x t : ℕ) :
    (st.setCpu c { st.cpu c with queues := queuePush (st.cpu c).queues i x }).copies t =
      st.copies t + if x = t then 1 else 0 := by
  have hcpu : Cpu.copies { st.cpu c with queues := queuePush (st.cpu c).queues i x } t =
      (st.cpu c).copies t + if x = t then 1 else 0 := by
    unfold Cpu.copies queuePush
    dsimp only
    rw [occurrences_push]
    omega
  have hsum := st.copies_setCpu c { st.cpu c with queues := queuePush (st.cpu c).queues i x } t
  omega

/-- An enqueueing adds a copy. -/
theorem copies_enqueue (st : Scheduler n) (c : Fin (n + 1)) (x t : ℕ) :
    (st.enqueue c x).copies t = st.copies t + if x = t then 1 else 0 := st.copies_queuePush c _ x t

/-- After boot there are two copies of init's main thread. -/
theorem two_le_copies_kernelMain (st : Scheduler n) (c : Fin (n + 1)) (t : ℕ) : 2 ≤ (st.kernelMain c t).copies t := by
  have hpush : (st.kernelMain c t).copies t = (st.enqueue c t).copies t + 1 := by
    refine ((st.enqueue c t).copies_queuePush c 0 t t).trans ?_
    rw [if_pos rfl]
  have henqueue := st.copies_enqueue c t t
  rw [if_pos rfl] at henqueue
  omega

/-- The end of a context switch moves no thread. -/
theorem copies_resume (st : Scheduler n) (r : Option Frame) (selection : ℕ) (answer : Frame → Answer) (t : ℕ) :
    (st.resume r selection answer).2.copies t = st.copies t := by
  unfold copies
  rw [resume_cpu]

/-- Pushing the old thread back adds a copy of it if it is not blocked. -/
theorem copies_pushBack (st : Scheduler n) (c : Fin (n + 1)) (oldHead : Option ℕ) {t : ℕ}
    (ht : (st.thread t).blocked = false) :
    (st.pushBack c oldHead).copies t = st.copies t + if oldHead = some t then 1 else 0 := by
  cases oldHead with
  | none => rfl
  | some old =>
    unfold pushBack
    dsimp only
    split
    next hblocked =>
      rw [if_neg fun heq => ?_, Nat.add_zero]
      rw [Option.some.inj heq, ht] at hblocked
      exact absurd hblocked (by simp)
    next =>
      rw [copies_enqueue]
      simp only [Option.some.injEq]

/-- Making another thread current adds a copy of it and takes one of the old thread. -/
theorem copies_switchTo (st : Scheduler n) (r : Option Frame) (c : Fin (n + 1)) (selection t : ℕ) :
    (st.switchTo r c (st.cpu c).ct selection).copies t + (if (st.cpu c).ct = some t then 1 else 0) =
      st.copies t + if selection = t then 1 else 0 := by
  have hcpu : Cpu.copies { st.cpu c with ct := some selection } t + (if (st.cpu c).ct = some t then 1 else 0) =
      (st.cpu c).copies t + if selection = t then 1 else 0 := by
    unfold Cpu.copies
    simp only [Option.some.injEq]
    omega
  have hsum := st.copies_setCpu c { st.cpu c with ct := some selection } t
  have hswitch : (st.switchTo r c (st.cpu c).ct selection).copies t =
      (st.setCpu c { st.cpu c with ct := some selection }).copies t := by
    unfold copies
    rw [switchTo_cpu]
    rfl
  omega

/-- A context switch adds a copy of the thread it selects, if the old one is not blocked. -/
theorem copies_contextSwitch (st : Scheduler n) (r : Option Frame) (c : Fin (n + 1)) (selection : ℕ)
    (answer : Frame → Answer) {t : ℕ} (ht : (st.thread t).blocked = false) :
    (st.contextSwitch r c (st.cpu c).ct selection answer).2.copies t =
      st.copies t + if selection = t then 1 else 0 := by
  have hpush := st.copies_pushBack c (st.cpu c).ct ht
  have hct := st.pushBack_ct c (st.cpu c).ct c
  unfold contextSwitch
  dsimp only
  split
  next =>
    have hswitch := (st.pushBack c (st.cpu c).ct).copies_switchTo r c selection t
    rw [hct] at hswitch
    rw [copies_resume]
    omega
  next hsame =>
    rw [not_not] at hsame
    rw [hsame] at hpush
    simp only [Option.some.injEq] at hpush
    rw [hsame]
    split
    next => rw [copies_resume, hpush]
    next =>
      split
      next => exact hpush
      next => rw [copies_resume, hpush]

/-- A scheduling keeps the copies of every thread that is not blocked. -/
theorem copies_schedule (st : Scheduler n) (c : Fin (n + 1)) (r : Option Frame) (answer : Frame → Answer) {t : ℕ}
    (ht : (st.thread t).blocked = false) : (st.step (.schedule c r answer)).copies t = st.copies t := by
  unfold step schedule
  dsimp only
  split
  next => rfl
  next =>
    split
    next => rfl
    next selection queues hpick =>
      have hcpu : Cpu.copies { st.cpu c with queues := queues } t + (if selection = t then 1 else 0) =
          (st.cpu c).copies t := by
        have hoccurs := occurrences_pickThread hpick t
        unfold Cpu.copies
        dsimp only
        omega
      have hsum := st.copies_setCpu c { st.cpu c with queues := queues } t
      have hswitch := (st.setCpu c { st.cpu c with queues := queues }).copies_contextSwitch r c selection answer ht
      rw [setCpu_cpu, if_pos rfl] at hswitch
      change (contextSwitch _ r c (st.cpu c).ct selection answer).2.copies t = _
      refine hswitch.trans ?_
      omega

/-- The thread is not blocked and has two copies at least. -/
def Doubled (t : ℕ) (st : Scheduler n) : Prop := (st.thread t).blocked = false ∧ 2 ≤ st.copies t

/-- Enqueueing any thread keeps the copies of another. -/
theorem Doubled.enqueue {t : ℕ} {st : Scheduler n} (h : st.Doubled t) (c : Fin (n + 1)) (x : ℕ) :
    (st.enqueue c x).Doubled t := by
  refine ⟨h.1, ?_⟩
  rw [copies_enqueue]
  exact Nat.le_add_right_of_le h.2

/-- Every section that spares the thread keeps its two copies. -/
theorem Doubled.step {t : ℕ} {st : Scheduler n} (h : st.Doubled t) (op : SchedulerOp n) (hspares : st.Spares t op) :
    (st.step op).Doubled t := by
  cases op with
  | schedule c r answer =>
    refine ⟨((st.quiet_step_schedule c r answer).thread t).blocked.trans h.1, ?_⟩
    rw [st.copies_schedule c r answer h.1]
    exact h.2
  | enschedule x c => exact h.enqueue c x
  | enscheduleBest x =>
    change ((st.enscheduleBest none x).getD st).Doubled t
    rw [enscheduleBest_none]
    exact h.enqueue 0 x
  | createProcessBase x th =>
    have hnew : ({ st.setThread x th with threads := x :: st.threads } : Scheduler n).Doubled t := by
      refine ⟨?_, h.2⟩
      change ((st.setThread x th).thread t).blocked = false
      rw [setThread_thread, if_neg (Ne.symm hspares)]
      exact h.1
    change ((createProcessBase st x th).getD st).Doubled t
    unfold createProcessBase
    rw [enscheduleBest_none]
    exact hnew.enqueue 0 x
  | futexWait c ftx =>
    change (st.futexWait c ftx).Doubled t
    cases hct : (st.cpu c).ct with
    | none =>
      rw [futexWait_idle hct]
      exact h
    | some x =>
      have hwaits := futexWait_waits hct ftx
      have hx : t ≠ x := fun heq => hspares (heq ▸ hct)
      refine ⟨?_, ?_⟩
      · rw [hwaits.thread, if_neg hx]
        exact h.1
      · unfold copies
        rw [hwaits.cpu]
        exact h.2
  | futexWake c ftx num =>
    refine futexWake_invariant (Doubled t) (fun st' btl x rest h' _ => ⟨?_, h'.2⟩) (fun st' x h' => h'.enqueue 0 x) h
      c ftx num
    rw [release_thread]
    split
    next => rfl
    next => exact h'.1

end Scheduler

/-- In no run from boot, on any number of CPUs, does every state have one place for each thread; and
no state at all has it until init's main thread waits on a futex. -/
theorem exclusive_never {n : ℕ} (st : Scheduler n) (c : Fin (n + 1)) (t : ℕ) (ht : (st.thread t).blocked = false)
    (ops : List (SchedulerOp n)) :
    (¬ ∀ k, (run Scheduler.step (st.kernelMain c t) (ops.take k)).Exclusive) ∧
      (Guarded Scheduler.step (Scheduler.Spares t) (st.kernelMain c t) ops →
        ¬ (run Scheduler.step (st.kernelMain c t) ops).Exclusive) := by
  have hboot : (st.kernelMain c t).Doubled t := ⟨ht, st.two_le_copies_kernelMain c t⟩
  refine ⟨fun hall => Scheduler.not_exclusive_of_copies hboot.2 (hall 0), fun hops => ?_⟩
  exact Scheduler.not_exclusive_of_copies
    (hops.invariant (Scheduler.Doubled t) (fun _ op h hspares => h.step op hspares) hboot).2

/-- One CPU without threads. -/
def bareCpu : Scheduler 0 where
  cpu := fun _ => ⟨none, fun _ => []⟩
  thread := fun t => ⟨0, false, 0, t, none, switchToUsermode 0 0 0 0 0 0⟩
  threads := [5]
  list := fun _ => []
  futexes := fun _ _ => none

/-- The first scheduling of one CPU after boot. -/
theorem exclusive_never_bare :
    (¬ ∀ k, (run Scheduler.step (bareCpu.kernelMain 0 5)
        (List.take k [.schedule 0 none fun r => ⟨0, 0, r, false⟩])).Exclusive) ∧
      (Guarded Scheduler.step (Scheduler.Spares 5) (bareCpu.kernelMain 0 5)
          [.schedule 0 none fun r => ⟨0, 0, r, false⟩] →
        ¬ (run Scheduler.step (bareCpu.kernelMain 0 5) [.schedule 0 none fun r => ⟨0, 0, r, false⟩]).Exclusive) :=
  exclusive_never bareCpu 0 5 rfl [.schedule 0 none fun r => ⟨0, 0, r, false⟩]

/-- After the first scheduling init's main thread is current and still queued. -/
theorem exclusive_fails :
    ((run Scheduler.step (bareCpu.kernelMain 0 5) [.schedule 0 none fun r => ⟨0, 0, r, false⟩]).cpu 0).ct = some 5 ∧
      5 ∈ ((run Scheduler.step (bareCpu.kernelMain 0 5)
        [.schedule 0 none fun r => ⟨0, 0, r, false⟩]).cpu 0).queues 0 ∧
      ¬ (run Scheduler.step (bareCpu.kernelMain 0 5) [.schedule 0 none fun r => ⟨0, 0, r, false⟩]).Exclusive := by
  have hcurrent : ((run Scheduler.step (bareCpu.kernelMain 0 5)
      [.schedule 0 none fun r => ⟨0, 0, r, false⟩]).cpu 0).ct = some 5 := by decide +kernel
  have hqueued : 5 ∈ ((run Scheduler.step (bareCpu.kernelMain 0 5)
      [.schedule 0 none fun r => ⟨0, 0, r, false⟩]).cpu 0).queues 0 := by decide +kernel
  exact ⟨hcurrent, hqueued, fun hexcl => (hexcl.current 0 5 hcurrent).1 0 0 hqueued⟩

end Cthulhu
