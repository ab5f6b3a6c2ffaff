import Cthulhu.Process.FutexRuns

/-!
# Lost wake-ups

One thread executes `futex_wait(ftx, value)` on one CPU while another stores a different
value into the word and then calls `futex_wake(ftx, num)` on a second CPU. The test of the
word is made before any lock is taken. The enqueueing and the blocking are two steps of one
section, and a wake-up cannot start while that section holds its locks.

A wake-up that falls between the test and the enqueueing is lost; at every other moment the
thread is either still to read the new value or already where the wake-up finds it.
-/

namespace Cthulhu

open Lib

/-- Where the waiting thread is in `futex_wait`. -/
inductive WaiterPc
  | start
  | passed
  | listed
  | blocked
  | refused
  deriving DecidableEq, Repr

/-- Where the waking thread is; `spinning` where its wake-up does not end. -/
inductive WakerPc
  | start
  | stored
  | finished
  | spinning
  deriving DecidableEq, Repr

/-- The scheduler, the futex word and the two threads. -/
structure WakeRace (n : ℕ) where
  sched : Scheduler n
  word : ℕ
  waiter : WaiterPc
  waker : WakerPc

/-- The fixed part of a race: the CPUs and threads, the address, the value waited for, the value
stored and the number of threads to wake. -/
structure RaceCalls (n : ℕ) where
  waiterCpu : Fin (n + 1)
  wakerCpu : Fin (n + 1)
  waiter : ℕ
  waker : ℕ
  ftx : ℕ
  value : ℕ
  stored : ℕ
  num : ℤ

/-- A step of one of the two threads. -/
inductive RaceOp
  | test
  | push
  | block
  | switch (r : Option Frame) (answer : Frame → Answer)
  | store
  | wake

namespace WakeRace

variable {n : ℕ}

/-- The state after a step; a thread that is elsewhere in its code, and a wake-up that finds the
locks taken, do not move. -/
def step (calls : RaceCalls n) (s : WakeRace n) : RaceOp → WakeRace n
  | .test =>
    if s.waiter = .start then { s with waiter := if s.word ≠ calls.value then .refused else .passed } else s
  | .push =>
    if s.waiter = .passed then
      { s with sched := s.sched.futexPush calls.waiterCpu calls.ftx, waiter := .listed } else s
  | .block =>
    if s.waiter = .listed then { s with sched := s.sched.block calls.waiterCpu, waiter := .blocked } else s
  | .switch r answer =>
    if s.waiter = .blocked then { s with sched := s.sched.step (.schedule calls.waiterCpu r answer) } else s
  | .store => if s.waker = .start then { s with word := calls.stored, waker := .stored } else s
  | .wake =>
    if s.waker = .stored ∧ s.waiter ≠ .listed then
      let r := s.sched.futexWake calls.wakerCpu calls.ftx calls.num
      { s with sched := r.2, waker := if r.1 = .spinning then .spinning else .finished }
    else s

/-- The store and the wake-up are over, and the waiting thread is blocked or about to be. -/
def Lost (calls : RaceCalls n) (s : WakeRace n) : Prop :=
  s.waker = .finished ∧ (s.waiter = .passed ∨ s.waiter = .listed ∨
    s.waiter = .blocked ∧ (s.sched.thread calls.waiter).blocked = true)

/-- The wake-up does not fall between the test and the enqueueing. -/
def InTime (s : WakeRace n) : RaceOp → Prop
  | .wake => s.waker = .stored → s.waiter ≠ .passed
  | _ => True

/-- Two threads of one process before their calls, on two CPUs. The stored value differs, and the
wait list has room before the last thread to be woken. -/
structure Ready (calls : RaceCalls n) (s : WakeRace n) : Prop where
  waiter : s.waiter = .start
  waker : s.waker = .start
  apart : calls.waiterCpu ≠ calls.wakerCpu
  waiterRuns : (s.sched.cpu calls.waiterCpu).ct = some calls.waiter
  wakerRuns : (s.sched.cpu calls.wakerCpu).ct = some calls.waker
  process : (s.sched.thread calls.waker).parentProcess = (s.sched.thread calls.waiter).parentProcess
  differs : calls.stored ≠ calls.value
  room : ((s.sched.list (s.sched.waitList calls.waiter calls.ftx)).length : ℤ) < calls.num

/-- The wake-up is still to come. -/
def Pending (s : WakeRace n) : Prop := s.waker = .start ∨ s.waker = .stored

/-- There is room for the waiting thread on its list. -/
def Room (calls : RaceCalls n) (s : WakeRace n) : Prop :=
  ((s.sched.list (s.sched.waitList calls.waiter calls.ftx)).length : ℤ) < calls.num

/-- The waiting thread is where the wake-up will find it. -/
def Found (calls : RaceCalls n) (s : WakeRace n) : Prop :=
  ∃ l, s.sched.futexes (s.sched.thread calls.waker).parentProcess calls.ftx = some l ∧
    calls.waiter ∈ (s.sched.list l).take calls.num.toNat

/-- What is known at each place of the waiting thread. -/
def AtPlace (calls : RaceCalls n) (s : WakeRace n) : Prop :=
  match s.waiter with
  | .start => (s.sched.cpu calls.waiterCpu).ct = some calls.waiter ∧ (s.Pending → s.Room calls)
  | .passed => (s.sched.cpu calls.waiterCpu).ct = some calls.waiter ∧ s.Pending ∧ s.Room calls
  | .listed => (s.sched.cpu calls.waiterCpu).ct = some calls.waiter ∧ s.Pending ∧ s.Found calls
  | .blocked => (s.Pending → s.Found calls) ∧
      (s.waker = .finished → (s.sched.thread calls.waiter).blocked = false)
  | .refused => True

/-- The invariant of a race without a late wake-up. -/
structure Inv (calls : RaceCalls n) (s : WakeRace n) : Prop where
  apart : calls.waiterCpu ≠ calls.wakerCpu
  wakerRuns : (s.sched.cpu calls.wakerCpu).ct = some calls.waker
  process : (s.sched.thread calls.waker).parentProcess = (s.sched.thread calls.waiter).parentProcess
  differs : calls.stored ≠ calls.value
  word : s.waker ≠ .start → s.word = calls.stored
  place : s.AtPlace calls

variable {calls : RaceCalls n} {s : WakeRace n}

/-- The invariant holds before the calls. -/
theorem Ready.inv (h : s.Ready calls) : s.Inv calls := by
  refine ⟨h.apart, h.wakerRuns, h.process, h.differs, fun hne => absurd h.waker hne, ?_⟩
  unfold AtPlace
  rw [h.waiter]
  exact ⟨h.waiterRuns, fun _ => h.room⟩

/-- The invariant excludes a lost wake-up. -/
theorem Inv.not_lost (h : s.Inv calls) : ¬ s.Lost calls := by
  rintro ⟨hdone, hwaiter⟩
  have hplace := h.place
  have hpending : ¬ s.Pending := by
    unfold Pending
    rw [hdone]
    decide
  unfold AtPlace at hplace
  rcases hwaiter with hpassed | hlisted | ⟨hblocked, hflag⟩
  · rw [hpassed] at hplace
    exact hpending hplace.2.1
  · rw [hlisted] at hplace
    exact hpending hplace.2.1
  · rw [hblocked] at hplace
    have hfree := hplace.2 hdone
    rw [hflag] at hfree
    exact absurd hfree (by simp)

/-- The test lets the thread pass only while the wake-up is still to come. -/
theorem Inv.test (h : s.Inv calls) : (s.step calls .test).Inv calls := by
  unfold step
  dsimp only
  split
  next hstart =>
    have hplace := h.place
    unfold AtPlace at hplace
    rw [hstart] at hplace
    refine ⟨h.apart, h.wakerRuns, h.process, h.differs, h.word, ?_⟩
    unfold AtPlace
    by_cases hword : s.word ≠ calls.value
    · simp only [if_pos hword]
    · simp only [if_neg hword]
      have hpending : s.Pending := by
        rw [not_not] at hword
        refine Or.inl ?_
        by_contra hne
        exact h.differs ((h.word hne).symm.trans hword)
      exact ⟨hplace.1, hpending, hplace.2 hpending⟩
  next => exact h

/-- The enqueueing puts the thread where the wake-up will find it. -/
theorem Inv.push (h : s.Inv calls) : (s.step calls .push).Inv calls := by
  unfold step
  dsimp only
  split
  next hpassed =>
    have hplace := h.place
    unfold AtPlace at hplace
    rw [hpassed] at hplace
    obtain ⟨hct, hpending, hroom⟩ := hplace
    rw [Scheduler.futexPush_eq hct]
    refine ⟨h.apart, h.wakerRuns, h.process, h.differs, h.word, hct, hpending,
      s.sched.waitList calls.waiter calls.ftx, ?_, ?_⟩
    · dsimp only
      rw [h.process, Function.update_self, Function.update_self]
    · dsimp only
      unfold Room at hroom
      rw [Function.update_self, List.take_of_length_le (by rw [List.length_append, List.length_singleton]; omega)]
      exact List.mem_append_right _ (List.mem_singleton_self _)
  next => exact h

/-- The blocking changes neither lists nor tables. -/
theorem Inv.block (h : s.Inv calls) : (s.step calls .block).Inv calls := by
  unfold step
  dsimp only
  split
  next hlisted =>
    have hplace := h.place
    unfold AtPlace at hplace
    rw [hlisted] at hplace
    obtain ⟨hct, hpending, l, hl, hmem⟩ := hplace
    rw [Scheduler.block_eq hct]
    have hprocess (x : ℕ) : ((s.sched.setThread calls.waiter
        { s.sched.thread calls.waiter with blocked := true }).thread x).parentProcess =
        (s.sched.thread x).parentProcess := by
      rw [Scheduler.setThread_thread]
      split
      next hx => rw [hx]
      next => rfl
    refine ⟨h.apart, h.wakerRuns, ?_, h.differs, h.word, fun _ => ⟨l, ?_, hmem⟩, fun hdone => ?_⟩
    · rw [hprocess, hprocess]
      exact h.process
    · rw [hprocess]
      exact hl
    · unfold Pending at hpending
      rw [hdone] at hpending
      exact absurd hpending (by decide)
  next => exact h

/-- What the waiting CPU schedules meanwhile changes nothing for the two threads. -/
theorem Inv.switch (h : s.Inv calls) (r : Option Frame) (answer : Frame → Answer) :
    (s.step calls (.switch r answer)).Inv calls := by
  unfold step
  dsimp only
  split
  next hblocked =>
    have hquiet := s.sched.quiet_step_schedule calls.waiterCpu r answer
    have hplace := h.place
    unfold AtPlace at hplace
    rw [hblocked] at hplace
    refine ⟨h.apart, ?_, ?_, h.differs, h.word, ?_⟩
    · dsimp only
      rw [s.sched.step_schedule_cpu_of_ne h.apart.symm]
      exact h.wakerRuns
    · dsimp only
      rw [(hquiet.thread _).parentProcess, (hquiet.thread _).parentProcess]
      exact h.process
    · unfold AtPlace
      rw [hblocked]
      refine ⟨fun hpending => ?_, fun hdone => ?_⟩
      · obtain ⟨l, hl, hmem⟩ := hplace.1 hpending
        refine ⟨l, ?_, ?_⟩
        · dsimp only
          rw [hquiet.futexes, (hquiet.thread _).parentProcess]
          exact hl
        · dsimp only
          rw [hquiet.list]
          exact hmem
      · dsimp only
        rw [(hquiet.thread _).blocked]
        exact hplace.2 hdone
  next => exact h

/-- The store puts the new value into the word and changes nothing else. -/
theorem Inv.store (h : s.Inv calls) : (s.step calls .store).Inv calls := by
  unfold step
  dsimp only
  split
  next hstart =>
    have hplace := h.place
    have hbefore : s.Pending := Or.inl hstart
    refine ⟨h.apart, h.wakerRuns, h.process, h.differs, fun _ => rfl, ?_⟩
    unfold AtPlace at hplace ⊢
    dsimp only
    split at hplace
    next => exact ⟨hplace.1, fun _ => hplace.2 hbefore⟩
    next => exact ⟨hplace.1, Or.inr rfl, hplace.2.2⟩
    next => exact ⟨hplace.1, Or.inr rfl, hplace.2.2⟩
    next => exact ⟨fun _ => hplace.1 hbefore, fun hdone => absurd hdone (by decide)⟩
    next => exact True.intro
  next => exact h

/-- Once the wake-up was called it is not to come any more. -/
theorem not_pending_of_over {result : FutexResult}
    (h : s.waker = if result = .spinning then .spinning else .finished) : ¬ s.Pending := by
  unfold Pending
  rw [h]
  split <;> decide

/-- A wake-up in time finds the thread if it is on its list, and otherwise the thread is still to
read the new value. -/
theorem Inv.wake (h : s.Inv calls) (htime : s.InTime .wake) : (s.step calls .wake).Inv calls := by
  unfold step
  dsimp only
  split
  next hready =>
    obtain ⟨hstored, hunlocked⟩ := hready
    obtain ⟨hct, hprocess⟩ := s.sched.futexWake_keeps calls.wakerCpu calls.ftx calls.num
    have hplace := h.place
    have hword := h.word (by rw [hstored]; decide)
    refine ⟨h.apart, (hct _).trans h.wakerRuns, ?_, h.differs, fun _ => hword, ?_⟩
    · dsimp only
      rw [(hprocess _).1, (hprocess _).1]
      exact h.process
    · unfold AtPlace at hplace ⊢
      dsimp only
      split at hplace
      next => exact ⟨(hct _).trans hplace.1, fun hpending => absurd hpending (not_pending_of_over rfl)⟩
      next hw => exact absurd hw (htime hstored)
      next hw => exact absurd hw hunlocked
      next =>
        refine ⟨fun hpending => absurd hpending (not_pending_of_over rfl), fun hdone => ?_⟩
        obtain ⟨l, hl, hmem⟩ := hplace.1 (Or.inr hstored)
        have hends : (s.sched.futexWake calls.wakerCpu calls.ftx calls.num).1 ≠ .spinning := by
          intro hspin
          rw [if_pos hspin] at hdone
          exact absurd hdone (by decide)
        rw [(Scheduler.futexWake_ended h.wakerRuns hl hends).thread, if_pos hmem]
      next => exact True.intro
  next => exact h

/-- Every step in time keeps the invariant. -/
theorem Inv.step (h : s.Inv calls) (op : RaceOp) (htime : s.InTime op) : (s.step calls op).Inv calls := by
  cases op with
  | test => exact h.test
  | push => exact h.push
  | block => exact h.block
  | switch r answer => exact h.switch r answer
  | store => exact h.store
  | wake => exact h.wake htime

end WakeRace

/-- In every interleaving in which the wake-up does not fall between the test and the enqueueing,
no state is reached in which the store and the wake-up are over and the thread is blocked or
about to be. -/
theorem wakeup_not_lost {n : ℕ} (calls : RaceCalls n) (s : WakeRace n) (ops : List RaceOp) (hs : s.Ready calls)
    (hops : Guarded (WakeRace.step calls) WakeRace.InTime s ops) :
    ¬ (run (WakeRace.step calls) s ops).Lost calls :=
  (hops.invariant (WakeRace.Inv calls) (fun _ op h htime => h.step op htime) hs.inv).not_lost

/-- Thread 0 waits for the word to change from zero, thread 2 sets it to one and wakes one thread. -/
def pairCalls : RaceCalls 1 := ⟨0, 1, 0, 2, 0x10, 0, 1, 1⟩

/-- The two CPUs before the calls. -/
def pairRace : WakeRace 1 := ⟨twoCpus, 0, .start, .start⟩

/-- The two CPUs are ready. -/
theorem pairRace_ready : pairRace.Ready pairCalls :=
  ⟨rfl, rfl, by decide, rfl, rfl, rfl, by decide, by decide⟩

/-- The thread waits first and is woken. -/
theorem wakeup_not_lost_pair :
    ¬ (run (WakeRace.step pairCalls) pairRace [.test, .push, .block, .store, .wake]).Lost pairCalls :=
  wakeup_not_lost pairCalls pairRace _ pairRace_ready
    ⟨True.intro, True.intro, True.intro, True.intro, fun _ => by decide, True.intro⟩

/-- The store and the wake-up come between the test and the enqueueing, and the thread blocks. -/
theorem wakeup_lost :
    pairRace.Ready pairCalls ∧
      (run (WakeRace.step pairCalls) pairRace [.test, .store, .wake, .push, .block]).Lost pairCalls :=
  ⟨⟨rfl, rfl, by decide, rfl, rfl, rfl, by decide, by decide⟩, by decide +kernel, Or.inr (Or.inr (by decide +kernel))⟩

end Cthulhu
