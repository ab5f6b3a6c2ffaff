import Cthulhu.Process.FutexRuns
import Cthulhu.Process.LockCode

/-!
# Deadlocks of the scheduler

Every call takes the two locks of one CPU, `__thread_modifier` and `__halted_modifier` in this
order, with one exception. `futex_wake` looks for a CPU while it holds all of them, and takes the
locks of the first CPU once more. On the first CPU it spins on its own lock. On another one it can
meet a call that has the locks of the first CPU and waits for `__thread_modifier`.

As long as such calls and wake-ups keep out of each other's way nobody waits in a circle. Whoever
waits for `__cpu_sched_lock` waits for a CPU that is about to release it.
-/

namespace Cthulhu

open Lib

section Discipline

variable {n : ℕ}

/-- The locks that a call may take in a stage with the locks it holds, latest first, on a CPU. -/
inductive Orderly (i : Fin (n + 1)) : Stage n → List (SchedLock n) → SchedLock n → Prop
  | enterCpu (d) : Orderly i (.entering d) [] (.cpu d)
  | enterSched (d) : Orderly i (.entering d) [.cpu d] (.sched d)
  | enterThread (d) : Orderly i (.entering d) [.sched d, .cpu d] .threadModifier
  | enterHalted (d) : Orderly i .holding [.threadModifier, .sched d, .cpu d] .haltedModifier
  | countCpu (d) : Orderly i .counting [] (.cpu d)
  | countSched (d) : Orderly i .counting [.cpu d] (.sched d)
  | wakeCpu (h : i ≠ 0) : Orderly i .waking [.haltedModifier, .threadModifier, .sched i, .cpu i] (.cpu 0)
  | wakeSched (h : i ≠ 0) :
    Orderly i .waking [.cpu 0, .haltedModifier, .threadModifier, .sched i, .cpu i] (.sched 0)

/-- A call can enter every stage, but not wake a thread on the first CPU. -/
def Enterable (i : Fin (n + 1)) (g : Stage n) : Prop := g = .waking → i ≠ 0

/-- The program follows the discipline. -/
abbrev Keeps (i : Fin (n + 1)) (g : Stage n) (held : List (SchedLock n)) (code : LockCode n) : Prop :=
  code.Follows (Orderly i) (Enterable i) g held

variable {i : Fin (n + 1)}

/-- A count gives back the locks that it takes. -/
theorem keeps_getPriorityCountCode {g : Stage n} {held : List (SchedLock n)} {c : Fin (n + 1)}
    {next : ℕ → LockCode n} (hcpu : Orderly i g held (.cpu c)) (hsched : Orderly i g (.cpu c :: held) (.sched c))
    (hnext : ∀ count, Keeps i g held (next count)) : Keeps i g held (getPriorityCountCode c next) := by
  refine ⟨hcpu, hsched, fun st => ⟨by simp, ?_⟩⟩
  have herase : (SchedLock.sched c :: .cpu c :: held).erase (.cpu c) = .sched c :: held := by
    rw [List.erase_cons_tail (by simp), List.erase_cons_head]
  rw [herase]
  refine ⟨List.mem_cons_self, ?_⟩
  rw [List.erase_cons_head]
  exact hnext _

/-- The search for a CPU gives back the locks that it takes. -/
theorem keeps_bestCpuCode {g : Stage n} {held : List (SchedLock n)} {next : Fin (n + 1) → LockCode n}
    (hcpu : Orderly i g held (.cpu 0)) (hsched : Orderly i g (.cpu 0 :: held) (.sched 0))
    (hnext : ∀ c, Keeps i g held (next c)) : Keeps i g held (bestCpuCode next) := by
  have hloop (rounds : ℕ) (best : Fin (n + 1) × ℕ) : Keeps i g held (bestLoopCode next rounds best) := by
    induction rounds generalizing best with
    | zero => exact hnext best.1
    | succ rounds ih => exact keeps_getPriorityCountCode hcpu hsched fun np => ih _
  exact keeps_getPriorityCountCode hcpu hsched fun priority => hloop n (0, priority)

/-- Releasing the locks of a CPU, the one taken first first. -/
theorem keeps_unlockCpu {g : Stage n} {c : Fin (n + 1)} {next : LockCode n} (hnext : Keeps i g [] next) :
    Keeps i g [.sched c, .cpu c] (.unlock (.cpu c) (.unlock (.sched c) next)) := by
  have herase : [SchedLock.sched c, .cpu c].erase (.cpu c) = [.sched c] := by
    rw [List.erase_cons_tail (by simp), List.erase_cons_head]
  refine ⟨by simp, ?_⟩
  rw [herase]
  refine ⟨List.mem_cons_self, ?_⟩
  rw [List.erase_cons_head]
  exact hnext

/-- Releasing the latest lock. -/
theorem keeps_unlock {g : Stage n} {held : List (SchedLock n)} {l : SchedLock n} {next : LockCode n}
    (hnext : Keeps i g held next) : Keeps i g (l :: held) (.unlock l next) := by
  refine ⟨List.mem_cons_self, ?_⟩
  rw [List.erase_cons_head]
  exact hnext

/-- The end of a call. -/
theorem keeps_done (g : Stage n) : Keeps i g [] (.mark .outside .done) := fun _ => rfl

/-- `enschedule` follows the discipline from every stage. -/
theorem keeps_enscheduleCode (g : Stage n) (t : ℕ) (c : Fin (n + 1)) : Keeps i g [] (enscheduleCode t c) := by
  refine fun _ => ⟨.enterCpu c, .enterSched c, .enterThread c, fun _ _ => ?_⟩
  exact keeps_unlock (keeps_unlock (keeps_unlock (keeps_done _)))

/-- `schedule` follows the discipline from every stage. -/
theorem keeps_scheduleCode (g : Stage n) (c : Fin (n + 1)) (r : Option Frame) (answer : Frame → Answer) :
    Keeps i g [] (scheduleCode c r answer) := by
  refine fun _ => ⟨.enterCpu c, .enterSched c, fun st => ?_⟩
  dsimp only
  split
  · exact keeps_unlockCpu (keeps_done _)
  · exact ⟨.enterThread c, fun _ _ => keeps_unlock (keeps_unlockCpu (keeps_done _))⟩

/-- The end of `futex_wake` releases all locks. -/
theorem keeps_leaveWakeCode (g : Stage n) (c : Fin (n + 1)) :
    Keeps i g [.haltedModifier, .threadModifier, .sched c, .cpu c] (leaveWakeCode c) :=
  keeps_unlock (keeps_unlock (keeps_unlock (keeps_unlock (keeps_done _))))

/-- The loop of `futex_wake` follows the discipline where it can wake. -/
theorem keeps_wakeLoopCode (btl num : ℕ) :
    Keeps i .holding [.haltedModifier, .threadModifier, .sched i, .cpu i] (wakeLoopCode i btl num) := by
  induction num with
  | zero => exact keeps_leaveWakeCode _ i
  | succ num ih =>
    intro st
    dsimp only
    split
    · exact keeps_leaveWakeCode _ i
    · intro hcan
      have hi : i ≠ 0 := hcan rfl
      exact keeps_bestCpuCode (.wakeCpu hi) (.wakeSched hi) fun d _ _ => ih

/-- Every call follows the discipline. -/
theorem keeps_code (call : SchedCall n) (g : Stage n) : Keeps i g [] (call.code i) := by
  cases call with
  | schedule r answer => exact keeps_scheduleCode g i r answer
  | enschedule t c => exact keeps_enscheduleCode g t c
  | enscheduleBest t =>
    exact fun _ => keeps_bestCpuCode (.countCpu 0) (.countSched 0) fun c => keeps_enscheduleCode _ t c
  | getPriorityCount c =>
    exact fun _ => keeps_getPriorityCountCode (.countCpu c) (.countSched c) fun _ => keeps_done _
  | futexWait ftx word value r answer =>
    unfold SchedCall.code futexWaitCode
    dsimp only
    split
    · exact rfl
    · refine fun _ => ⟨.enterCpu i, .enterSched i, .enterThread i, fun _ => ⟨.enterHalted i, fun _ _ => ?_⟩⟩
      exact keeps_unlock (keeps_unlock (keeps_unlock (keeps_unlock (keeps_scheduleCode _ i r answer))))
  | futexWake ftx num =>
    refine fun _ => ⟨.enterCpu i, .enterSched i, .enterThread i, fun _ => ⟨.enterHalted i, fun st => ?_⟩⟩
    dsimp only
    split
    · exact keeps_leaveWakeCode _ i
    · split
      · exact keeps_leaveWakeCode _ i
      · exact keeps_wakeLoopCode _ _

/-- How far a CPU that waits for a lock in a stage is from one that does not wait. -/
def waitRank (g : Stage n) : SchedLock n → ℕ
  | .cpu _ => if g = .waking then 2 else 0
  | .sched _ => 3
  | .threadModifier => 1
  | .haltedModifier => 2

/-- A CPU that waits has a rank below those that do not. -/
theorem waitRank_lt (g : Stage n) (l : SchedLock n) : waitRank g l < 4 := by
  unfold waitRank
  split
  · split <;> decide
  · decide
  · decide
  · decide

namespace Orderly

variable {j : Fin (n + 1)} {g g' : Stage n} {held held' : List (SchedLock n)} {l l' : SchedLock n}

/-- A call takes no lock that it holds. -/
theorem not_mem (h : Orderly i g held l) : l ∉ held := by
  cases h with
  | wakeCpu hi => simp [Ne.symm hi]
  | wakeSched hi => simp [Ne.symm hi]
  | _ => simp

/-- A waiting call that has the second lock of a CPU has the first one too. -/
theorem cpu_mem (h : Orderly j g held l) {d : Fin (n + 1)} (hmem : .sched d ∈ held) : .cpu d ∈ held := by
  cases h <;> simp_all

/-- A waiting call that has `__halted_modifier` has `__thread_modifier` too. -/
theorem thread_mem (h : Orderly j g held l) (hmem : .haltedModifier ∈ held) : .threadModifier ∈ held := by
  cases h <;> simp_all

/-- A waiting call that has a lock is past the first one. -/
theorem rank_pos (h : Orderly j g held l) (hmem : held ≠ []) : 0 < waitRank g l := by
  cases h <;> simp_all [waitRank]

/-- A waiting call that has `__thread_modifier` is past it. -/
theorem one_lt_rank (h : Orderly j g held l) (hmem : .threadModifier ∈ held) : 1 < waitRank g l := by
  cases h <;> simp_all [waitRank]

/-- A waiting call that has a lock of the first CPU and is not on its way to `__thread_modifier` waits
for the second lock of that CPU. -/
theorem two_lt_rank (h : Orderly j g held l) (hmem : .cpu 0 ∈ held) (hthread : .threadModifier ∉ held)
    (hstage : g ≠ .entering 0) : 2 < waitRank g l := by
  cases h <;> simp_all [waitRank]

/-- A call that waits for a lock of another waiting call has a lower rank. -/
theorem rank_lt (hi : Orderly i g held l) (hj : Orderly j g' held' l') (hmem : l ∈ held')
    (hdisjoint : ∀ m ∈ held, m ∉ held') (hapart : g = .waking → g' ≠ .entering 0) :
    waitRank g l < waitRank g' l' := by
  cases hi with
  | enterCpu d => exact hj.rank_pos (List.ne_nil_of_mem hmem)
  | countCpu d => exact hj.rank_pos (List.ne_nil_of_mem hmem)
  | enterSched d => exact absurd (hj.cpu_mem hmem) (hdisjoint _ (by simp))
  | countSched d => exact absurd (hj.cpu_mem hmem) (hdisjoint _ (by simp))
  | wakeSched h => exact absurd (hj.cpu_mem hmem) (hdisjoint _ (by simp))
  | enterThread d => exact hj.one_lt_rank hmem
  | enterHalted d => exact absurd (hj.thread_mem hmem) (hdisjoint _ (by simp))
  | wakeCpu h => exact hj.two_lt_rank hmem (hdisjoint _ (by simp)) (hapart rfl)

end Orderly

end Discipline

namespace SpinScheduler

variable {n : ℕ} {s : SpinScheduler n}

/-- The programs know the locks they hold, and nobody wakes a thread while a call takes the locks of
the first CPU on its way to `__thread_modifier`. -/
structure Inv (s : SpinScheduler n) : Prop where
  holds : ∃ locks, s.Holds Orderly Enterable locks
  apart : ∀ i j, s.stage i = .waking → s.stage j ≠ .entering 0

/-- The rank of the lock that a CPU waits for, and a higher one if it does not wait. -/
def rank (s : SpinScheduler n) (i : Fin (n + 1)) : ℕ := ((s.code i).wants.map (waitRank (s.stage i))).getD 4

/-- A CPU waits only for one of higher rank. -/
theorem Inv.rank_lt (h : s.Inv) {i j : Fin (n + 1)} (hwaits : s.Waits i j) : s.rank i < s.rank j := by
  obtain ⟨locks, hholds⟩ := h.holds
  obtain ⟨l, hwants, hheld⟩ := hwaits
  have hmay := hholds.may_of_wants hwants
  have hmem := (hholds.held l j).mp hheld
  have hij : i ≠ j := by
    rintro rfl
    exact hmay.not_mem hmem
  unfold rank
  rw [hwants]
  cases hwants' : (s.code j).wants with
  | none => exact waitRank_lt (s.stage i) l
  | some l' =>
    refine hmay.rank_lt (hholds.may_of_wants hwants') hmem ?_ (h.apart i j)
    exact fun m hi hj => hij (hholds.unique hi hj)

/-- A state with the invariant has no deadlock. -/
theorem Inv.deadlockFree (h : s.Inv) : s.DeadlockFree := Spin.DeadlockFree.of_rank s.rank fun _ _ => h.rank_lt

/-- An idle state has the invariant. -/
theorem Idle.inv (h : s.Idle) : s.Inv := by
  refine ⟨⟨fun _ => [], fun _ => List.nodup_nil, fun l i => ?_, fun i => ?_⟩, fun i j hwaking => ?_⟩
  · rw [h.1 l]
    simp
  · rw [(h.2 i).2]
    rfl
  · rw [(h.2 i).1] at hwaking
    exact absurd hwaking (by simp)

/-- A step that announces no stage leaves the stages. -/
theorem step_stage (s : SpinScheduler n) (c d : Fin (n + 1)) :
    (s.step c).stage d = s.stage d ∨ ∃ g next, s.code c = .mark g next ∧ d = c ∧ (s.step c).stage d = g := by
  unfold Spin.step
  cases hcode : s.code c with
  | mark g next =>
    by_cases hd : d = c
    · subst hd
      exact Or.inr ⟨g, next, rfl, rfl, Function.update_self ..⟩
    · exact Or.inl (Function.update_of_ne hd ..)
  | lock l next =>
    dsimp only
    split
    · exact Or.inl rfl
    · exact Or.inl rfl
  | _ => exact Or.inl rfl

/-- Every uncrossed move keeps the invariant. -/
theorem Inv.move (h : s.Inv) (move : SpinMove n) (hguard : s.Uncrossed move) : (s.move move).Inv := by
  obtain ⟨locks, hholds⟩ := h.holds
  cases move with
  | call c call =>
    simp only [SpinScheduler.move]
    split
    · rename_i hdone
      exact ⟨⟨locks, hholds.start hdone (keeps_code call _)⟩, h.apart⟩
    · exact h
  | step c =>
    simp only [SpinScheduler.move]
    refine ⟨hholds.step c fun g next hcode hwaking => ?_, fun i j hi hj => ?_⟩
    · subst hwaking
      simp only [Uncrossed, hcode, Apart] at hguard
      exact hguard.1
    · rcases s.step_stage c i with hsame | ⟨g, next, hcode, rfl, hstage⟩
      · rcases s.step_stage c j with hsame' | ⟨g, next, hcode, rfl, hstage⟩
        · exact h.apart i j (hsame.symm.trans hi) (hsame'.symm.trans hj)
        · obtain rfl := hstage.symm.trans hj
          simp only [Uncrossed, hcode, Apart] at hguard
          exact hguard trivial i (hsame.symm.trans hi)
      · obtain rfl := hstage.symm.trans hi
        simp only [Uncrossed, hcode, Apart] at hguard
        rcases s.step_stage i j with hsame' | ⟨g, next, -, rfl, -⟩
        · exact hguard.2 j (hsame'.symm.trans hj)
        · exact absurd (hi.symm.trans hj) (by simp)

end SpinScheduler

/-- In every interleaving in which wake-ups keep out of the way of the calls that take the locks of the
first CPU, no CPU waits for a lock of its own and no CPUs wait for each other. -/
theorem scheduler_deadlock_free {n : ℕ} (s : SpinScheduler n) (hs : s.Idle) (moves : List (SpinMove n))
    (hmoves : Guarded SpinScheduler.move SpinScheduler.Uncrossed s moves) :
    (run SpinScheduler.move s moves).DeadlockFree :=
  (hmoves.invariant SpinScheduler.Inv (fun _ move h hguard => h.move move hguard) hs.inv).deadlockFree

/-- Two CPUs that run thread 0 and thread 2 of one process, with two threads queued on the first. -/
def queuedCpus : SpinScheduler 1 where
  mem := { twoCpus with
    cpu := fun c => ⟨some (if c = 0 then 0 else 2), fun i => if c = 0 ∧ i = 0 then [4, 6] else []⟩ }
  held _ := none
  stage _ := .outside
  code _ := .done

/-- A call on a CPU, and a number of its steps. -/
def callSteps (c : Fin 2) (call : SchedCall 1) (steps : ℕ) : List (SpinMove 1) :=
  .call c call :: List.replicate steps (.step c)

/-- A thread of a CPU waits at `0x10`. -/
def waitCall : SchedCall 1 := .futexWait 0x10 0 0 none fun r => ⟨0, 0, r, false⟩

/-- Thread 0 waits, and thread 2 on the other CPU wakes it. -/
theorem scheduler_deadlock_free_pair :
    (run SpinScheduler.move queuedCpus (callSteps 0 waitCall 23 ++ callSteps 1 (.futexWake 0x10 1) 26)).DeadlockFree ∧
      ((run SpinScheduler.move queuedCpus (callSteps 0 waitCall 23 ++ callSteps 1 (.futexWake 0x10 1) 26)).mem.cpu
        0).queues 0 = [6, 0] :=
  ⟨scheduler_deadlock_free queuedCpus ⟨fun _ => rfl, fun _ => ⟨rfl, rfl⟩⟩ _ (by decide +kernel), by decide +kernel⟩

/-- Thread 2 waits, and thread 0 on the first CPU wakes it: the CPU is about to take a lock that it
holds. Thread 0 waits, thread 2 on the other CPU wakes it, and the first CPU schedules: each is about
to take a lock that the other holds. -/
theorem scheduler_deadlocks :
    queuedCpus.Idle ∧
      ¬ (run SpinScheduler.move queuedCpus
        (callSteps 1 waitCall 19 ++ callSteps 0 (.futexWake 0x10 1) 9)).DeadlockFree ∧
      ¬ (run SpinScheduler.move queuedCpus (callSteps 0 waitCall 23 ++ callSteps 1 (.futexWake 0x10 1) 9 ++
        callSteps 0 (.schedule none fun r => ⟨0, 0, r, false⟩) 4)).DeadlockFree := by
  refine ⟨⟨fun _ => rfl, fun _ => ⟨rfl, rfl⟩⟩, fun hfree => hfree.relock 0 ?_, fun hfree => hfree.cycle 0 ?_⟩
  · exact ⟨.cpu 0, by decide +kernel, by decide +kernel⟩
  · refine Relation.TransGen.tail (Relation.TransGen.single (b := 1) ?_) ?_
    · exact ⟨.threadModifier, by decide +kernel, by decide +kernel⟩
    · exact ⟨.cpu 0, by decide +kernel, by decide +kernel⟩

end Cthulhu
