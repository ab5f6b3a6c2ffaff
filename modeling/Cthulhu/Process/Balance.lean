import Cthulhu.Process.Scheduler

/-!
# Load balancing

`enschedule_best` and `enschedule_best_nolock` look for the CPU with the smallest weighted load. Their loops run over
the CPUs, and the round for CPU `i` tests `array_get_at(cpus, 0)`, so that the first CPU is taken whatever the loads
are. A caller that holds the locks of the first CPU does not even get so far.
-/

namespace Cthulhu

namespace Scheduler

variable {n : ℕ}

/-- No CPU has a smaller load, and none before it has the same. -/
def LeastLoaded (st : Scheduler n) (c : Fin (n + 1)) : Prop :=
  (∀ d, (st.cpu c).priorityCount ≤ (st.cpu d).priorityCount) ∧
    ∀ d, d < c → (st.cpu c).priorityCount < (st.cpu d).priorityCount

/-- The thread was pushed onto the queue of its priority on the CPU with the smallest load, and no other queue was
changed; no result is one that never comes. -/
def PushesToLeast (st : Scheduler n) (t : ℕ) (result : Option (Scheduler n)) : Prop :=
  ∃ c st', st.LeastLoaded c ∧ result = some st' ∧ ∀ d i, (st'.cpu d).queues i =
    if d = c ∧ i = (st.thread t).priority then (st.cpu d).queues i ++ [t] else (st.cpu d).queues i

/-- The queues after an enqueueing. -/
theorem enqueue_queues_apply (st : Scheduler n) (c : Fin (n + 1)) (t : ℕ) (d : Fin (n + 1)) (i : Fin 5) :
    ((st.enqueue c t).cpu d).queues i =
      if d = c ∧ i = (st.thread t).priority then (st.cpu d).queues i ++ [t] else (st.cpu d).queues i := by
  unfold enqueue queuePush
  rw [setCpu_cpu]
  by_cases hd : d = c
  · subst hd
    rw [if_pos rfl]
    dsimp only
    by_cases hi : i = (st.thread t).priority
    · subst hi
      rw [Function.update_self, if_pos ⟨rfl, rfl⟩]
    · rw [Function.update_of_ne hi, if_neg fun h => hi h.2]
  · rw [if_neg hd, if_neg fun h => hd h.1]

/-- The first CPU is the one with the smallest load when no other load is smaller. -/
theorem leastLoaded_zero {st : Scheduler n} (h : ∀ d, (st.cpu 0).priorityCount ≤ (st.cpu d).priorityCount) :
    st.LeastLoaded 0 := ⟨h, fun _ hd => absurd hd (Nat.not_lt_zero _)⟩

end Scheduler

/-- The balancing theorem: the thread goes to the CPU with the smallest load exactly when that is the first CPU and the
caller does not hold its locks. -/
theorem enscheduleBest_pushesToLeast_iff {n : ℕ} (st : Scheduler n) (held : Option (Fin (n + 1))) (t : ℕ) :
    st.PushesToLeast t (st.enscheduleBest held t) ↔
      held ≠ some 0 ∧ ∀ d, (st.cpu 0).priorityCount ≤ (st.cpu d).priorityCount := by
  have hbest : st.enscheduleBest held t = if held = some 0 then none else some (st.enqueue 0 t) := by
    unfold Scheduler.enscheduleBest
    rw [Scheduler.bestCpu_eq]
    split
    · rfl
    · rfl
  rw [hbest]
  by_cases hheld : held = some 0
  · rw [if_pos hheld]
    constructor
    · rintro ⟨c, st', -, hresult, -⟩
      exact absurd hresult (by simp)
    · exact fun h => absurd hheld h.1
  · rw [if_neg hheld]
    constructor
    · rintro ⟨c, st', hleast, hresult, hqueues⟩
      obtain rfl := Option.some.inj hresult
      have hpushed := hqueues 0 (st.thread t).priority
      rw [Scheduler.enqueue_queues_apply, if_pos ⟨rfl, rfl⟩] at hpushed
      by_cases hc : 0 = c
      · rw [← hc] at hleast
        exact ⟨hheld, hleast.1⟩
      · -- the queue of the first CPU would not have changed
        rw [if_neg fun h => hc h.1] at hpushed
        exact absurd hpushed (by simp)
    · rintro ⟨-, hleast⟩
      exact ⟨0, st.enqueue 0 t, Scheduler.leastLoaded_zero hleast, rfl, st.enqueue_queues_apply 0 t⟩

/-- Two CPUs, of which the first one has a thread in its queue and the second one has none. -/
def unevenCpus : Scheduler 1 where
  cpu c := ⟨none, fun i => if c = 0 ∧ i = 0 then [1] else []⟩
  thread t := ⟨0, false, 0, t, none, switchToUsermode 0 0 0 0 0 0⟩
  threads := [1, 2]
  list _ := []
  futexes _ _ := none

/-- Another thread goes to the queue of the first CPU although the second one is idle. -/
theorem enscheduleBest_crowds : (unevenCpus.enscheduleBest none 2).map (fun st => (st.cpu 0).queues 0) = some [1, 2] ∧
    (unevenCpus.cpu 1).priorityCount = 0 ∧ ¬ unevenCpus.PushesToLeast 2 (unevenCpus.enscheduleBest none 2) := by
  refine ⟨rfl, rfl, ?_⟩
  rintro ⟨c, st', hleast, hresult, hqueues⟩
  obtain rfl := Option.some.inj hresult
  have hpushed := hqueues 0 0
  by_cases hc : 0 = c
  · rw [← hc] at hleast
    exact absurd (hleast.1 1) (by decide)
  · rw [if_neg fun h => hc h.1] at hpushed
    exact absurd hpushed (by decide)

end Cthulhu
