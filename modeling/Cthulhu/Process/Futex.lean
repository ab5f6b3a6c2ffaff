import Cthulhu.Process.Scheduler

/-!
# Futexes

`futex_wait` and `futex_wake`. The table of a process maps an address to a wait list, and the
list is the `futex_block` of the thread that first waited there. The section of `futex_wait`
that holds the locks is split at the point where the thread is on the list and not yet
blocked.

The wake-up loop puts every thread it wakes on the best CPU, and looking for that CPU takes
the locks of the first CPU once more. Called on the first CPU it never gets them.
-/

namespace Cthulhu

open Lib

/-- How a futex call ends; `spinning` where it does not. -/
inductive FutexResult
  | ok
  | wouldBlock
  | invalid
  | spinning
  deriving DecidableEq, Repr

namespace Scheduler

variable {n : ℕ}

/-- The list that `futex_wait` pushes a thread to. -/
def waitList (st : Scheduler n) (t ftx : ℕ) : ℕ :=
  (st.futexes (st.thread t).parentProcess ftx).getD (st.thread t).futexBlock

/-- The enqueueing of `futex_wait`. -/
def futexPush (st : Scheduler n) (c : Fin (n + 1)) (ftx : ℕ) : Scheduler n :=
  match (st.cpu c).ct with
  | none => st
  | some t =>
    let process := (st.thread t).parentProcess
    let btl := st.waitList t ftx
    { st with
      futexes := Function.update st.futexes process (Function.update (st.futexes process) ftx (some btl))
      list := Function.update st.list btl (st.list btl ++ [t]) }

/-- The blocking of `futex_wait`. -/
def block (st : Scheduler n) (c : Fin (n + 1)) : Scheduler n :=
  match (st.cpu c).ct with
  | none => st
  | some t => st.setThread t { st.thread t with blocked := true }

/-- The section of `futex_wait` that holds the locks; the call to `schedule` follows. -/
def futexWait (st : Scheduler n) (c : Fin (n + 1)) (ftx : ℕ) : Scheduler n := (st.futexPush c ftx).block c

/-- A thread taken off a wait list and unblocked. -/
def release (st : Scheduler n) (btl t : ℕ) (rest : List ℕ) : Scheduler n :=
  ({ st with list := Function.update st.list btl rest }).setThread t { st.thread t with blocked := false }

/-- The loop of `futex_wake`; the flag is false where it spins on its own lock. -/
def wakeLoop (c : Fin (n + 1)) (btl : ℕ) : ℕ → Scheduler n → Bool × Scheduler n
  | 0, st => (true, st)
  | num + 1, st =>
    match st.list btl with
    | [] => (true, st)
    | t :: rest =>
      match (st.release btl t rest).enscheduleBest (some c) t with
      | none => (false, st.release btl t rest)
      | some st => wakeLoop c btl num st

/-- `futex_wake`. -/
def futexWake (st : Scheduler n) (c : Fin (n + 1)) (ftx : ℕ) (num : ℤ) : FutexResult × Scheduler n :=
  match (st.cpu c).ct with
  | none => (.invalid, st)
  | some t =>
    match st.futexes (st.thread t).parentProcess ftx with
    | none => (.invalid, st)
    | some btl =>
      let r := wakeLoop c btl num.toNat st
      (if r.1 then .ok else .spinning, r.2)

/-- The threads that a wake-up takes from a list. -/
def wakeable (st : Scheduler n) (c : Fin (n + 1)) (ftx : ℕ) (num : ℤ) : List ℕ :=
  match (st.cpu c).ct with
  | none => []
  | some t =>
    match st.futexes (st.thread t).parentProcess ftx with
    | none => []
    | some btl => (st.list btl).take num.toNat

/-- What a wake-up that ends has done: the threads in front of the list are unblocked, in
order, and go to the first CPU. -/
structure Woken (st st' : Scheduler n) (btl num : ℕ) : Prop where
  list : st'.list = Function.update st.list btl ((st.list btl).drop num)
  futexes : st'.futexes = st.futexes
  thread : ∀ t, st'.thread t =
    if t ∈ (st.list btl).take num then { st.thread t with blocked := false } else st.thread t
  ct : ∀ c, (st'.cpu c).ct = (st.cpu c).ct
  queues : ∀ i, (st'.cpu 0).queues i =
    (st.cpu 0).queues i ++ ((st.list btl).take num).filter fun t => (st.thread t).priority = i

/-- What a wait has done: the thread is blocked and at the end of its list, which the table now
has for the address. -/
structure Waits (st st' : Scheduler n) (t ftx : ℕ) : Prop where
  list : st'.list = Function.update st.list (st.waitList t ftx) (st.list (st.waitList t ftx) ++ [t])
  futexes : ∀ process f, st'.futexes process f =
    if process = (st.thread t).parentProcess ∧ f = ftx then some (st.waitList t ftx) else st.futexes process f
  thread : ∀ x, st'.thread x = if x = t then { st.thread t with blocked := true } else st.thread x
  cpu : st'.cpu = st.cpu

/-- The enqueueing with the thread that runs on the CPU. -/
theorem futexPush_eq {st : Scheduler n} {c : Fin (n + 1)} {t : ℕ} (hct : (st.cpu c).ct = some t) (ftx : ℕ) :
    st.futexPush c ftx = { st with
      futexes := Function.update st.futexes (st.thread t).parentProcess
        (Function.update (st.futexes (st.thread t).parentProcess) ftx (some (st.waitList t ftx)))
      list := Function.update st.list (st.waitList t ftx) (st.list (st.waitList t ftx) ++ [t]) } := by
  unfold futexPush
  rw [hct]

/-- The blocking with the thread that runs on the CPU. -/
theorem block_eq {st : Scheduler n} {c : Fin (n + 1)} {t : ℕ} (hct : (st.cpu c).ct = some t) :
    st.block c = st.setThread t { st.thread t with blocked := true } := by
  unfold block
  rw [hct]

/-- The section of `futex_wait` waits. -/
theorem futexWait_waits {st : Scheduler n} {c : Fin (n + 1)} {t : ℕ} (hct : (st.cpu c).ct = some t) (ftx : ℕ) :
    Waits st (st.futexWait c ftx) t ftx := by
  have hpushed : ((st.futexPush c ftx).cpu c).ct = some t := by
    rw [futexPush_eq hct]
    exact hct
  unfold futexWait
  rw [block_eq hpushed, futexPush_eq hct]
  refine ⟨rfl, fun process f => ?_, fun x => setThread_thread .., rfl⟩
  rw [setThread_futexes]
  dsimp only
  by_cases hprocess : process = (st.thread t).parentProcess
  · subst hprocess
    rw [Function.update_self, Function.update_apply]
    simp only [true_and]
  · rw [Function.update_of_ne hprocess, if_neg fun hboth => hprocess hboth.1]

/-- Without a current thread there is nothing to wait. -/
theorem futexWait_idle {st : Scheduler n} {c : Fin (n + 1)} (hct : (st.cpu c).ct = none) (ftx : ℕ) :
    st.futexWait c ftx = st := by
  have hpush : st.futexPush c ftx = st := by
    unfold futexPush
    rw [hct]
  unfold futexWait block
  rw [hpush, hct]

/-- Every property that a release and an enqueueing keep is kept by the loop. -/
theorem wakeLoop_invariant (inv : Scheduler n → Prop) (c : Fin (n + 1)) (btl : ℕ)
    (hrelease : ∀ st t rest, inv st → st.list btl = t :: rest → inv (st.release btl t rest))
    (henqueue : ∀ st t, inv st → inv (st.enqueue 0 t)) (num : ℕ) (st : Scheduler n) (h : inv st) :
    inv (wakeLoop c btl num st).2 := by
  induction num generalizing st with
  | zero => exact h
  | succ num ih =>
    unfold wakeLoop
    split
    next => exact h
    next t rest hlist =>
      have hreleased := hrelease st t rest h hlist
      unfold enscheduleBest
      rw [bestCpu_eq]
      by_cases hc : some c = some 0
      · rw [if_pos hc]
        exact hreleased
      · rw [if_neg hc]
        exact ih _ (henqueue _ t hreleased)

/-- A released thread is the same but for its flag. -/
theorem release_thread (st : Scheduler n) (btl t : ℕ) (rest : List ℕ) (x : ℕ) :
    (st.release btl t rest).thread x = if x = t then { st.thread x with blocked := false } else st.thread x := by
  unfold release
  rw [setThread_thread]
  split
  next hx => rw [hx]
  next => rfl

/-- Every property that a release and an enqueueing keep is kept by a wake-up. -/
theorem futexWake_invariant (inv : Scheduler n → Prop)
    (hrelease : ∀ st btl t rest, inv st → st.list btl = t :: rest → inv (st.release btl t rest))
    (henqueue : ∀ st t, inv st → inv (st.enqueue 0 t)) {st : Scheduler n} (h : inv st) (c : Fin (n + 1)) (ftx : ℕ)
    (num : ℤ) : inv (st.futexWake c ftx num).2 := by
  unfold futexWake
  split
  next => exact h
  next =>
    split
    next => exact h
    next btl _ => exact wakeLoop_invariant inv c btl (fun st => hrelease st btl) henqueue num.toNat st h

/-- A wake-up leaves who runs where, and which process and registers a thread has, even if it does
not end. -/
theorem futexWake_keeps (st : Scheduler n) (c : Fin (n + 1)) (ftx : ℕ) (num : ℤ) :
    (∀ c', ((st.futexWake c ftx num).2.cpu c').ct = (st.cpu c').ct) ∧
      ∀ x, ((st.futexWake c ftx num).2.thread x).parentProcess = (st.thread x).parentProcess ∧
        ((st.futexWake c ftx num).2.thread x).last = (st.thread x).last := by
  refine futexWake_invariant (fun st' => (∀ c', (st'.cpu c').ct = (st.cpu c').ct) ∧
    ∀ x, (st'.thread x).parentProcess = (st.thread x).parentProcess ∧ (st'.thread x).last = (st.thread x).last)
    (fun st' btl t rest h _ => ?_) (fun st' t h => ?_) ⟨fun _ => rfl, fun _ => ⟨rfl, rfl⟩⟩ c ftx num
  · refine ⟨h.1, fun x => ?_⟩
    rw [release_thread]
    split
    next => exact h.2 x
    next => exact h.2 x
  · exact ⟨fun c' => (st'.enqueue_ct 0 t c').trans (h.1 c'), h.2⟩

/-- A release keeps every priority. -/
theorem release_priority (st : Scheduler n) (btl t : ℕ) (rest : List ℕ) (x : ℕ) :
    ((st.release btl t rest).thread x).priority = (st.thread x).priority := by
  rw [release_thread]
  split
  next => rfl
  next => rfl

/-- With the locks of another CPU the loop ends and wakes the front of the list. -/
theorem wakeLoop_woken {c : Fin (n + 1)} (hc : c ≠ 0) (btl num : ℕ) (st : Scheduler n) :
    (wakeLoop c btl num st).1 = true ∧ Woken st (wakeLoop c btl num st).2 btl num := by
  induction num generalizing st with
  | zero => exact ⟨rfl, by simp [wakeLoop], rfl, by simp [wakeLoop], fun _ => rfl, by simp [wakeLoop]⟩
  | succ num ih =>
    unfold wakeLoop
    split
    next hlist => exact ⟨rfl, by simp [hlist], rfl, by simp [hlist], fun _ => rfl, by simp [hlist]⟩
    next t rest hlist =>
      unfold enscheduleBest
      rw [bestCpu_eq, if_neg (by simpa using hc)]
      obtain ⟨hend, hwoken⟩ := ih ((st.release btl t rest).enschedule t 0)
      have hrest : ((st.release btl t rest).enschedule t 0).list btl = rest := Function.update_self ..
      have hprio (x : ℕ) : (((st.release btl t rest).enschedule t 0).thread x).priority = (st.thread x).priority :=
        st.release_priority btl t rest x
      refine ⟨hend, ?_, hwoken.futexes, fun x => ?_, fun c' => ?_, fun i => ?_⟩
      · rw [hlist, List.drop_succ_cons]
        refine hwoken.list.trans ?_
        rw [hrest]
        exact Function.update_idem ..
      · refine (hwoken.thread x).trans ?_
        simp only [hrest, hlist, List.take_succ_cons, List.mem_cons]
        have hthread : ((st.release btl t rest).enschedule t 0).thread x = _ := st.release_thread btl t rest x
        rw [hthread]
        by_cases hx : x = t
        · simp [hx]
        · simp [hx]
      · refine (hwoken.ct c').trans ?_
        exact enqueue_ct ..
      · refine (hwoken.queues i).trans ?_
        simp only [hrest, hprio]
        rw [hlist, List.take_succ_cons, ← List.singleton_append, List.filter_append, ← List.append_assoc]
        congr 1
        refine (enqueue_queues _ 0 t i).trans ?_
        simp only [release_priority]
        rfl

/-- The loop does nothing if there is nobody to wake, on any CPU. -/
theorem wakeLoop_nobody (c : Fin (n + 1)) {btl num : ℕ} {st : Scheduler n} (h : (st.list btl).take num = []) :
    wakeLoop c btl num st = (true, st) := by
  cases num with
  | zero => rfl
  | succ num =>
    unfold wakeLoop
    split
    next => rfl
    next t rest hlist =>
      rw [hlist] at h
      exact absurd h (by simp)

/-- Waking nobody is a wake-up too. -/
theorem Woken.nobody {st : Scheduler n} {btl num : ℕ} (h : (st.list btl).take num = []) : Woken st st btl num := by
  have hdrop : (st.list btl).drop num = st.list btl := by
    conv_rhs => rw [← List.take_append_drop num (st.list btl), h, List.nil_append]
  exact ⟨by rw [hdrop, Function.update_eq_self], rfl, by simp [h], fun _ => rfl, by simp [h]⟩

/-- A wake-up that finds a list and can end has woken the front of it. -/
theorem futexWake_woken {st : Scheduler n} {c : Fin (n + 1)} {ftx : ℕ} {num : ℤ} {t btl : ℕ}
    (hct : (st.cpu c).ct = some t) (hbtl : st.futexes (st.thread t).parentProcess ftx = some btl)
    (h : c ≠ 0 ∨ st.wakeable c ftx num = []) :
    (st.futexWake c ftx num).1 = .ok ∧ Woken st (st.futexWake c ftx num).2 btl num.toNat := by
  unfold wakeable at h
  unfold futexWake
  simp only [hct, hbtl] at h ⊢
  rcases h with hc | hnobody
  · obtain ⟨hend, hwoken⟩ := wakeLoop_woken hc btl num.toNat st
    rw [hend]
    exact ⟨rfl, hwoken⟩
  · rw [wakeLoop_nobody c hnobody]
    exact ⟨rfl, Woken.nobody hnobody⟩

/-- The loop does not end on the first CPU if there is somebody to wake. -/
theorem wakeLoop_spinning {btl num : ℕ} {st : Scheduler n} (h : (st.list btl).take num ≠ []) :
    (wakeLoop 0 btl num st).1 = false := by
  cases num with
  | zero => exact absurd List.take_zero h
  | succ num =>
    unfold wakeLoop
    split
    next hlist =>
      rw [hlist] at h
      exact absurd List.take_nil h
    next t rest hlist =>
      unfold enscheduleBest
      rw [bestCpu_eq]
      rfl

/-- A wake-up that ends and finds a list has woken the front of it. -/
theorem futexWake_ended {st : Scheduler n} {c : Fin (n + 1)} {ftx : ℕ} {num : ℤ} {t btl : ℕ}
    (hct : (st.cpu c).ct = some t) (hbtl : st.futexes (st.thread t).parentProcess ftx = some btl)
    (h : (st.futexWake c ftx num).1 ≠ .spinning) : Woken st (st.futexWake c ftx num).2 btl num.toNat := by
  refine (futexWake_woken hct hbtl ?_).2
  by_contra hneither
  rw [not_or, not_not] at hneither
  obtain ⟨rfl, hsome⟩ := hneither
  unfold wakeable at hsome
  unfold futexWake at h
  simp only [hct, hbtl] at hsome h
  rw [wakeLoop_spinning hsome] at h
  exact h rfl

/-- A wake-up that finds no list changes nothing. -/
theorem futexWake_unlisted {st : Scheduler n} {c : Fin (n + 1)} {ftx : ℕ} (num : ℤ)
    (h : ∀ t, (st.cpu c).ct = some t → st.futexes (st.thread t).parentProcess ftx = none) :
    st.futexWake c ftx num = (.invalid, st) := by
  unfold futexWake
  split
  next => rfl
  next t hct => rw [h t hct]

end Scheduler

end Cthulhu
