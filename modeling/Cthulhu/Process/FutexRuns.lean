import Mathlib.Data.Set.Card
import Cthulhu.Process.SchedulerSteps

/-!
# Futex isolation

Beside the scheduler a run keeps, for every process and address, the threads that started to
wait there and are still blocked, in the order in which they started. A wake-up is right if
it unblocks the front of that sequence and nobody else.

The wait list of an address is borrowed from its first waiter and never given back. It stays
the list of one address as long as every thread that waits at a fresh address still has its
own list at hand, and then every wake-up is right that can end at all.
-/

namespace Cthulhu

open Lib

/-- A scheduler with the threads that wait on each address of each process. -/
structure FutexTrace (n : ℕ) where
  sched : Scheduler n
  waiting : ℕ → ℕ → List ℕ

/-- The thread that starts to wait on an address of a process, if the section is that. -/
def Scheduler.startsWaiting {n : ℕ} (st : Scheduler n) (process ftx : ℕ) : SchedulerOp n → List ℕ
  | .futexWait c f => (st.cpu c).ct.toList.filter fun t => (st.thread t).parentProcess = process ∧ f = ftx
  | _ => []

/-- The futex calls find one list for each address: a thread that waits is not blocked already, and
at an address without a list it still has its own; a wake-up that finds a thread is not made on
the first CPU; a new thread is on no list. -/
def Scheduler.Isolated {n : ℕ} (st : Scheduler n) : SchedulerOp n → Prop
  | .futexWait c ftx => ∀ t, (st.cpu c).ct = some t → (st.thread t).blocked = false ∧
      (st.futexes (st.thread t).parentProcess ftx = none →
        ∀ process f, st.futexes process f ≠ some (st.thread t).futexBlock)
  | .futexWake c ftx num => c ≠ 0 ∨ st.wakeable c ftx num = []
  | .createProcessBase t _ => ∀ l, t ∉ st.list l
  | _ => True

namespace FutexTrace

variable {n : ℕ}

/-- A section, and who still waits after it. -/
def step (s : FutexTrace n) (op : SchedulerOp n) : FutexTrace n where
  sched := s.sched.step op
  waiting := fun process ftx => (s.waiting process ftx ++ s.sched.startsWaiting process ftx op).filter fun t =>
    ((s.sched.step op).thread t).blocked

/-- A scheduler on which nobody has used a futex yet. -/
def Unused (s : FutexTrace n) : Prop :=
  (∀ process ftx, s.sched.futexes process ftx = none) ∧ (∀ l, s.sched.list l = []) ∧
    ∀ process ftx, s.waiting process ftx = []

/-- The wake-up ends, unblocks the first `num` waiting threads of the address in their order, and
leaves everyone who waits elsewhere. -/
structure WakesInOrder (s : FutexTrace n) (c : Fin (n + 1)) (process ftx : ℕ) (num : ℤ) : Prop where
  ends : (s.sched.futexWake c ftx num).1 ≠ .spinning
  unblocked : ∀ t, ((s.sched.thread t).blocked = true ∧
    ((s.sched.futexWake c ftx num).2.thread t).blocked = false) ↔ t ∈ (s.waiting process ftx).take num.toNat
  count : Set.ncard {t | (s.sched.thread t).blocked = true ∧
    ((s.sched.futexWake c ftx num).2.thread t).blocked = false} = min num.toNat (s.waiting process ftx).length
  order : ∀ i, ((s.sched.futexWake c ftx num).2.cpu 0).queues i = (s.sched.cpu 0).queues i ++
    ((s.waiting process ftx).take num.toNat).filter fun t => (s.sched.thread t).priority = i
  others : ∀ process' ftx', (process', ftx') ≠ (process, ftx) → ∀ t ∈ s.waiting process' ftx',
    ((s.sched.futexWake c ftx num).2.thread t).blocked = true

/-- The wait lists hold who waits, one list for each address. -/
structure Listed (s : FutexTrace n) : Prop where
  waiting : ∀ process ftx, s.waiting process ftx = ((s.sched.futexes process ftx).map s.sched.list).getD []
  apart : ∀ {process ftx process' ftx' l}, s.sched.futexes process ftx = some l →
    s.sched.futexes process' ftx' = some l → process = process' ∧ ftx = ftx'
  used : ∀ {l}, s.sched.list l ≠ [] → ∃ process ftx, s.sched.futexes process ftx = some l
  blocked : ∀ {l t}, t ∈ s.sched.list l → (s.sched.thread t).blocked = true
  nodup : ∀ l, (s.sched.list l).Nodup
  disjoint : ∀ {l l' t}, t ∈ s.sched.list l → t ∈ s.sched.list l' → l = l'

variable {s : FutexTrace n}

/-- Who waits is on the list of the address. -/
theorem Listed.mem_waiting (h : Listed s) {process ftx t : ℕ} :
    t ∈ s.waiting process ftx ↔ ∃ l, s.sched.futexes process ftx = some l ∧ t ∈ s.sched.list l := by
  rw [h.waiting]
  cases s.sched.futexes process ftx <;> simp

/-- A change that leaves lists and tables and unblocks nobody on a list keeps who waits. -/
theorem Listed.keep (h : Listed s) {st' : Scheduler n} (hlist : st'.list = s.sched.list)
    (hfutexes : st'.futexes = s.sched.futexes)
    (hblocked : ∀ l t, t ∈ s.sched.list l → (st'.thread t).blocked = true) :
    Listed ⟨st', fun process ftx => (s.waiting process ftx ++ []).filter fun t => (st'.thread t).blocked⟩ := by
  refine ⟨fun process ftx => ?_, ?_, ?_, fun {l t} ht => ?_, ?_, ?_⟩
  · dsimp only
    rw [hlist, hfutexes, ← h.waiting, List.append_nil, List.filter_eq_self]
    intro t ht
    obtain ⟨l, -, hmem⟩ := h.mem_waiting.mp ht
    exact hblocked l t hmem
  · rw [hfutexes]
    exact h.apart
  · rw [hfutexes, hlist]
    exact h.used
  · dsimp only at ht
    rw [hlist] at ht
    exact hblocked l t ht
  · rw [hlist]
    exact h.nodup
  · rw [hlist]
    exact h.disjoint

/-- A thread that is not blocked is on no list. -/
theorem Listed.not_mem_list (h : Listed s) {t : ℕ} (ht : (s.sched.thread t).blocked = false) (l : ℕ) :
    t ∉ s.sched.list l := fun hmem => by
  have hblocked := h.blocked hmem
  rw [ht] at hblocked
  exact absurd hblocked (by simp)

/-- The list a thread is about to wait on holds who waits at its address, and belongs to no other. -/
theorem Listed.waitList (h : Listed s) {t ftx : ℕ}
    (hown : s.sched.futexes (s.sched.thread t).parentProcess ftx = none →
      ∀ process f, s.sched.futexes process f ≠ some (s.sched.thread t).futexBlock) :
    s.sched.list (s.sched.waitList t ftx) = s.waiting (s.sched.thread t).parentProcess ftx ∧
      ∀ process f, s.sched.futexes process f = some (s.sched.waitList t ftx) →
        process = (s.sched.thread t).parentProcess ∧ f = ftx := by
  rw [h.waiting]
  unfold Scheduler.waitList
  cases hentry : s.sched.futexes (s.sched.thread t).parentProcess ftx with
  | some l => exact ⟨rfl, fun process f hf => h.apart hf hentry⟩
  | none =>
    refine ⟨?_, fun process f hf => absurd hf (hown hentry process f)⟩
    by_contra hne
    obtain ⟨process, f, hf⟩ := h.used hne
    exact hown hentry process f hf

/-- A thread that waits as it should goes to the end of who waits at its address. -/
theorem Listed.futexWait (h : Listed s) {c : Fin (n + 1)} {ftx : ℕ}
    (hguard : s.sched.Isolated (.futexWait c ftx)) : Listed (s.step (.futexWait c ftx)) := by
  unfold step Scheduler.startsWaiting
  dsimp only [Scheduler.step]
  cases hct : (s.sched.cpu c).ct with
  | none =>
    rw [Scheduler.futexWait_idle hct]
    exact h.keep rfl rfl fun l t ht => h.blocked ht
  | some t =>
    obtain ⟨hawake, hown⟩ := hguard t hct
    have hwaits := Scheduler.futexWait_waits hct ftx
    obtain ⟨hlisted, hfree⟩ := h.waitList hown
    have hnew := h.not_mem_list hawake
    generalize s.sched.futexWait c ftx = st' at hwaits
    have hmem (l x : ℕ) : x ∈ st'.list l ↔ x ∈ s.sched.list l ∨ l = s.sched.waitList t ftx ∧ x = t := by
      rw [hwaits.list, Function.update_apply]
      split
      next hl => simp [hl]
      next hl => simp [hl]
    have hblocked {l x : ℕ} (hx : x ∈ st'.list l) : (st'.thread x).blocked = true := by
      rw [hwaits.thread]
      split
      next => rfl
      next hne => exact h.blocked (((hmem l x).mp hx).resolve_right fun hboth => hne hboth.2)
    have hwaiting (process f : ℕ) : s.waiting process f ++ ((some t).toList.filter fun t =>
          (s.sched.thread t).parentProcess = process ∧ ftx = f) =
        ((st'.futexes process f).map st'.list).getD [] := by
      rw [hwaits.futexes, hwaits.list]
      by_cases hhere : process = (s.sched.thread t).parentProcess ∧ f = ftx
      · obtain ⟨rfl, rfl⟩ := hhere
        simp [hlisted]
      · rw [if_neg hhere, h.waiting]
        have helse : ¬ ((s.sched.thread t).parentProcess = process ∧ ftx = f) := fun hboth =>
          hhere ⟨hboth.1.symm, hboth.2.symm⟩
        cases hentry : s.sched.futexes process f with
        | none => simp [helse]
        | some l =>
          have hl : l ≠ s.sched.waitList t ftx := fun heq => hhere (hfree process f (heq ▸ hentry))
          simp [helse, Function.update_of_ne hl]
    refine ⟨fun process f => ?_, ?_, ?_, hblocked, ?_, ?_⟩
    · dsimp only
      rw [hwaiting, List.filter_eq_self]
      intro x hx
      cases hentry : st'.futexes process f with
      | none =>
        rw [hentry] at hx
        exact absurd hx (by simp)
      | some l =>
        rw [hentry] at hx
        exact hblocked hx
    · intro process f process' f' l hf hf'
      dsimp only at hf hf'
      rw [hwaits.futexes] at hf hf'
      split at hf
      next hhere =>
        obtain rfl := Option.some.inj hf
        split at hf'
        next hhere' => exact ⟨hhere.1.trans hhere'.1.symm, hhere.2.trans hhere'.2.symm⟩
        next hhere' => exact absurd (hfree process' f' hf') hhere'
      next hhere =>
        split at hf'
        next hhere' =>
          obtain rfl := Option.some.inj hf'
          exact absurd (hfree process f hf) hhere
        next => exact h.apart hf hf'
    · intro l hl
      dsimp only at hl ⊢
      by_cases hbtl : l = s.sched.waitList t ftx
      · exact ⟨(s.sched.thread t).parentProcess, ftx, by rw [hwaits.futexes, if_pos ⟨rfl, rfl⟩, hbtl]⟩
      · rw [hwaits.list, Function.update_of_ne hbtl] at hl
        obtain ⟨process, f, hf⟩ := h.used hl
        refine ⟨process, f, ?_⟩
        rw [hwaits.futexes, if_neg fun hhere => hbtl ?_, hf]
        unfold Scheduler.waitList
        rw [← hhere.1, ← hhere.2, hf, Option.getD_some]
    · intro l
      dsimp only
      rw [hwaits.list, Function.update_apply]
      split
      next => exact List.nodup_append.mpr ⟨h.nodup _, List.nodup_singleton t, fun x hx y hy hxy => by
          rw [List.mem_singleton] at hy
          exact hnew _ (hy ▸ hxy ▸ hx)⟩
      next => exact h.nodup l
    · intro l l' x hx hx'
      rcases (hmem l x).mp hx with hold | ⟨rfl, rfl⟩
      · rcases (hmem l' x).mp hx' with hold' | ⟨-, rfl⟩
        · exact h.disjoint hold hold'
        · exact absurd hold (hnew l)
      · rcases (hmem l' x).mp hx' with hold' | ⟨rfl, -⟩
        · exact absurd hold' (hnew l')
        · rfl

/-- After a wake-up exactly the back of the list is still blocked there. -/
theorem Listed.still_blocked (h : Listed s) {st' : Scheduler n} {btl num : ℕ} (hwoken : s.sched.Woken st' btl num)
    (l : ℕ) : ((s.sched.list l).filter fun t => (st'.thread t).blocked) = st'.list l := by
  have hflag {l' t : ℕ} (ht : t ∈ s.sched.list l') :
      (st'.thread t).blocked = decide (t ∉ (s.sched.list btl).take num) := by
    rw [hwoken.thread]
    split
    next hmem => simp [hmem]
    next hmem => simp [hmem, h.blocked ht]
  rw [hwoken.list, Function.update_apply]
  split
  next hl =>
    subst hl
    rw [← filter_not_mem_take (h.nodup l)]
    exact List.filter_congr fun t ht => hflag ht
  next hl =>
    refine List.filter_eq_self.mpr fun t ht => ?_
    rw [hflag ht, decide_eq_true_eq]
    exact fun hmem => hl (h.disjoint ht (List.mem_of_mem_take hmem))

/-- A wake-up that ends keeps the lists. -/
theorem Listed.woken (h : Listed s) {st' : Scheduler n} {btl num : ℕ} (hwoken : s.sched.Woken st' btl num) :
    Listed ⟨st', fun process ftx => (s.waiting process ftx ++ []).filter fun t => (st'.thread t).blocked⟩ := by
  have hstill := h.still_blocked hwoken
  have hmem {l t : ℕ} (ht : t ∈ st'.list l) : t ∈ s.sched.list l ∧ (st'.thread t).blocked = true := by
    rw [← hstill] at ht
    exact List.mem_filter.mp ht
  refine ⟨fun process ftx => ?_, ?_, fun {l} hl => ?_, fun ht => (hmem ht).2, fun l => ?_, ?_⟩
  · dsimp only
    rw [hwoken.futexes, List.append_nil, h.waiting]
    cases s.sched.futexes process ftx with
    | none => rfl
    | some l => exact hstill l
  · rw [hwoken.futexes]
    exact h.apart
  · rw [hwoken.futexes]
    obtain ⟨t, ht⟩ := List.exists_mem_of_ne_nil _ hl
    exact h.used (List.ne_nil_of_mem (hmem ht).1)
  · dsimp only
    rw [← hstill]
    exact (h.nodup l).filter _
  · exact fun ht ht' => h.disjoint (hmem ht).1 (hmem ht').1

/-- A wake-up that can end keeps the lists. -/
theorem Listed.futexWake (h : Listed s) {c : Fin (n + 1)} {ftx : ℕ} {num : ℤ}
    (hguard : s.sched.Isolated (.futexWake c ftx num)) : Listed (s.step (.futexWake c ftx num)) := by
  unfold step Scheduler.startsWaiting
  dsimp only [Scheduler.step]
  by_cases hnone : ∀ t, (s.sched.cpu c).ct = some t → s.sched.futexes (s.sched.thread t).parentProcess ftx = none
  · rw [Scheduler.futexWake_unlisted num hnone]
    exact h.keep rfl rfl fun l t ht => h.blocked ht
  · push Not at hnone
    obtain ⟨t, hct, hentry⟩ := hnone
    obtain ⟨btl, hbtl⟩ := Option.ne_none_iff_exists'.mp hentry
    exact h.woken (Scheduler.futexWake_woken hct hbtl hguard).2

/-- A quiet section keeps the lists. -/
theorem Listed.quiet (h : Listed s) {st' : Scheduler n} (hquiet : s.sched.Quiet st') :
    Listed ⟨st', fun process ftx => (s.waiting process ftx ++ []).filter fun t => (st'.thread t).blocked⟩ :=
  h.keep hquiet.list hquiet.futexes fun _ t ht => (hquiet.thread t).blocked.trans (h.blocked ht)

/-- Every section that meets the guard keeps the lists. -/
theorem Listed.step (h : Listed s) (op : SchedulerOp n) (hguard : s.sched.Isolated op) : Listed (s.step op) := by
  cases op with
  | schedule c r answer => exact h.quiet (s.sched.quiet_step_schedule c r answer)
  | enschedule t c => exact h.quiet (s.sched.quiet_setCpu ..)
  | enscheduleBest t => exact h.quiet (s.sched.quiet_step_enscheduleBest t)
  | createProcessBase t th =>
    obtain ⟨hlist, hfutexes, hthread⟩ := s.sched.step_createProcessBase t th
    refine h.keep hlist hfutexes fun l x hx => ?_
    rw [hthread x fun heq => hguard l (heq ▸ hx)]
    exact h.blocked hx
  | futexWait c ftx => exact h.futexWait hguard
  | futexWake c ftx num => exact h.futexWake hguard

/-- A fresh scheduler has its lists. -/
theorem Unused.listed (h : Unused s) : Listed s := by
  obtain ⟨hfutexes, hlist, hwaiting⟩ := h
  refine ⟨fun process ftx => ?_, fun hf => ?_, fun hl => absurd (hlist _) hl, fun ht => ?_, fun l => ?_, fun ht => ?_⟩
  · rw [hwaiting, hfutexes]
    rfl
  · rw [hfutexes] at hf
    exact absurd hf (by simp)
  · rw [hlist] at ht
    exact absurd ht (by simp)
  · rw [hlist]
    exact List.nodup_nil
  · rw [hlist] at ht
    exact absurd ht (by simp)

/-- What a wake-up that can end does, in terms of who waits. -/
theorem Listed.wake_effect (h : Listed s) {c : Fin (n + 1)} {t ftx : ℕ} {num : ℤ}
    (hct : (s.sched.cpu c).ct = some t) (hguard : s.sched.Isolated (.futexWake c ftx num)) :
    (s.sched.futexWake c ftx num).1 ≠ .spinning ∧
      (∀ x, (s.sched.futexWake c ftx num).2.thread x =
        if x ∈ (s.waiting (s.sched.thread t).parentProcess ftx).take num.toNat then
          { s.sched.thread x with blocked := false } else s.sched.thread x) ∧
      ∀ i, ((s.sched.futexWake c ftx num).2.cpu 0).queues i = (s.sched.cpu 0).queues i ++
        ((s.waiting (s.sched.thread t).parentProcess ftx).take num.toNat).filter fun t =>
          (s.sched.thread t).priority = i := by
  rw [h.waiting]
  cases hentry : s.sched.futexes (s.sched.thread t).parentProcess ftx with
  | none =>
    rw [Scheduler.futexWake_unlisted num fun t' hct' => by rw [hct] at hct'; exact Option.some.inj hct' ▸ hentry]
    simp
  | some btl =>
    obtain ⟨hok, hwoken⟩ := Scheduler.futexWake_woken hct hentry hguard
    exact ⟨by rw [hok]; decide, hwoken.thread, hwoken.queues⟩

/-- With one list for each address a wake-up that can end is right. -/
theorem Listed.wakesInOrder (h : Listed s) {c : Fin (n + 1)} {t ftx : ℕ} {num : ℤ}
    (hct : (s.sched.cpu c).ct = some t) (hguard : s.sched.Isolated (.futexWake c ftx num)) :
    s.WakesInOrder c (s.sched.thread t).parentProcess ftx num := by
  obtain ⟨hends, hthread, hqueues⟩ := h.wake_effect hct hguard
  have hwaits {process f x : ℕ} (hx : x ∈ s.waiting process f) : (s.sched.thread x).blocked = true := by
    obtain ⟨l, -, hmem⟩ := h.mem_waiting.mp hx
    exact h.blocked hmem
  have hnodup : (s.waiting (s.sched.thread t).parentProcess ftx).Nodup := by
    rw [h.waiting]
    cases s.sched.futexes (s.sched.thread t).parentProcess ftx with
    | none => exact List.nodup_nil
    | some btl => exact h.nodup btl
  have hunblocked (x : ℕ) : ((s.sched.thread x).blocked = true ∧
      ((s.sched.futexWake c ftx num).2.thread x).blocked = false) ↔
      x ∈ (s.waiting (s.sched.thread t).parentProcess ftx).take num.toNat := by
    rw [hthread]
    constructor
    · rintro ⟨hbefore, hafter⟩
      by_contra hmem
      rw [if_neg hmem, hbefore] at hafter
      exact absurd hafter (by simp)
    · intro hmem
      rw [if_pos hmem]
      exact ⟨hwaits (List.mem_of_mem_take hmem), rfl⟩
  refine ⟨hends, hunblocked, ?_, hqueues, fun process' ftx' hne x hx => ?_⟩
  · have hset : {x | (s.sched.thread x).blocked = true ∧
        ((s.sched.futexWake c ftx num).2.thread x).blocked = false} =
        (((s.waiting (s.sched.thread t).parentProcess ftx).take num.toNat).toFinset : Set ℕ) := by
      ext x
      rw [Set.mem_ofPred_eq, hunblocked, Finset.mem_coe, List.mem_toFinset]
    rw [hset, Set.ncard_coe_finset, List.toFinset_card_of_nodup (hnodup.sublist (List.take_sublist _ _)),
      List.length_take]
  · rw [hthread, if_neg fun hmem => hne ?_]
    · exact hwaits hx
    · obtain ⟨l, hentry, hl⟩ := h.mem_waiting.mp hx
      obtain ⟨l', hentry', hl'⟩ := h.mem_waiting.mp (List.mem_of_mem_take hmem)
      obtain rfl := h.disjoint hl hl'
      obtain ⟨rfl, rfl⟩ := h.apart hentry hentry'
      rfl

end FutexTrace

/-- In every run of scheduling and futex sections that meet the guard, on any number of CPUs, from a
state without futexes, every wake-up that meets it unblocks the first waiting threads of its
address, in their order, and nobody else. -/
theorem futex_run_isolated {n : ℕ} (s : FutexTrace n) (ops : List (SchedulerOp n)) (hs : s.Unused)
    (hops : Guarded FutexTrace.step (fun s op => s.sched.Isolated op) s ops) (c : Fin (n + 1)) (t ftx : ℕ) (num : ℤ)
    (hct : ((run FutexTrace.step s ops).sched.cpu c).ct = some t)
    (hwake : (run FutexTrace.step s ops).sched.Isolated (.futexWake c ftx num)) :
    (run FutexTrace.step s ops).WakesInOrder c ((run FutexTrace.step s ops).sched.thread t).parentProcess ftx num :=
  (hops.invariant FutexTrace.Listed (fun _ op h hguard => h.step op hguard) hs.listed).wakesInOrder hct hwake

/-- A thread of process 7 that owns the list of its own number. -/
def plainThread (t : ℕ) : Thread where
  priority := 0
  blocked := false
  parentProcess := 7
  futexBlock := t
  continuation := none
  last := switchToUsermode 0 0 0 0 0 0

/-- Two CPUs that run thread 0 and thread 2 of one process, with nobody queued. -/
def twoCpus : Scheduler 1 where
  cpu := fun c => ⟨some (if c = 0 then 0 else 2), fun _ => []⟩
  thread := plainThread
  threads := [0, 2]
  list := fun _ => []
  futexes := fun _ _ => none

/-- The two CPUs with nobody waiting. -/
def twoCpusTrace : FutexTrace 1 := ⟨twoCpus, fun _ _ => []⟩

/-- One thread waits and the other CPU wakes it. -/
theorem futex_run_isolated_pair :
    (run FutexTrace.step twoCpusTrace [.futexWait 0 0x10]).WakesInOrder 1 7 0x10 1 := by
  refine futex_run_isolated twoCpusTrace [.futexWait 0 0x10] ⟨fun _ _ => rfl, fun _ => rfl, fun _ _ => rfl⟩ ?_
    1 2 0x10 1 rfl (Or.inl (by decide))
  refine ⟨fun t ht => ?_, True.intro⟩
  obtain rfl : 0 = t := Option.some.inj ht
  exact ⟨rfl, fun _ process f => by simp [twoCpusTrace, twoCpus]⟩

/-- Thread 0 waits at `0x10`, is woken, runs again and waits at `0x20`: a wake-up at `0x10`, where
nobody waits, unblocks it. -/
theorem futex_isolation_fails :
    twoCpusTrace.Unused ∧ ∃ ops : List (SchedulerOp 1),
      ((run FutexTrace.step twoCpusTrace ops).sched.cpu 1).ct = some 2 ∧
      ((run FutexTrace.step twoCpusTrace ops).sched.thread 2).parentProcess = 7 ∧
      ¬ (run FutexTrace.step twoCpusTrace ops).WakesInOrder 1 7 0x10 1 := by
  refine ⟨⟨fun _ _ => rfl, fun _ => rfl, fun _ _ => rfl⟩,
    [.futexWait 0 0x10, .schedule 0 none fun r => ⟨0, 0, r, false⟩, .futexWake 1 0x10 1,
      .schedule 0 none fun r => ⟨0, 0, r, false⟩, .futexWait 0 0x20], by decide +kernel, by decide +kernel,
    fun hright => ?_⟩
  have hnobody := (hright.unblocked 0).mp (by decide +kernel)
  exact absurd hnobody (by decide +kernel)

end Cthulhu
