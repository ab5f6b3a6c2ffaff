import Cthulhu.Lib.Progress
import Cthulhu.Process.Exclusive
import Cthulhu.Process.Selection

/-!
# Starvation

One CPU that calls `schedule` again and again, with threads that never block and none that arrive. Each call selects
one thread, promotes one by one queue, and puts the old thread back into the queue of its own priority.

A promotion takes the head of the first queue with an element behind the one that was popped. A thread with two such
queues in front of it stays where it is, and three threads of one priority can keep two queues filled for ever.
-/

namespace Cthulhu

open Lib

/-- Two queues in front of that of a thread have an element, so that a pick does not reach its queue. -/
def Overtaken (queues : Fin 5 → List ℕ) (t : ℕ) : Prop :=
  ∃ i j k : Fin 5, i < j ∧ j < k ∧ queues i ≠ [] ∧ queues j ≠ [] ∧ t ∈ queues k

/-- `schedule` on one CPU whose threads are not blocked: the thread that is selected becomes current, and the old one
goes to the queue of its priority. -/
def Cpu.next (priority : ℕ → Fin 5) (cpu : Cpu) : Cpu :=
  match getAndUpdateThreads cpu.queues with
  | none => cpu
  | some (selection, queues) =>
    ⟨some selection, match cpu.ct with
      | none => queues
      | some old => queuePush queues (priority old) old⟩

/-- The thread that the next call of `schedule` selects; there is none while the CPU waits for one. -/
def Cpu.selected (cpu : Cpu) : Option ℕ := (getAndUpdateThreads cpu.queues).map Prod.fst

/-- The thread is in a queue, or it runs and another one is in a queue. -/
def Cpu.Contends (cpu : Cpu) (t : ℕ) : Prop := (∃ j, t ∈ cpu.queues j) ∨ cpu.ct = some t ∧ ∃ j, cpu.queues j ≠ []

/-- No thread is in two places. -/
def Cpu.EachOnce (cpu : Cpu) : Prop := ∀ x, cpu.copies x ≤ 1

namespace Scheduler

variable {n : ℕ}

/-- The states of a run in which one CPU calls `schedule` again and again, with the frames it enters with. -/
def scheduleRun (st : Scheduler n) (c : Fin (n + 1)) (frames : ℕ → Option Frame) (answers : ℕ → Frame → Answer) :
    ℕ → Scheduler n
  | 0 => st
  | k + 1 => (st.scheduleRun c frames answers k).step (.schedule c (frames k) (answers k))

/-- A call of the run selects a thread. -/
def Selects (st : Scheduler n) (c : Fin (n + 1)) (frames : ℕ → Option Frame) (answers : ℕ → Frame → Answer) (t k : ℕ) :
    Prop :=
  ((st.scheduleRun c frames answers k).cpu c).selected = some t

/-- No thread of the CPU is blocked. -/
def NeverBlocks (st : Scheduler n) (c : Fin (n + 1)) : Prop :=
  ∀ x, (∃ j, x ∈ (st.cpu c).queues j) ∨ (st.cpu c).ct = some x → (st.thread x).blocked = false

end Scheduler

section Pick

variable {queues queues' : Fin 5 → List ℕ} {winner t : ℕ} {front back : List ℕ} {j : Fin 5}

/-- What a pick does to a thread in a queue: it is selected, or it moves up in its queue, or from its head into the queue
before, or it stays because it is overtaken. -/
theorem pick_position (h : getAndUpdateThreads queues = some (winner, queues')) (hwaits : queues j = front ++ t :: back) :
    winner = t ∨
      (∃ x front' back', front = x :: front' ∧ queues' j = front' ++ t :: back') ∨
      (∃ (k : Fin 5) (front' back' : List ℕ), k.val + 1 = j.val ∧ queues' k = front' ++ t :: back') ∨
      Overtaken queues t ∧ 2 ≤ j.val ∧ ∃ back', queues' j = front ++ t :: back' := by
  have hfull : queues j ≠ [] := by simp [hwaits]
  obtain ⟨s, rest, hlow, hs, hpromoted⟩ := getAndUpdateThreads_some h
  rcases lt_trichotomy s j with hsj | rfl | hjs
  · have hj : Function.update queues s rest j = queues j := Function.update_of_ne (ne_of_gt hsj) _ _
    cases hpromoted with
    | none hempty => exact absurd (hj.symm.trans (hempty j hsj)) hfull
    | moved j' k t' ts hbehind hbetween hhead hbefore =>
      have hkj' : k < j' := Fin.lt_def.mpr (by omega)
      rcases lt_trichotomy j' j with hj' | rfl | hj'
      · -- two queues in front have an element
        have hkj : j ≠ k := ne_of_gt (hkj'.trans hj')
        rw [Function.update_of_ne (ne_of_gt hbehind)] at hhead
        refine Or.inr (Or.inr (Or.inr ⟨⟨s, j', j, hbehind, hj', by simp [hs], by simp [hhead], by simp [hwaits]⟩, ?_, back, ?_⟩))
        · have hlt := Fin.lt_def.mp hj'
          have hlt' := Fin.lt_def.mp hbehind
          omega
        · dsimp only
          rw [if_neg hkj, if_neg (ne_of_gt hj'), hj, hwaits]
      · rw [hj, hwaits] at hhead
        cases front with
        | nil =>
          obtain ⟨rfl, rfl⟩ := List.cons.inj hhead
          exact Or.inr (Or.inr (Or.inl ⟨k, Function.update queues s rest k, [], hbefore, if_pos rfl⟩))
        | cons x front =>
          rw [List.cons_append] at hhead
          obtain ⟨rfl, rfl⟩ := List.cons.inj hhead
          refine Or.inr (Or.inl ⟨x, front, back, rfl, ?_⟩)
          dsimp only
          rw [if_neg (ne_of_gt hkj'), if_pos rfl]
      · exact absurd (hj.symm.trans (hbetween j hsj hj')) hfull
  · rw [hs] at hwaits
    cases front with
    | nil => exact Or.inl (List.cons.inj hwaits).1
    | cons x front =>
      rw [List.cons_append] at hwaits
      obtain ⟨dropped, kept, added, hold, hnew, -, -, hfirst⟩ := hpromoted.ordered s
      obtain rfl := hfirst (le_refl s)
      rw [Function.update_self, List.nil_append] at hold
      refine Or.inr (Or.inl ⟨x, front, back ++ added, rfl, ?_⟩)
      rw [hnew, ← hold, (List.cons.inj hwaits).2, List.append_assoc, List.cons_append]
  · exact absurd (hlow j hjs) hfull

end Pick

section Next

variable (priority : ℕ → Fin 5) {cpu : Cpu} {t : ℕ}

/-- A call that finds a thread puts the old one at the end of a queue, behind all that are there. -/
theorem Cpu.next_some {selection : ℕ} {queues : Fin 5 → List ℕ}
    (h : getAndUpdateThreads cpu.queues = some (selection, queues)) :
    (cpu.next priority).ct = some selection ∧ ∀ i, ∃ more, (cpu.next priority).queues i = queues i ++ more := by
  have hnext : cpu.next priority = ⟨some selection, match cpu.ct with
      | none => queues
      | some old => queuePush queues (priority old) old⟩ := by
    unfold next
    rw [h]
  rw [hnext]
  refine ⟨rfl, fun i => ?_⟩
  cases cpu.ct with
  | none => exact ⟨[], (List.append_nil _).symm⟩
  | some old =>
    by_cases hi : i = priority old
    · subst hi
      exact ⟨[old], Function.update_self ..⟩
    · refine ⟨[], ?_⟩
      rw [List.append_nil]
      exact Function.update_of_ne hi _ _

/-- A call finds a thread when there is one in a queue. -/
theorem Cpu.picks_of_ne_nil {j : Fin 5} (h : cpu.queues j ≠ []) :
    ∃ selection queues, getAndUpdateThreads cpu.queues = some (selection, queues) := by
  cases hpick : getAndUpdateThreads cpu.queues with
  | none => exact absurd (pickThread_eq_none.mp hpick j (List.mem_finRange j)) h
  | some r => exact ⟨r.1, r.2, rfl⟩

/-- A thread waits in a queue with a number of others in front of it. -/
def Cpu.WaitsAt (cpu : Cpu) (t : ℕ) (rank : ℕ × ℕ) : Prop :=
  ∃ (j : Fin 5) (front back : List ℕ), j.val = rank.1 ∧ front.length = rank.2 ∧ cpu.queues j = front ++ t :: back

/-- A thread in a queue has a rank. -/
theorem Cpu.exists_waitsAt {j : Fin 5} (h : t ∈ cpu.queues j) : ∃ a, a.1 = j.val ∧ cpu.WaitsAt t a := by
  obtain ⟨front, back, hsplit⟩ := List.append_of_mem h
  exact ⟨(j.val, front.length), rfl, j, front, back, rfl, rfl, hsplit⟩

/-- A call selects a waiting thread, or moves it to a smaller rank, or the thread is overtaken and stays. -/
theorem Cpu.waitsAt_next {a : ℕ × ℕ} (h : cpu.WaitsAt t a) : cpu.selected = some t ∨
    (∃ b, Prod.Lex (· < ·) (· < ·) b a ∧ (cpu.next priority).WaitsAt t b) ∨
    (Overtaken cpu.queues t ∧ 2 ≤ a.1) ∧ (cpu.next priority).WaitsAt t a := by
  obtain ⟨j, front, back, hj, hfront, hwaits⟩ := h
  have hfull : cpu.queues j ≠ [] := by simp [hwaits]
  obtain ⟨selection, queues, hpick⟩ := Cpu.picks_of_ne_nil hfull
  obtain ⟨-, hmore⟩ := Cpu.next_some priority hpick
  have hstays {k : Fin 5} {front' back' : List ℕ} (hk : queues k = front' ++ t :: back') :
      (cpu.next priority).WaitsAt t (k.val, front'.length) := by
    obtain ⟨more, hqueue⟩ := hmore k
    refine ⟨k, front', back' ++ more, rfl, rfl, ?_⟩
    rw [hqueue, hk, List.append_assoc, List.cons_append]
  obtain ⟨level, position⟩ := a
  simp only at hj hfront
  subst hj hfront
  rcases pick_position hpick hwaits with rfl | ⟨x, front', back', rfl, hk⟩ | ⟨k, front', back', hkj, hk⟩ | ⟨hover, htwo, back', hk⟩
  · refine Or.inl ?_
    unfold selected
    rw [hpick]
    rfl
  · exact Or.inr (Or.inl ⟨_, Prod.Lex.right _ (Nat.lt_succ_self _), hstays hk⟩)
  · exact Or.inr (Or.inl ⟨_, Prod.Lex.left _ _ (by omega), hstays hk⟩)
  · exact Or.inr (Or.inr ⟨⟨hover, htwo⟩, hstays hk⟩)

/-- The ranks are well-founded. -/
theorem rank_wellFounded : WellFounded (Prod.Lex (· < ·) (· < ·) : ℕ × ℕ → ℕ × ℕ → Prop) :=
  WellFounded.prod_lex wellFounded_lt wellFounded_lt

/-- A call keeps the copies of every thread. -/
theorem Cpu.copies_next (x : ℕ) : (cpu.next priority).copies x = cpu.copies x := by
  unfold next copies
  cases hpick : getAndUpdateThreads cpu.queues with
  | none => rfl
  | some r =>
    have hoccurs := occurrences_pickThread hpick x
    cases hct : cpu.ct with
    | none =>
      simp only [Option.some.injEq, reduceCtorEq, if_false]
      omega
    | some old =>
      have hpush : occurrences (queuePush r.2 (priority old) old) x = occurrences r.2 x + if old = x then 1 else 0 :=
        occurrences_push r.2 (priority old) old x
      simp only [Option.some.injEq]
      rw [hpush]
      omega

/-- A thread that is selected is not overtaken. -/
theorem Cpu.EachOnce.not_overtaken (h : cpu.EachOnce) (hselected : cpu.selected = some t) : ¬ Overtaken cpu.queues t := by
  rintro ⟨i, j, k, hij, hjk, hi, hj, hk⟩
  unfold selected at hselected
  obtain ⟨⟨winner, queues⟩, hpick, hwinner⟩ := Option.map_eq_some_iff.mp hselected
  obtain rfl : winner = t := hwinner
  obtain ⟨s, rest, hlow, hs, -⟩ := getAndUpdateThreads_some hpick
  have hsi : s ≤ i := by
    by_contra hlt
    exact hi (hlow i (not_le.mp hlt))
  have hsk : s ≠ k := ne_of_lt ((hsi.trans_lt hij).trans hjk)
  -- the thread is at the head of one queue and in another
  have hpop := occurrences_pop hs winner
  have hrest : 0 < occurrences (Function.update cpu.queues s rest) winner := by
    refine occurrences_pos.mpr ⟨k, ?_⟩
    rwa [Function.update_of_ne hsk.symm]
  have honce := h winner
  unfold copies at honce
  rw [if_pos rfl] at hpop
  omega

/-- A thread is queued or current where it has a copy. -/
theorem Cpu.copies_pos {x : ℕ} : 0 < cpu.copies x ↔ (∃ j, x ∈ cpu.queues j) ∨ cpu.ct = some x := by
  rw [← occurrences_pos]
  unfold copies
  by_cases hct : cpu.ct = some x
  · simp [hct]
  · simp [hct]

/-- Setting the current thread to what it is. -/
theorem Cpu.with_ct {ct : Option ℕ} (h : cpu.ct = ct) : cpu = { cpu with ct := ct } := by rw [← h]

end Next

namespace Scheduler

variable {n : ℕ} {st : Scheduler n} {c : Fin (n + 1)} {frames : ℕ → Option Frame} {answers : ℕ → Frame → Answer} {t : ℕ}

/-- Pushing back a thread that is not blocked puts it at the end of the queue of its priority. -/
theorem pushBack_cpu (hready : ∀ old, (st.cpu c).ct = some old → (st.thread old).blocked = false) :
    (st.pushBack c (st.cpu c).ct).cpu c = { st.cpu c with
      queues := match (st.cpu c).ct with
        | none => (st.cpu c).queues
        | some old => queuePush (st.cpu c).queues (st.thread old).priority old } := by
  cases hct : (st.cpu c).ct with
  | none => rfl
  | some old =>
    have hpush : st.pushBack c (some old) = st.enqueue c old := if_neg (by simp [hready old hct])
    rw [hpush, enqueue, setCpu_cpu, if_pos rfl]

/-- A context switch makes the selected thread current. -/
theorem contextSwitch_cpu (st : Scheduler n) (r : Option Frame) (c : Fin (n + 1)) (selection : ℕ) (answer : Frame → Answer) :
    (st.contextSwitch r c (st.cpu c).ct selection answer).2.cpu c =
      { (st.pushBack c (st.cpu c).ct).cpu c with ct := some selection } := by
  unfold contextSwitch
  dsimp only
  split
  · rw [resume_cpu, switchTo_cpu, Function.update_self]
  · rename_i hsame
    have hct := st.pushBack_ct c (st.cpu c).ct c
    have hcpu : (st.pushBack c (st.cpu c).ct).cpu c = { (st.pushBack c (st.cpu c).ct).cpu c with ct := some selection } :=
      Cpu.with_ct (hct.trans (not_not.mp hsame))
    cases r with
    | none =>
      dsimp only
      rw [resume_cpu]
      exact hcpu
    | some r =>
      dsimp only
      split
      · exact hcpu
      · rw [resume_cpu]
        exact hcpu

/-- A call of `schedule` on a CPU whose current thread is not blocked. -/
theorem step_schedule_cpu (hready : ∀ old, (st.cpu c).ct = some old → (st.thread old).blocked = false) (r : Option Frame)
    (answer : Frame → Answer) :
    (st.step (.schedule c r answer)).cpu c = (st.cpu c).next fun x => (st.thread x).priority := by
  unfold step schedule Cpu.next
  dsimp only
  cases hpick : getAndUpdateThreads (st.cpu c).queues with
  | none =>
    have hempty : ∀ i, (st.cpu c).queues i = [] := fun i => pickThread_eq_none.mp hpick i (List.mem_finRange i)
    rw [if_pos ((st.cpu c).priorityCount_eq_zero.mpr hempty)]
    rfl
  | some pick =>
    have hcount : (st.cpu c).priorityCount ≠ 0 := fun hzero => by
      have hnone : getAndUpdateThreads (st.cpu c).queues = none :=
        pickThread_eq_none.mpr fun i _ => (st.cpu c).priorityCount_eq_zero.mp hzero i
      rw [hnone] at hpick
      exact absurd hpick (by simp)
    rw [if_neg hcount]
    have hset : (st.setCpu c { st.cpu c with queues := pick.2 }).cpu c = { st.cpu c with queues := pick.2 } := by simp
    have hswitch := contextSwitch_cpu (st.setCpu c { st.cpu c with queues := pick.2 }) r c pick.1 answer
    have hpush := @pushBack_cpu _ (st.setCpu c { st.cpu c with queues := pick.2 }) c fun old hold => by
      rw [hset] at hold
      exact hready old hold
    rw [hpush, hset] at hswitch
    exact hswitch

/-- The calls of a run change neither the priority of a thread nor whether it is blocked. -/
theorem scheduleRun_thread (k x : ℕ) : SameThread (st.thread x) ((st.scheduleRun c frames answers k).thread x) := by
  induction k with
  | zero => exact ⟨rfl, rfl, rfl, rfl⟩
  | succ k ih =>
    have hquiet := ((st.scheduleRun c frames answers k).quiet_step_schedule c (frames k) (answers k)).thread x
    exact ⟨hquiet.priority.trans ih.priority, hquiet.blocked.trans ih.blocked, hquiet.parentProcess.trans ih.parentProcess,
      hquiet.futexBlock.trans ih.futexBlock⟩

/-- A call of the run takes the CPU one step on, as long as no thread is blocked. -/
theorem NeverBlocks.next {k : ℕ} (h : (st.scheduleRun c frames answers k).NeverBlocks c) :
    (st.scheduleRun c frames answers (k + 1)).cpu c =
      ((st.scheduleRun c frames answers k).cpu c).next fun x => (st.thread x).priority := by
  have hpriority : (fun x => ((st.scheduleRun c frames answers k).thread x).priority) =
      fun x => (st.thread x).priority := by
    funext x
    exact (scheduleRun_thread k x).priority
  rw [← hpriority]
  exact step_schedule_cpu (fun old hold => h old (Or.inr hold)) (frames k) (answers k)

/-- No thread is blocked at any call of the run, and none is in two places. -/
theorem NeverBlocks.run (h : st.NeverBlocks c) (frames : ℕ → Option Frame) (answers : ℕ → Frame → Answer) (k : ℕ) : (st.scheduleRun c frames answers k).NeverBlocks c ∧
    ∀ x, ((st.scheduleRun c frames answers k).cpu c).copies x = (st.cpu c).copies x := by
  induction k with
  | zero => exact ⟨h, fun _ => rfl⟩
  | succ k ih =>
    obtain ⟨hready, hcopies⟩ := ih
    have hnew (x : ℕ) : ((st.scheduleRun c frames answers (k + 1)).cpu c).copies x = (st.cpu c).copies x := by
      rw [hready.next, Cpu.copies_next]
      exact hcopies x
    refine ⟨fun x hx => ?_, hnew⟩
    rw [← Cpu.copies_pos, hnew, Cpu.copies_pos] at hx
    exact (scheduleRun_thread (k + 1) x).blocked.trans (h x hx)

end Scheduler

/-- The thread that runs is put into the queue of its priority when another one is selected. -/
theorem Cpu.waitsAt_of_running {cpu : Cpu} (priority : ℕ → Fin 5) {t : ℕ} {j : Fin 5} (hct : cpu.ct = some t)
    (hj : cpu.queues j ≠ []) : ∃ a, a.1 = (priority t).val ∧ (cpu.next priority).WaitsAt t a := by
  obtain ⟨selection, queues, hpick⟩ := Cpu.picks_of_ne_nil hj
  refine ⟨((priority t).val, (queues (priority t)).length), rfl, priority t, queues (priority t), [], rfl, rfl, ?_⟩
  unfold next
  rw [hpick, hct]
  exact Function.update_self ..

/-- The promotion theorem: a thread that contends for the CPU is selected exactly unless it is overtaken for ever, and a
thread in one of the first two queues, or running with their priority, is selected. -/
theorem schedule_selects_iff {n : ℕ} (st : Scheduler n) (c : Fin (n + 1)) (frames : ℕ → Option Frame)
    (answers : ℕ → Frame → Answer) (t : ℕ) (hready : st.NeverBlocks c) (honce : (st.cpu c).EachOnce)
    (hcontends : (st.cpu c).Contends t) :
    ((∃ k, st.Selects c frames answers t k) ↔ ¬ ∃ k, (∀ m, m < k → ¬ st.Selects c frames answers t m) ∧
      ∀ m, k ≤ m → Overtaken ((st.scheduleRun c frames answers m).cpu c).queues t) ∧
    ((∃ j : Fin 5, j.val ≤ 1 ∧ t ∈ (st.cpu c).queues j) ∨ (st.cpu c).ct = some t ∧ (st.thread t).priority.val ≤ 1 →
      ∃ k, st.Selects c frames answers t k) := by
  have hnext (k : ℕ) := (hready.run frames answers k).1.next
  have hstep (k : ℕ) (a : ℕ × ℕ) (h : ((st.scheduleRun c frames answers k).cpu c).WaitsAt t a) :=
    Cpu.waitsAt_next (fun x => (st.thread x).priority) h
  simp only [← hnext] at hstep
  have hrunning (hct : (st.cpu c).ct = some t) (hother : ∃ j, (st.cpu c).queues j ≠ []) :
      ∃ a, a.1 = (st.thread t).priority.val ∧ ((st.scheduleRun c frames answers 1).cpu c).WaitsAt t a := by
    obtain ⟨j, hj⟩ := hother
    rw [hnext]
    exact Cpu.waitsAt_of_running (fun x => (st.thread x).priority) hct hj
  refine ⟨⟨?_, fun hnever => ?_⟩, fun hlow => ?_⟩
  · rintro ⟨k, hk⟩ ⟨k', hbefore, hover⟩
    have hlater : k' ≤ k := Nat.le_of_not_lt fun hlt => hbefore k hlt hk
    have hcopies := (hready.run frames answers k).2
    have hthere : ((st.scheduleRun c frames answers k).cpu c).EachOnce := fun x => by
      rw [hcopies]
      exact honce x
    exact hthere.not_overtaken hk (hover k hlater)
  · by_contra hnone
    have hfair (k : ℕ) : ∃ m, k ≤ m ∧ ¬ Overtaken ((st.scheduleRun c frames answers m).cpu c).queues t := by
      by_contra hall
      push Not at hall
      exact hnever ⟨k, fun m _ hm => hnone ⟨m, hm⟩, hall⟩
    obtain ⟨k, a, hwaits⟩ : ∃ k a, ((st.scheduleRun c frames answers k).cpu c).WaitsAt t a := by
      rcases hcontends with ⟨j, hj⟩ | ⟨hct, hother⟩
      · obtain ⟨a, -, ha⟩ := Cpu.exists_waitsAt hj
        exact ⟨0, a, ha⟩
      · obtain ⟨a, -, ha⟩ := hrunning hct hother
        exact ⟨1, a, ha⟩
    obtain ⟨m, -, hm⟩ : ∃ m, k ≤ m ∧ st.Selects c frames answers t m := reaches_of_rank rank_wellFounded
      (fun k a ha => (hstep k a ha).imp_right (Or.imp_right (And.imp_left And.left))) hfair hwaits
    exact hnone ⟨m, hm⟩
  · obtain ⟨k, a, ha, hwaits⟩ : ∃ k a, a.1 ≤ 1 ∧ ((st.scheduleRun c frames answers k).cpu c).WaitsAt t a := by
      rcases hlow with ⟨j, hj, hmem⟩ | ⟨hct, hpriority⟩
      · obtain ⟨a, hlevel, ha⟩ := Cpu.exists_waitsAt hmem
        exact ⟨0, a, by omega, ha⟩
      · rcases hcontends with ⟨j, hj⟩ | ⟨-, hother⟩
        · -- the thread would be in two places
          have honce := honce t
          have hqueued := occurrences_pos.mpr ⟨j, hj⟩
          unfold Cpu.copies at honce
          rw [if_pos hct] at honce
          omega
        · obtain ⟨a, hlevel, ha⟩ := hrunning hct hother
          exact ⟨1, a, by omega, ha⟩
    -- in the first two queues a thread cannot be overtaken
    have hmoves (k : ℕ) (a : ℕ × ℕ) (h : a.1 ≤ 1 ∧ ((st.scheduleRun c frames answers k).cpu c).WaitsAt t a) :
        st.Selects c frames answers t k ∨ (∃ b, Prod.Lex (· < ·) (· < ·) b a ∧
          b.1 ≤ 1 ∧ ((st.scheduleRun c frames answers (k + 1)).cpu c).WaitsAt t b) ∨
        False ∧ a.1 ≤ 1 ∧ ((st.scheduleRun c frames answers (k + 1)).cpu c).WaitsAt t a := by
      rcases hstep k a h.2 with hselected | ⟨b, hb, hwaits⟩ | ⟨⟨-, htwo⟩, -⟩
      · exact Or.inl hselected
      · have hle : b.1 ≤ a.1 := by
          rcases Prod.lex_def.mp hb with hlt | ⟨heq, -⟩
          · exact Nat.le_of_lt hlt
          · exact Nat.le_of_eq heq
        exact Or.inr (Or.inl ⟨b, hb, hle.trans h.1, hwaits⟩)
      · exact absurd htwo (by omega)
    obtain ⟨m, -, hm⟩ : ∃ m, k ≤ m ∧ st.Selects c frames answers t m :=
      reaches_of_rank rank_wellFounded hmoves (fun k => ⟨k, Nat.le_refl k, not_false⟩) ⟨ha, hwaits⟩
    exact ⟨m, hm⟩

/-- Three threads of priority 1, one that runs and one in each of the first two queues, and a thread of priority 2. -/
def crowdedCpu : Scheduler 0 where
  cpu _ := ⟨some 0, ![[1], [2], [3], [], []]⟩
  thread x := ⟨if x = 3 then 2 else 1, false, 0, 0, none, switchToUsermode 0 0 0 0 0 0⟩
  threads := [0, 1, 2, 3]
  list _ := []
  futexes _ _ := none

/-- Every thread of this CPU is in one place. -/
theorem crowdedCpu_eachOnce : (crowdedCpu.cpu 0).EachOnce := by
  intro x
  change ∑ i, (![[1], [2], [3], [], []] i : List ℕ).count x + (if some 0 = some x then 1 else 0) ≤ 1
  rw [Fin.sum_univ_five]
  change List.count x [1] + List.count x [2] + List.count x [3] + 0 + 0 + _ ≤ 1
  simp only [List.count_singleton, beq_iff_eq, Option.some.injEq]
  split_ifs <;> omega

/-- The theorem for the thread in the second queue. -/
theorem schedule_selects_iff_second :
    ((∃ k, crowdedCpu.Selects 0 (fun _ => none) (fun _ r => ⟨0, 0, r, false⟩) 2 k) ↔
      ¬ ∃ k, (∀ m, m < k → ¬ crowdedCpu.Selects 0 (fun _ => none) (fun _ r => ⟨0, 0, r, false⟩) 2 m) ∧ ∀ m, k ≤ m →
        Overtaken ((crowdedCpu.scheduleRun 0 (fun _ => none) (fun _ r => ⟨0, 0, r, false⟩) m).cpu 0).queues 2) ∧
    ∃ k, crowdedCpu.Selects 0 (fun _ => none) (fun _ r => ⟨0, 0, r, false⟩) 2 k := by
  have htheorem := schedule_selects_iff crowdedCpu 0 (fun _ => none) (fun _ r => ⟨0, 0, r, false⟩) 2 (fun _ _ => rfl)
    crowdedCpu_eachOnce (Or.inl ⟨1, by decide⟩)
  exact ⟨htheorem.1, htheorem.2 (Or.inl ⟨1, by decide, by decide⟩)⟩

/-- A call on a CPU like this one leads to another one like it. -/
theorem Cpu.next_crowded (priority : ℕ → Fin 5) (x y z : ℕ) (hx : priority x = 1) :
    (Cpu.mk (some x) ![[y], [z], [3], [], []]).next priority = ⟨some y, ![[z], [x], [3], [], []]⟩ := by
  have hpick : getAndUpdateThreads ![[y], [z], [3], [], []] =
      some (y, queuePush (Function.update (Function.update ![[y], [z], [3], [], []] 0 []) 1 []) 0 z) := rfl
  unfold next
  rw [hpick]
  dsimp only
  rw [hx]
  congr 1
  funext i
  match i with
  | 0 | 1 | 2 | 3 | 4 => rfl

/-- The thread of priority 2 is never selected there. -/
theorem schedule_starves : crowdedCpu.NeverBlocks 0 ∧ (crowdedCpu.cpu 0).EachOnce ∧ (crowdedCpu.cpu 0).Contends 3 ∧
    ∀ frames answers k, ¬ crowdedCpu.Selects 0 frames answers 3 k := by
  have hready : crowdedCpu.NeverBlocks 0 := fun _ _ => rfl
  refine ⟨hready, crowdedCpu_eachOnce, Or.inl ⟨2, by decide⟩, fun frames answers k => ?_⟩
  have hcycle : ∃ x y z, x ≠ 3 ∧ y ≠ 3 ∧ z ≠ 3 ∧
      (crowdedCpu.scheduleRun 0 frames answers k).cpu 0 = ⟨some x, ![[y], [z], [3], [], []]⟩ := by
    induction k with
    | zero => exact ⟨0, 1, 2, by decide, by decide, by decide, rfl⟩
    | succ k ih =>
      obtain ⟨x, y, z, hx, hy, hz, hcpu⟩ := ih
      have hpriority : (crowdedCpu.thread x).priority = 1 := if_neg hx
      refine ⟨y, z, x, hy, hz, hx, ?_⟩
      rw [(hready.run frames answers k).1.next, hcpu]
      exact Cpu.next_crowded _ x y z hpriority
  obtain ⟨x, y, z, -, hy, -, hcpu⟩ := hcycle
  unfold Scheduler.Selects
  rw [hcpu]
  exact fun h => hy (Option.some.inj h)

end Cthulhu
