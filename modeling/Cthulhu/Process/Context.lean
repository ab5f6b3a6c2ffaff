import Cthulhu.Process.SchedulerSteps

/-!
# Context preservation

The CPUs with the registers their user code runs with, and for every thread the registers it
had when it was last taken off a CPU. A thread leaves through a timer interrupt or an IPI,
through the system call of `futex_wait`, or with its frame discarded where its CPU finds
nothing to run. It comes back through the frame of whoever left, through the frame of an
interrupt of the idle kernel, or by `switch_to_usermode`. A run keeps a record of every
return.

Preservation holds on the one path that saves and restores everything: an interrupt of user
code, or of the idle kernel, that finds a thread.
-/

namespace Cthulhu

open Lib

namespace Scheduler

variable {n : ℕ}

/-- A call to `schedule` finds no thread, or takes one from a queue and switches to it. -/
theorem schedule_cases (st : Scheduler n) (r : Option Frame) (c : Fin (n + 1)) (answer : Frame → Answer) :
    (st.schedule r c answer = none ∧ (st.cpu c).priorityCount = 0) ∨
      ∃ (selection : ℕ) (queues : Fin 5 → List ℕ) (st' : Scheduler n), getAndUpdateThreads (st.cpu c).queues = some (selection, queues) ∧
        st'.thread = st.thread ∧ (∀ c', (st'.cpu c').ct = (st.cpu c').ct) ∧
        st.schedule r c answer = some (st'.contextSwitch r c (st'.cpu c).ct selection answer) := by
  unfold schedule
  by_cases hcount : (st.cpu c).priorityCount = 0
  · exact Or.inl ⟨if_pos hcount, hcount⟩
  · rw [if_neg hcount]
    cases hpick : getAndUpdateThreads (st.cpu c).queues with
    | none =>
      have hempty := pickThread_eq_none.mp hpick
      exact absurd ((st.cpu c).priorityCount_eq_zero.mpr fun i => hempty i (List.mem_finRange i)) hcount
    | some picked =>
      have hct (c' : Fin (n + 1)) : ((st.setCpu c { st.cpu c with queues := picked.2 }).cpu c').ct = (st.cpu c').ct := by
        rw [setCpu_cpu]
        split
        next hc => rw [hc]
        next => rfl
      refine Or.inr ⟨picked.1, picked.2, st.setCpu c { st.cpu c with queues := picked.2 }, rfl, rfl, hct, ?_⟩
      rw [hct]

/-- Pushing the old thread back leaves the threads. -/
@[simp] theorem pushBack_thread (st : Scheduler n) (c : Fin (n + 1)) (oldHead : Option ℕ) :
    (st.pushBack c oldHead).thread = st.thread := by
  cases oldHead with
  | none => rfl
  | some old =>
    unfold pushBack
    dsimp only
    split
    next => rfl
    next => rfl

/-- The end of a context switch saves nothing. -/
theorem resume_last (st : Scheduler n) (r : Option Frame) (selection : ℕ) (answer : Frame → Answer) (x : ℕ) :
    ((st.resume r selection answer).2.thread x).last = (st.thread x).last := by
  unfold resume
  cases r with
  | none => rfl
  | some r =>
    dsimp only
    split
    next => rfl
    next =>
      rw [setThread_thread]
      split
      next hx => rw [hx]
      next => rfl

/-- The end of a context switch restores all registers, unless there is a call to be continued. -/
theorem resume_frame (st : Scheduler n) (r : Frame) {selection : ℕ} (answer : Frame → Answer)
    (h : (st.thread selection).continuation = none) :
    ∃ r', (st.resume (some r) selection answer).1 = .frame r' ∧ interruptReturn r' = (st.thread selection).last := by
  unfold resume
  dsimp only
  rw [h]
  exact ⟨_, rfl, copyRegisters_registersCopy ..⟩

/-- The selected thread becomes current. -/
theorem contextSwitch_ct (st : Scheduler n) (r : Option Frame) (c : Fin (n + 1)) (selection : ℕ)
    (answer : Frame → Answer) :
    ((st.contextSwitch r c (st.cpu c).ct selection answer).2.cpu c).ct = some selection := by
  unfold contextSwitch
  dsimp only
  split
  next => rw [resume_cpu, switchTo_cpu, Function.update_self]
  next hsame =>
    rw [not_not] at hsame
    have hct := (st.pushBack_ct c (st.cpu c).ct c).trans hsame
    split
    next => rw [resume_cpu, hct]
    next =>
      split
      next => exact hct
      next => rw [resume_cpu, hct]

/-- An interrupt of user code that selects the same thread goes back to it at once. -/
theorem contextSwitch_same (st : Scheduler n) {r : Frame} (hr : r.cs = userCode) (c : Fin (n + 1)) (selection : ℕ)
    (answer : Frame → Answer) :
    st.contextSwitch (some r) c (some selection) selection answer = (.frame r, st.pushBack c (some selection)) := by
  unfold contextSwitch
  simp only [ne_eq, not_true_eq_false, if_false, if_pos hr]

/-- A switch to another thread through a frame restores it and saves the old one. -/
theorem contextSwitch_other (st : Scheduler n) {r : Frame} (hr : r.cs ≠ kernelCode) (c : Fin (n + 1)) {old selection : ℕ}
    (hne : old ≠ selection) (answer : Frame → Answer) (h : (st.thread selection).continuation = none) :
    (∃ r', (st.contextSwitch (some r) c (some old) selection answer).1 = .frame r' ∧
        interruptReturn r' = (st.thread selection).last) ∧
      ∀ x, ((st.contextSwitch (some r) c (some old) selection answer).2.thread x).last =
        if x = old then copyRegisters r else (st.thread x).last := by
  have hthread (x : ℕ) : ((st.pushBack c (some old)).switchTo (some r) c (some old) selection).thread x =
      if x = old then { st.thread old with last := copyRegisters r } else st.thread x := by
    unfold switchTo
    simp only [hr, ne_eq, not_false_eq_true, if_true, setThread_thread, setCpu_thread, pushBack_thread]
  have hsel : ((st.pushBack c (some old)).switchTo (some r) c (some old) selection).thread selection =
      st.thread selection := by rw [hthread, if_neg hne.symm]
  unfold contextSwitch
  simp only [ne_eq, Option.some.injEq, hne, not_false_eq_true, if_true]
  refine ⟨?_, fun x => ?_⟩
  · rw [← hsel] at h ⊢
    exact resume_frame _ r answer h
  · rw [resume_last, hthread]
    split
    next => rfl
    next => rfl

/-- Making another thread current saves nothing without a frame, or with a frame of the kernel. -/
theorem switchTo_thread (st : Scheduler n) {r : Option Frame} (hr : ∀ f ∈ r, f.cs = kernelCode) (c : Fin (n + 1))
    (oldHead : Option ℕ) (selection : ℕ) : (st.switchTo r c oldHead selection).thread = st.thread := by
  unfold switchTo
  dsimp only
  split
  next f old =>
    rw [if_neg (not_not.mpr (hr f rfl))]
    rfl
  next => rfl

/-- A switch with no frame, or with a frame of the kernel, saves nothing. -/
theorem contextSwitch_last (st : Scheduler n) {r : Option Frame} (hr : ∀ f ∈ r, f.cs = kernelCode) (c : Fin (n + 1))
    (oldHead : Option ℕ) (selection : ℕ) (answer : Frame → Answer) (x : ℕ) :
    ((st.contextSwitch r c oldHead selection answer).2.thread x).last = (st.thread x).last := by
  unfold contextSwitch
  dsimp only
  split
  next => rw [resume_last, switchTo_thread _ hr, pushBack_thread]
  next =>
    split
    next => rw [resume_last, pushBack_thread]
    next =>
      split
      next => rw [pushBack_thread]
      next => rw [resume_last, pushBack_thread]

/-- An interrupt of the idle kernel restores the thread that is selected. -/
theorem contextSwitch_kernel (st : Scheduler n) {r : Frame} (hr : r.cs = kernelCode) (c : Fin (n + 1))
    (oldHead : Option ℕ) {selection : ℕ} (answer : Frame → Answer) (h : (st.thread selection).continuation = none) :
    ∃ r', (st.contextSwitch (some r) c oldHead selection answer).1 = .frame r' ∧
      interruptReturn r' = (st.thread selection).last := by
  have hswitch : ((st.pushBack c oldHead).switchTo (some r) c oldHead selection).thread = st.thread := by
    rw [switchTo_thread _ (by simpa using hr), pushBack_thread]
  unfold contextSwitch
  dsimp only
  split
  next =>
    rw [← hswitch] at h ⊢
    exact resume_frame _ r answer h
  next =>
    have hcs : r.cs ≠ userCode := by
      rw [hr]
      decide
    rw [if_neg hcs]
    rw [← st.pushBack_thread c oldHead] at h ⊢
    exact resume_frame _ r answer h

end Scheduler

/-- A return to user code: the thread, the registers it was taken off with, and those it got. -/
structure Return where
  thread : ℕ
  left : Option Registers
  now : Registers
  deriving DecidableEq, Repr

/-- The scheduler, the registers of the user code on each CPU, the registers with which each thread
was taken off and is to run again, and the returns so far. -/
structure ContextState (n : ℕ) where
  sched : Scheduler n
  running : Fin (n + 1) → Option Registers
  left : ℕ → Option Registers
  returns : List Return

/-- What happens on a CPU. The answers are those of a continued system call. -/
inductive ContextOp (n : ℕ)
  | execute (c : Fin (n + 1)) (u : Registers)
  | interrupt (c : Fin (n + 1)) (answer : Frame → Answer)
  | kernelInterrupt (c : Fin (n + 1)) (r : Frame) (answer : Frame → Answer)
  | activate (c : Fin (n + 1)) (answer : Frame → Answer)
  | futexWait (c : Fin (n + 1)) (ftx : ℕ) (answer : Frame → Answer)
  | futexWake (c : Fin (n + 1)) (ftx : ℕ) (num : ℤ)
  | enschedule (t : ℕ) (c : Fin (n + 1))
  | createProcessBase (t : ℕ) (th : Thread)

namespace ContextState

variable {n : ℕ}

/-- The current thread stops with these registers. -/
def leave (s : ContextState n) (c : Fin (n + 1)) (u : Registers) : ContextState n :=
  match (s.sched.cpu c).ct with
  | none => s
  | some t => { s with left := Function.update s.left t (some u) }

/-- The registers user code gets back, through the return path of the interrupted code or not. -/
def landing (back : Frame → Registers) : Resume → Registers
  | .frame r => back r
  | .usermode u => u

/-- The end of a call to `schedule`: the current thread runs again, or the CPU waits. -/
def land (s : ContextState n) (c : Fin (n + 1)) (back : Frame → Registers) :
    Option (Resume × Scheduler n) → ContextState n
  | none => { s with running := Function.update s.running c none }
  | some (resumed, st) =>
    match (st.cpu c).ct with
    | none => { s with sched := st }
    | some t =>
      { sched := st
        running := Function.update s.running c (some (landing back resumed))
        left := Function.update s.left t none
        returns := ⟨t, s.left t, landing back resumed⟩ :: s.returns }

/-- The state after what happens on one CPU.

Scheduling from `futex_wait` returns zero through `do_sys_handler` into the frame of the system
call, whoever's registers are in it by then. -/
def step (s : ContextState n) : ContextOp n → ContextState n
  | .execute c u => if (s.running c).isSome then { s with running := Function.update s.running c (some u) } else s
  | .interrupt c answer =>
    match s.running c with
    | none => s
    | some u => (s.leave c u).land c interruptReturn (s.sched.schedule (some (interruptFrame u)) c answer)
  | .kernelInterrupt c r answer =>
    match s.running c with
    | none => s.land c interruptReturn (s.sched.schedule (some { r with cs := kernelCode }) c answer)
    | some _ => s
  | .activate c answer =>
    match s.running c with
    | none => s.land c interruptReturn (s.sched.schedule none c answer)
    | some _ => s
  | .futexWait c ftx answer =>
    match s.running c with
    | none => s
    | some u =>
      let s := { s with sched := s.sched.futexWait c ftx }
      (s.leave c { u with rax := 0 }).land c (fun r => syscallReturn { r with rax := 0 })
        (s.sched.schedule (some (syscallFrame u)) c answer)
  | .futexWake c ftx num => { s with sched := (s.sched.futexWake c ftx num).2 }
  | .enschedule t c => { s with sched := s.sched.enschedule t c }
  | .createProcessBase t th => { s with sched := (s.sched.createProcessBase t th).getD s.sched }

/-- Every return gave the thread the registers it was taken off with. -/
def Preserved (s : ContextState n) : Prop := ∀ e ∈ s.returns, ∀ u, e.left = some u → e.now = u

/-- Every thread that is off its CPU has its registers saved. -/
def Saved (s : ContextState n) : Prop := ∀ t u, s.left t = some u → (s.sched.thread t).last = u

/-- The thread that a call to `schedule` on the CPU would select has the property. -/
def Selects (s : ContextState n) (c : Fin (n + 1)) (p : ℕ → Prop) : Prop :=
  ∀ t ∈ (getAndUpdateThreads (s.sched.cpu c).queues).map Prod.fst, p t

/-- Scheduling saves and restores everything: user code is interrupted only where a thread is queued,
`switch_to_usermode` runs only threads that were never taken off, nobody blocks in `futex_wait`,
and no thread that is switched to has a system call to be continued. A new thread is new. -/
def Restorable (s : ContextState n) : ContextOp n → Prop
  | .interrupt c _ => (s.running c).isSome → (s.sched.cpu c).priorityCount ≠ 0 ∧
      s.Selects c fun t => (s.sched.cpu c).ct ≠ some t → (s.sched.thread t).continuation = none
  | .kernelInterrupt c _ _ => s.Selects c fun t => (s.sched.thread t).continuation = none
  | .activate c _ => s.Selects c fun t => s.left t = none
  | .futexWait c _ _ => s.running c = none
  | .createProcessBase t _ => s.left t = none
  | _ => True

/-- Before the first scheduling no CPU runs user code and no thread was taken off. -/
def Idle (s : ContextState n) : Prop := (∀ c, s.running c = none) ∧ (∀ t, s.left t = none) ∧ s.returns = []

/-- Returns were right, registers are saved, and user code belongs to a current thread. -/
structure Inv (s : ContextState n) : Prop where
  preserved : s.Preserved
  saved : s.Saved
  current : ∀ c, (s.running c).isSome → ((s.sched.cpu c).ct).isSome

variable {s : ContextState n}

/-- A landing is right if it is at the registers the thread was taken off with, and all others are
still saved. -/
theorem Inv.land (h : s.Inv) {c : Fin (n + 1)} {back : Frame → Registers} {resumed : Resume} {st : Scheduler n} {t : ℕ}
    {left : ℕ → Option Registers} (hct : (st.cpu c).ct = some t)
    (hother : ∀ c', c' ≠ c → (st.cpu c').ct = (s.sched.cpu c').ct)
    (hright : ∀ u, left t = some u → landing back resumed = u)
    (hsaved : ∀ x u, x ≠ t → left x = some u → (st.thread x).last = u) :
    (({ s with left := left } : ContextState n).land c back (some (resumed, st))).Inv := by
  have hland : ({ s with left := left } : ContextState n).land c back (some (resumed, st)) =
      { sched := st
        running := Function.update s.running c (some (landing back resumed))
        left := Function.update left t none
        returns := ⟨t, left t, landing back resumed⟩ :: s.returns } := by
    unfold ContextState.land
    simp only [hct]
  rw [hland]
  refine ⟨List.forall_mem_cons.mpr ⟨hright, h.preserved⟩, fun x u hx => ?_, fun c' hc' => ?_⟩
  · dsimp only at hx ⊢
    rw [Function.update_apply] at hx
    split at hx
    next => exact absurd hx (by simp)
    next hne => exact hsaved x u hne hx
  · dsimp only at hc' ⊢
    by_cases hc : c' = c
    · rw [hc, hct]
      rfl
    · rw [Function.update_of_ne hc] at hc'
      rw [hother c' hc]
      exact h.current c' hc'

/-- An interrupt of user code that finds a thread keeps everything. -/
theorem Inv.interrupt (h : s.Inv) {c : Fin (n + 1)} (answer : Frame → Answer)
    (hguard : s.Restorable (.interrupt c answer)) : (s.step (.interrupt c answer)).Inv := by
  unfold step
  dsimp only
  cases hrun : s.running c with
  | none => exact h
  | some u =>
    obtain ⟨hcount, hselects⟩ := hguard (by rw [hrun]; rfl)
    obtain ⟨old, hold⟩ := Option.isSome_iff_exists.mp (h.current c (by rw [hrun]; rfl))
    have hleave : s.leave c u = { s with left := Function.update s.left old (some u) } := by
      unfold leave
      rw [hold]
    rcases s.sched.schedule_cases (some (interruptFrame u)) c answer with
      ⟨-, hempty⟩ | ⟨selection, queues, st, hpick, hthread, hcts, hsched⟩
    · exact absurd hempty hcount
    · have hcurrent := st.contextSwitch_ct (some (interruptFrame u)) c selection answer
      have hothers (c' : Fin (n + 1)) (hc : c' ≠ c) :=
        st.contextSwitch_cpu_of_ne (some (interruptFrame u)) hc (st.cpu c).ct selection answer
      dsimp only
      rw [hleave, hsched]
      rw [hcts, hold] at hcurrent hothers ⊢
      by_cases hsame : old = selection
      · subst hsame
        have hback := st.contextSwitch_same (r := interruptFrame u) rfl c old answer
        rw [hback] at hcurrent hothers ⊢
        refine h.land hcurrent (fun c' hc => (congrArg Cpu.ct (hothers c' hc)).trans (hcts c')) (fun u' hu' => ?_) fun x u' hne hu' => ?_
        · rw [Function.update_self] at hu'
          exact Option.some.inj hu'
        · rw [Function.update_of_ne hne] at hu'
          rw [Scheduler.pushBack_thread, hthread]
          exact h.saved x u' hu'
      · have hnone := hselects selection (by rw [hpick]; rfl) (by rw [hold]; simpa using hsame)
        rw [← hthread] at hnone
        obtain ⟨⟨r', hr', hregs⟩, hlast⟩ :=
          st.contextSwitch_other (r := interruptFrame u) (show userCode ≠ kernelCode by decide) c hsame answer hnone
        generalize st.contextSwitch (some (interruptFrame u)) c (some old) selection answer = result at *
        obtain ⟨resumed, st'⟩ := result
        refine h.land hcurrent (fun c' hc => (congrArg Cpu.ct (hothers c' hc)).trans (hcts c')) (fun u' hu' => ?_) fun x u' hne hu' => ?_
        · rw [Function.update_of_ne (Ne.symm hsame)] at hu'
          obtain rfl : resumed = .frame r' := hr'
          exact hregs.trans (hthread ▸ h.saved selection u' hu')
        · rw [hlast]
          by_cases hx : x = old
          · rw [hx, Function.update_self] at hu'
            rw [if_pos hx]
            exact Option.some.inj hu'
          · rw [Function.update_of_ne hx] at hu'
            rw [if_neg hx, hthread]
            exact h.saved x u' hu'

/-- A scheduling of an idle CPU is right if its landing is, since it saves nothing. -/
theorem Inv.idle (h : s.Inv) {c : Fin (n + 1)} {r : Option Frame} (hr : ∀ f ∈ r, f.cs = kernelCode)
    (answer : Frame → Answer) (hrun : s.running c = none)
    (hright : ∀ selection queues (st : Scheduler n), getAndUpdateThreads (s.sched.cpu c).queues = some (selection, queues) →
      st.thread = s.sched.thread → ∀ u, s.left selection = some u →
        landing interruptReturn (st.contextSwitch r c (st.cpu c).ct selection answer).1 = u) :
    (s.land c interruptReturn (s.sched.schedule r c answer)).Inv := by
  rcases s.sched.schedule_cases r c answer with ⟨hnone, -⟩ | ⟨selection, queues, st, hpick, hthread, hcts, hsched⟩
  · rw [hnone]
    have hsame : s.land c interruptReturn none = s := by
      unfold ContextState.land
      rw [← hrun, Function.update_eq_self]
    rw [hsame]
    exact h
  · have hcurrent := st.contextSwitch_ct r c selection answer
    have hothers (c' : Fin (n + 1)) (hc : c' ≠ c) :=
      st.contextSwitch_cpu_of_ne r hc (st.cpu c).ct selection answer
    have hlanding := hright selection queues st hpick hthread
    have hlast := st.contextSwitch_last hr c (st.cpu c).ct selection answer
    rw [hsched]
    generalize st.contextSwitch r c (st.cpu c).ct selection answer = result at *
    obtain ⟨resumed, st'⟩ := result
    refine h.land hcurrent (fun c' hc => (congrArg Cpu.ct (hothers c' hc)).trans (hcts c')) hlanding fun x u _ hu => ?_
    rw [hlast, hthread]
    exact h.saved x u hu

/-- An interrupt of the idle kernel restores the thread it finds. -/
theorem Inv.kernelInterrupt (h : s.Inv) {c : Fin (n + 1)} (r : Frame) (answer : Frame → Answer)
    (hguard : s.Restorable (.kernelInterrupt c r answer)) : (s.step (.kernelInterrupt c r answer)).Inv := by
  unfold step
  dsimp only
  split
  next hrun =>
    refine h.idle (by simp) answer hrun fun selection queues st hpick hthread u hu => ?_
    have hnone := hguard selection (by rw [hpick]; rfl)
    rw [← hthread] at hnone
    obtain ⟨r', hr', hregs⟩ := st.contextSwitch_kernel (r := { r with cs := kernelCode }) rfl c (st.cpu c).ct answer hnone
    rw [hr']
    exact hregs.trans (hthread ▸ h.saved selection u hu)
  next => exact h

/-- The end of the wait runs a thread that was never taken off. -/
theorem Inv.activate (h : s.Inv) {c : Fin (n + 1)} (answer : Frame → Answer)
    (hguard : s.Restorable (.activate c answer)) : (s.step (.activate c answer)).Inv := by
  unfold step
  dsimp only
  split
  next hrun =>
    refine h.idle (by simp) answer hrun fun selection queues st hpick hthread u hu => ?_
    rw [hguard selection (by rw [hpick]; rfl)] at hu
    exact absurd hu (by simp)
  next => exact h

/-- A section that leaves current threads and saved registers keeps everything. -/
theorem Inv.keep (h : s.Inv) {st : Scheduler n} (hct : ∀ c, (st.cpu c).ct = (s.sched.cpu c).ct)
    (hlast : ∀ t, s.left t ≠ none → (st.thread t).last = (s.sched.thread t).last) :
    ({ s with sched := st } : ContextState n).Inv := by
  refine ⟨h.preserved, fun t u ht => ?_, fun c hc => ?_⟩
  · exact (hlast t (by rw [show s.left t = some u from ht]; simp)).trans (h.saved t u ht)
  · dsimp only
    rw [hct]
    exact h.current c hc

/-- Whatever happens that meets the guard keeps everything. -/
theorem Inv.step (h : s.Inv) (op : ContextOp n) (hguard : s.Restorable op) : (s.step op).Inv := by
  cases op with
  | execute c u =>
    unfold ContextState.step
    dsimp only
    split
    next hsome =>
      refine ⟨h.preserved, h.saved, fun c' hc' => h.current c' ?_⟩
      dsimp only at hc'
      by_cases hc : c' = c
      · rw [hc]
        exact hsome
      · rw [Function.update_of_ne hc] at hc'
        exact hc'
    next => exact h
  | interrupt c answer => exact h.interrupt answer hguard
  | kernelInterrupt c r answer => exact h.kernelInterrupt r answer hguard
  | activate c answer => exact h.activate answer hguard
  | futexWait c ftx answer =>
    have hrun : s.running c = none := hguard
    unfold ContextState.step
    dsimp only
    rw [hrun]
    exact h
  | futexWake c ftx num =>
    obtain ⟨hct, hkeeps⟩ := s.sched.futexWake_keeps c ftx num
    exact h.keep hct fun t _ => (hkeeps t).2
  | enschedule t c => exact h.keep (fun c' => s.sched.enqueue_ct c t c') fun _ _ => rfl
  | createProcessBase t th =>
    refine h.keep (fun c => ?_) fun x hx => ?_
    · unfold Scheduler.createProcessBase
      rw [Scheduler.enscheduleBest_none]
      exact Scheduler.enqueue_ct ..
    · exact congrArg Thread.last ((s.sched.step_createProcessBase t th).2.2 x fun heq => hx (heq ▸ hguard))

/-- Before the first scheduling nothing can be wrong yet. -/
theorem Idle.inv (h : s.Idle) : s.Inv := by
  obtain ⟨hrunning, hleft, hreturns⟩ := h
  refine ⟨fun e he => ?_, fun t u ht => ?_, fun c hc => ?_⟩
  · rw [hreturns] at he
    exact absurd he (by simp)
  · rw [hleft] at ht
    exact absurd ht (by simp)
  · rw [hrunning] at hc
    exact absurd hc (by simp)

end ContextState

/-- In every run in which scheduling saves and restores everything, every thread that returns to user
code has the registers it was last taken off with, and every thread that is off has them saved. -/
theorem context_run_preserved {n : ℕ} (s : ContextState n) (ops : List (ContextOp n)) (hs : s.Idle)
    (hops : Guarded ContextState.step ContextState.Restorable s ops) :
    (run ContextState.step s ops).Preserved ∧ (run ContextState.step s ops).Saved :=
  let h := hops.invariant ContextState.Inv (fun _ op h hguard => h.step op hguard) hs.inv
  ⟨h.preserved, h.saved⟩

/-- Registers with one value everywhere. -/
def plainRegisters (x : ℕ) : Registers := ⟨x, x, x, x, x, x, x, x, x, x, x, x, x, x, x, x, x, x⟩

/-- One CPU with two threads in its first queue, before the first scheduling. -/
def twoThreads : ContextState 0 where
  sched :=
    { cpu := fun _ => ⟨none, fun i => if i = 0 then [0, 1] else []⟩
      thread := fun t => ⟨0, false, 0, t, none, plainRegisters 0⟩
      threads := [0, 1]
      list := fun _ => []
      futexes := fun _ _ => none }
  running := fun _ => none
  left := fun _ => none
  returns := []

/-- The answer of a call that leaves the frame alone. -/
def noAnswer (r : Frame) : Answer := ⟨0, 0, r, false⟩

/-- Two threads take turns, and each gets its registers back. -/
theorem context_run_preserved_pair :
    (run ContextState.step twoThreads [.activate 0 noAnswer, .execute 0 (plainRegisters 7), .interrupt 0 noAnswer,
        .execute 0 (plainRegisters 9), .interrupt 0 noAnswer]).Preserved ∧
      (run ContextState.step twoThreads [.activate 0 noAnswer, .execute 0 (plainRegisters 7), .interrupt 0 noAnswer,
        .execute 0 (plainRegisters 9), .interrupt 0 noAnswer]).Saved := by
  refine context_run_preserved twoThreads _ ⟨fun _ => rfl, fun _ => rfl, rfl⟩
    ⟨?_, True.intro, fun _ => ⟨by decide +kernel, ?_⟩, True.intro, fun _ => ⟨by decide +kernel, ?_⟩, True.intro⟩
  · unfold ContextState.Restorable ContextState.Selects
    decide +kernel
  · unfold ContextState.Selects
    decide +kernel
  · unfold ContextState.Selects
    decide +kernel

/-- The second thread blocks in `futex_wait`, and the first one returns with the zero of that call in
its `rax`. -/
theorem context_preservation_fails :
    twoThreads.Idle ∧ ¬ (run ContextState.step twoThreads [.activate 0 noAnswer, .execute 0 (plainRegisters 7),
      .interrupt 0 noAnswer, .futexWait 0 0x10 noAnswer]).Preserved := by
  refine ⟨⟨fun _ => rfl, fun _ => rfl, rfl⟩, fun hpreserved => ?_⟩
  have hwrong : ∃ e ∈ (run ContextState.step twoThreads [.activate 0 noAnswer, .execute 0 (plainRegisters 7),
      .interrupt 0 noAnswer, .futexWait 0 0x10 noAnswer]).returns,
      e.left = some (plainRegisters 7) ∧ e.now.rax = 0 := by decide +kernel
  obtain ⟨e, he, hleft, hrax⟩ := hwrong
  rw [hpreserved e he _ hleft] at hrax
  exact absurd hrax (by decide)

end Cthulhu
