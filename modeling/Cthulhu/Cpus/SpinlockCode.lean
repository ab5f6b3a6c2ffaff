import Mathlib.Data.List.Basic
import Mathlib.Logic.Function.Iterate
import Cthulhu.Lib.Spinlock

/-!
# The code of the spinlocks

`proc_spinlock_lock` exchanges a one with the word of the lock until it gets a zero back, and `proc_spinlock_unlock` stores a
zero. CPUs run programs over such locks, instruction by instruction within the two procedures, in any interleaving. The
machine refines the one whose locks are taken in one step: a lock is taken by the `xchg` that finds the zero.
-/

namespace Cthulhu

open Lib

/-- The instructions of the two procedures. The operand in memory is the word of the lock. -/
inductive SpinInstr where
  | movRax (value : ℕ)
  /-- `lock xchg [rdi], rax` -/
  | xchg
  | cmpRax (value : ℕ)
  | je (target : ℕ)
  | pause
  | jmp (target : ℕ)
  /-- `mov qword [rdi], 0` -/
  | storeZero
  | ret
  deriving DecidableEq

/-- `proc_spinlock_lock`. -/
def procSpinlockLock : List SpinInstr := [.movRax 1, .xchg, .cmpRax 0, .je 6, .pause, .jmp 0, .ret]

/-- `proc_spinlock_unlock`. -/
def procSpinlockUnlock : List SpinInstr := [.storeZero, .ret]

/-- A call of one of them. -/
structure SpinCall (L : Type*) where
  lock : L
  body : List SpinInstr
  pc : ℕ

/-- A CPU: its program, the call that it is in, and the registers that matter there. -/
structure SpinCore (L G σ : Type*) where
  code : Code L G σ
  call : Option (SpinCall L)
  rax : ℕ
  zf : Bool

/-- The memory, the words of the locks, and the CPUs with their stages. -/
structure SpinMachine (ι L G σ : Type*) where
  mem : σ
  word : L → ℕ
  stage : ι → G
  core : ι → SpinCore L G σ

/-- What a program does when the procedure that it has called returns. -/
def returned {L G σ : Type*} : Code L G σ → Code L G σ
  | .lock _ next => next
  | .unlock _ next => next
  | code => code

namespace SpinMachine

variable {ι L G σ : Type*} [DecidableEq ι] [DecidableEq L]

/-- A CPU goes on. -/
def next (s : SpinMachine ι L G σ) (i : ι) (c : SpinCore L G σ) : SpinMachine ι L G σ :=
  { s with core := Function.update s.core i c }

/-- An instruction of a procedure. -/
def execute (s : SpinMachine ι L G σ) (i : ι) (p : SpinCall L) : SpinInstr → SpinMachine ι L G σ
  | .movRax value => s.next i { s.core i with call := some { p with pc := p.pc + 1 }, rax := value }
  | .xchg => { s.next i { s.core i with call := some { p with pc := p.pc + 1 }, rax := s.word p.lock } with
      word := Function.update s.word p.lock (s.core i).rax }
  | .cmpRax value => s.next i { s.core i with call := some { p with pc := p.pc + 1 }, zf := decide ((s.core i).rax = value) }
  | .je target => s.next i { s.core i with call := some { p with pc := if (s.core i).zf then target else p.pc + 1 } }
  | .pause => s.next i { s.core i with call := some { p with pc := p.pc + 1 } }
  | .jmp target => s.next i { s.core i with call := some { p with pc := target } }
  | .storeZero => { s.next i { s.core i with call := some { p with pc := p.pc + 1 } } with
      word := Function.update s.word p.lock 0 }
  | .ret => s.next i { s.core i with call := none, code := returned (s.core i).code }

/-- A step of a CPU: an instruction of the procedure that it is in, or what its program does next. -/
def step (s : SpinMachine ι L G σ) (i : ι) : SpinMachine ι L G σ :=
  match (s.core i).call with
  | some p =>
    match p.body[p.pc]? with
    | some instr => s.execute i p instr
    | none => s
  | none =>
    match (s.core i).code with
    | .done => s
    | .lock l _ => s.next i { s.core i with call := some ⟨l, procSpinlockLock, 0⟩ }
    | .unlock l _ => s.next i { s.core i with call := some ⟨l, procSpinlockUnlock, 0⟩ }
    | .mark g code => { s.next i { s.core i with code := code } with stage := Function.update s.stage i g }
    | .act change code => { s.next i { s.core i with code := code s.mem } with mem := change s.mem }

end SpinMachine

variable {ι L G σ : Type*}

/-- Where a CPU is in a procedure, and what is left of its program when locks are taken in one step. -/
inductive CoreAt : SpinCore L G σ → Code L G σ → Prop
  | outside (code : Code L G σ) (rax : ℕ) (zf : Bool) : CoreAt ⟨code, none, rax, zf⟩ code
  | enters (l : L) (next : Code L G σ) (rax : ℕ) (zf : Bool) :
    CoreAt ⟨.lock l next, some ⟨l, procSpinlockLock, 0⟩, rax, zf⟩ (.lock l next)
  | tries (l : L) (next : Code L G σ) (zf : Bool) :
    CoreAt ⟨.lock l next, some ⟨l, procSpinlockLock, 1⟩, 1, zf⟩ (.lock l next)
  | failed (l : L) (next : Code L G σ) (zf : Bool) :
    CoreAt ⟨.lock l next, some ⟨l, procSpinlockLock, 2⟩, 1, zf⟩ (.lock l next)
  | compared (l : L) (next : Code L G σ) (rax : ℕ) :
    CoreAt ⟨.lock l next, some ⟨l, procSpinlockLock, 3⟩, rax, false⟩ (.lock l next)
  | pauses (l : L) (next : Code L G σ) (rax : ℕ) (zf : Bool) :
    CoreAt ⟨.lock l next, some ⟨l, procSpinlockLock, 4⟩, rax, zf⟩ (.lock l next)
  | jumps (l : L) (next : Code L G σ) (rax : ℕ) (zf : Bool) :
    CoreAt ⟨.lock l next, some ⟨l, procSpinlockLock, 5⟩, rax, zf⟩ (.lock l next)
  | took (l : L) (next : Code L G σ) (zf : Bool) : CoreAt ⟨.lock l next, some ⟨l, procSpinlockLock, 2⟩, 0, zf⟩ next
  | sees (l : L) (next : Code L G σ) (rax : ℕ) : CoreAt ⟨.lock l next, some ⟨l, procSpinlockLock, 3⟩, rax, true⟩ next
  | returns (l : L) (next : Code L G σ) (rax : ℕ) (zf : Bool) :
    CoreAt ⟨.lock l next, some ⟨l, procSpinlockLock, 6⟩, rax, zf⟩ next
  | releases (l : L) (next : Code L G σ) (rax : ℕ) (zf : Bool) :
    CoreAt ⟨.unlock l next, some ⟨l, procSpinlockUnlock, 0⟩, rax, zf⟩ (.unlock l next)
  | released (l : L) (next : Code L G σ) (rax : ℕ) (zf : Bool) :
    CoreAt ⟨.unlock l next, some ⟨l, procSpinlockUnlock, 1⟩, rax, zf⟩ next

/-- The two machines agree. -/
structure Refines (s : SpinMachine ι L G σ) (a : Spin ι L G σ) : Prop where
  mem : s.mem = a.mem
  stage : s.stage = a.stage
  word : ∀ l, (a.held l = none → s.word l = 0) ∧ (a.held l ≠ none → s.word l = 1)
  core : ∀ i, CoreAt (s.core i) (a.code i)

section Steps

variable [DecidableEq ι] {s : SpinMachine ι L G σ} {a : Spin ι L G σ} {i : ι}

/-- A CPU goes on within a procedure, and nothing else changes. -/
theorem Refines.stays (h : Refines s a) {c : SpinCore L G σ} (hc : CoreAt c (a.code i)) : Refines (s.next i c) a := by
  refine ⟨h.mem, h.stage, h.word, fun j => ?_⟩
  unfold SpinMachine.next
  by_cases hj : j = i
  · subst hj
    simp only [Function.update_self]
    exact hc
  · simp only [Function.update_of_ne hj]
    exact h.core j

/-- A CPU goes on, and so does its program. -/
theorem Refines.goes (h : Refines s a) {c : SpinCore L G σ} {code : Code L G σ} (hc : CoreAt c code) (j : ι) :
    CoreAt (Function.update s.core i c j) (Function.update a.code i code j) := by
  by_cases hj : j = i
  · subst hj
    rw [Function.update_self, Function.update_self]
    exact hc
  · rw [Function.update_of_ne hj, Function.update_of_ne hj]
    exact h.core j

variable [DecidableEq L]

/-- The exchange takes the lock if it is free. -/
theorem Refines.exchange (h : Refines s a) {l : L} {next : Code L G σ} {zf : Bool}
    (hc : s.core i = ⟨.lock l next, some ⟨l, procSpinlockLock, 1⟩, 1, zf⟩) (hcode : a.code i = .lock l next) :
    Refines (s.step i) (a.step i) := by
  have hstep : s.step i = { s.next i ⟨.lock l next, some ⟨l, procSpinlockLock, 2⟩, s.word l, zf⟩ with
      word := Function.update s.word l 1 } := by
    unfold SpinMachine.step
    rw [hc]
    change s.execute i ⟨l, procSpinlockLock, 1⟩ .xchg = _
    unfold SpinMachine.execute
    rw [hc]
  rw [hstep]
  unfold Spin.step
  rw [hcode]
  dsimp only
  by_cases hfree : a.held l = none
  · rw [if_pos hfree]
    refine ⟨h.mem, h.stage, fun m => ?_, fun j => ?_⟩
    · dsimp only
      by_cases hm : m = l
      · subst hm
        rw [Function.update_self, Function.update_self]
        exact ⟨fun hnone => absurd hnone (Option.some_ne_none i), fun _ => rfl⟩
      · rw [Function.update_of_ne hm, Function.update_of_ne hm]
        exact h.word m
    · rw [(h.word l).1 hfree]
      exact h.goes (.took l next zf) j
  · have hword := (h.word l).2 hfree
    rw [if_neg hfree, hword]
    refine ⟨h.mem, h.stage, fun m => ?_, fun j => ?_⟩
    · have hsame : Function.update s.word l 1 = s.word := by rw [← hword, Function.update_eq_self]
      dsimp only
      rw [hsame]
      exact h.word m
    · have hj := h.goes (i := i) (.failed l next zf) j
      nth_rewrite 2 [← hcode] at hj
      rw [Function.update_eq_self] at hj
      exact hj

/-- The store releases the lock. -/
theorem Refines.release (h : Refines s a) {l : L} {next : Code L G σ} {rax : ℕ} {zf : Bool}
    (hc : s.core i = ⟨.unlock l next, some ⟨l, procSpinlockUnlock, 0⟩, rax, zf⟩) (hcode : a.code i = .unlock l next) :
    Refines (s.step i) (a.step i) := by
  have hstep : s.step i = { s.next i ⟨.unlock l next, some ⟨l, procSpinlockUnlock, 1⟩, rax, zf⟩ with
      word := Function.update s.word l 0 } := by
    unfold SpinMachine.step
    rw [hc]
    change s.execute i ⟨l, procSpinlockUnlock, 0⟩ .storeZero = _
    unfold SpinMachine.execute
    rw [hc]
  rw [hstep]
  unfold Spin.step
  rw [hcode]
  refine ⟨h.mem, h.stage, fun m => ?_, fun j => h.goes (.released l next rax zf) j⟩
  dsimp only
  by_cases hm : m = l
  · subst hm
    rw [Function.update_self, Function.update_self]
    exact ⟨fun _ => rfl, fun hsome => absurd rfl hsome⟩
  · rw [Function.update_of_ne hm, Function.update_of_ne hm]
    exact h.word m

/-- What a program does between the procedures. -/
theorem Refines.between (h : Refines s a) {code : Code L G σ} {rax : ℕ} {zf : Bool} (hc : s.core i = ⟨code, none, rax, zf⟩)
    (hcode : a.code i = code) : Refines (s.step i) a ∨ Refines (s.step i) (a.step i) := by
  unfold SpinMachine.step
  rw [hc]
  cases code with
  | done => exact Or.inl h
  | lock l next =>
    left
    apply h.stays
    rw [hcode]
    exact .enters l next rax zf
  | unlock l next =>
    left
    apply h.stays
    rw [hcode]
    exact .releases l next rax zf
  | mark g next =>
    right
    unfold Spin.step
    rw [hcode]
    refine ⟨h.mem, ?_, h.word, fun j => h.goes (.outside next rax zf) j⟩
    dsimp only
    rw [h.stage]
  | act change next =>
    right
    unfold Spin.step
    rw [hcode]
    refine ⟨congrArg change h.mem, h.stage, h.word, fun j => ?_⟩
    dsimp only
    rw [h.mem]
    exact h.goes (.outside (next a.mem) rax zf) j

/-- Every step of the machine is a step of the one whose locks are taken at once, or none. -/
theorem Refines.step (h : Refines s a) (i : ι) : Refines (s.step i) a ∨ Refines (s.step i) (a.step i) := by
  have hcore := h.core i
  generalize hc : s.core i = c at hcore
  generalize hcode : a.code i = code at hcore
  cases hcore with
  | outside code rax zf => exact h.between hc hcode
  | tries l next zf => exact Or.inr (h.exchange hc hcode)
  | releases l next rax zf => exact Or.inr (h.release hc hcode)
  | enters l next rax zf =>
    left
    unfold SpinMachine.step
    rw [hc]
    apply h.stays
    rw [hc, hcode]
    exact .tries l next zf
  | failed l next zf =>
    left
    unfold SpinMachine.step
    rw [hc]
    apply h.stays
    rw [hc, hcode]
    exact .compared l next 1
  | compared l next rax =>
    left
    unfold SpinMachine.step
    rw [hc]
    apply h.stays
    rw [hc, hcode]
    exact .pauses l next rax false
  | pauses l next rax zf =>
    left
    unfold SpinMachine.step
    rw [hc]
    apply h.stays
    rw [hc, hcode]
    exact .jumps l next rax zf
  | jumps l next rax zf =>
    left
    unfold SpinMachine.step
    rw [hc]
    apply h.stays
    rw [hc, hcode]
    exact .enters l next rax zf
  | took l next zf =>
    left
    unfold SpinMachine.step
    rw [hc]
    apply h.stays
    rw [hc, hcode]
    exact .sees l code 0
  | sees l next rax =>
    left
    unfold SpinMachine.step
    rw [hc]
    apply h.stays
    rw [hc, hcode]
    exact .returns l code rax true
  | returns l next rax zf =>
    left
    unfold SpinMachine.step
    rw [hc]
    apply h.stays
    rw [hc, hcode]
    exact .outside code rax zf
  | released l next rax zf =>
    left
    unfold SpinMachine.step
    rw [hc]
    apply h.stays
    rw [hc, hcode]
    exact .outside code rax zf

/-- Every run of the machine is a run of the one whose locks are taken at once. -/
theorem Refines.run (h : Refines s a) (cpus : List ι) :
    ∃ steps, List.Sublist steps cpus ∧ Refines (Lib.run SpinMachine.step s cpus) (Lib.run Spin.step a steps) := by
  induction cpus generalizing s a with
  | nil => exact ⟨[], List.Sublist.refl _, h⟩
  | cons i rest ih =>
    rcases h.step i with hstay | hgo
    · obtain ⟨steps, hsub, hrun⟩ := ih hstay
      exact ⟨steps, hsub.cons i, hrun⟩
    · obtain ⟨steps, hsub, hrun⟩ := ih hgo
      exact ⟨i :: steps, hsub.cons_cons i, hrun⟩

/-- The locks that are held, over a run of the machine whose locks are taken at once. -/
theorem holds_run {may : ι → G → List L → L → Prop} {locks : ι → List L} (h : a.Holds may (fun _ _ => True) locks)
    (steps : List ι) : ∃ locks', (Lib.run Spin.step a steps).Holds may (fun _ _ => True) locks' := by
  induction steps generalizing a locks with
  | nil => exact ⟨locks, h⟩
  | cons i rest ih =>
    obtain ⟨locks', hstep⟩ := h.step i fun _ _ _ => True.intro
    exact ih hstep

end Steps

section Runs

variable [DecidableEq ι] [DecidableEq L]

/-- A machine before its programs begin. -/
def SpinMachine.begin (mem : σ) (stage : ι → G) (code : ι → Code L G σ) : SpinMachine ι L G σ :=
  ⟨mem, fun _ => 0, stage, fun i => ⟨code i, none, 0, false⟩⟩

/-- Programs that follow a discipline exclude each other by the two procedures: after any interleaving of their instructions
the machine is where a run of the machine whose locks are taken at once is, every lock has at most one holder, and the word
of a lock is one while it has and zero otherwise. -/
theorem procSpinlock_excludes (may : ι → G → List L → L → Prop) (mem : σ) (stage : ι → G) (code : ι → Code L G σ)
    (hfollows : ∀ i, (code i).Follows (may i) (fun _ => True) (stage i) []) (cpus : List ι) :
    ∃ (steps : List ι) (locks : ι → List L), List.Sublist steps cpus ∧
      Refines (run SpinMachine.step (.begin mem stage code) cpus) (run Spin.step ⟨mem, fun _ => none, stage, code⟩ steps) ∧
      (∀ i, (locks i).Nodup) ∧ (∀ l i j, l ∈ locks i → l ∈ locks j → i = j) ∧
      ∀ l, ((∀ i, l ∉ locks i) → (run SpinMachine.step (.begin mem stage code) cpus).word l = 0) ∧
        ∀ i, l ∈ locks i → (run SpinMachine.step (.begin mem stage code) cpus).word l = 1 := by
  have hfirst : Refines (.begin mem stage code) (⟨mem, fun _ => none, stage, code⟩ : Spin ι L G σ) :=
    ⟨rfl, rfl, fun _ => ⟨fun _ => rfl, fun hsome => absurd rfl hsome⟩, fun i => .outside (code i) 0 false⟩
  have hheld : (⟨mem, fun _ => none, stage, code⟩ : Spin ι L G σ).Holds may (fun _ _ => True) fun _ => [] :=
    ⟨fun _ => List.nodup_nil, fun l i => ⟨fun h => absurd h (Option.some_ne_none i).symm, fun h => absurd h List.not_mem_nil⟩,
      hfollows⟩
  obtain ⟨steps, hsub, hrefines⟩ := hfirst.run cpus
  obtain ⟨locks, hholds⟩ := holds_run hheld steps
  refine ⟨steps, locks, hsub, hrefines, hholds.nodup, fun l i j => hholds.unique, fun l => ⟨fun hnone => ?_, fun i hi => ?_⟩⟩
  · apply (hrefines.word l).1
    rw [Option.eq_none_iff_forall_ne_some]
    exact fun i hi => hnone i ((hholds.held l i).mp hi)
  · apply (hrefines.word l).2
    rw [(hholds.held l i).mpr hi]
    exact Option.some_ne_none i

end Runs

/-- A counter under a lock. -/
def counterCode : Code Unit Unit ℕ := .lock () (.act Nat.succ fun _ => .unlock () .done)

/-- Two CPUs at that counter, with their instructions mixed. -/
theorem procSpinlock_excludes_counter : ∃ (steps : List Bool) (locks : Bool → List Unit),
    Refines (run SpinMachine.step (.begin 0 (fun _ => ()) fun _ => counterCode)
        [false, true, false, true, false, true, true, false])
      (run Spin.step ⟨0, fun _ => none, fun _ => (), fun _ => counterCode⟩ steps) ∧
    ∀ i j, () ∈ locks i → () ∈ locks j → i = j := by
  have hfollows (i : Bool) : counterCode.Follows (fun _ held l => l ∉ held) (fun _ => True) () [] :=
    ⟨List.not_mem_nil, fun _ => ⟨List.mem_cons_self .., List.erase_cons_head ..⟩⟩
  obtain ⟨steps, locks, -, hrefines, -, hunique, -⟩ := procSpinlock_excludes (fun _ _ held l => l ∉ held) 0 (fun _ => ())
    (fun _ => counterCode) hfollows [false, true, false, true, false, true, true, false]
  exact ⟨steps, locks, hrefines, hunique ()⟩

section Progress

variable [DecidableEq ι] [DecidableEq L] {s : SpinMachine ι L G σ} {a : Spin ι L G σ} {i : ι} {l : L} {next : Code L G σ} {rax : ℕ}
  {zf : Bool}

/-- Within so many steps of its own a CPU is back from the procedure. -/
def Back (i : ι) (next : Code L G σ) (n : ℕ) (s : SpinMachine ι L G σ) : Prop :=
  ∃ k ≤ n, (((fun s => s.step i)^[k] s).core i).call = none ∧ (((fun s => s.step i)^[k] s).core i).code = next

/-- One step earlier. -/
theorem Back.before {n : ℕ} (h : Back i next n (s.step i)) : Back i next (n + 1) s := by
  obtain ⟨k, hk, hback⟩ := h
  exact ⟨k + 1, Nat.succ_le_succ hk, hback⟩

/-- The core after an instruction of `proc_spinlock_lock`. -/
theorem step_core {pc : ℕ} {instr : SpinInstr} (hc : s.core i = ⟨.lock l next, some ⟨l, procSpinlockLock, pc⟩, rax, zf⟩)
    (hinstr : procSpinlockLock[pc]? = some instr) : s.step i = s.execute i ⟨l, procSpinlockLock, pc⟩ instr := by
  unfold SpinMachine.step
  rw [hc]
  dsimp only
  rw [hinstr]

/-- From the `ret`. -/
theorem back_returns (hc : s.core i = ⟨.lock l next, some ⟨l, procSpinlockLock, 6⟩, rax, zf⟩) : Back i next 1 s := by
  refine ⟨1, Nat.le_refl 1, ?_, ?_⟩
  · change ((s.step i).core i).call = none
    rw [step_core hc rfl]
    simp only [SpinMachine.execute, SpinMachine.next, Function.update_self]
  · change ((s.step i).core i).code = next
    rw [step_core hc rfl]
    simp only [SpinMachine.execute, SpinMachine.next, Function.update_self, hc, returned]

/-- From the `je` when the exchange found a zero. -/
theorem back_sees (hc : s.core i = ⟨.lock l next, some ⟨l, procSpinlockLock, 3⟩, rax, true⟩) :
    Back i next 2 s := by
  have hcore : (s.step i).core i = ⟨.lock l next, some ⟨l, procSpinlockLock, 6⟩, rax, true⟩ := by
    rw [step_core hc rfl]
    simp only [SpinMachine.execute, SpinMachine.next, Function.update_self, hc, if_true]
  apply Back.before
  exact back_returns hcore

/-- From the `cmp` behind that exchange. -/
theorem back_took (hc : s.core i = ⟨.lock l next, some ⟨l, procSpinlockLock, 2⟩, 0, zf⟩) :
    Back i next 3 s := by
  have hcore : (s.step i).core i = ⟨.lock l next, some ⟨l, procSpinlockLock, 3⟩, 0, true⟩ := by
    rw [step_core hc rfl]
    simp only [SpinMachine.execute, SpinMachine.next, Function.update_self, hc, decide_true]
  apply Back.before
  exact back_sees hcore

/-- From the exchange, when there is a zero to be found. -/
theorem back_tries (hc : s.core i = ⟨.lock l next, some ⟨l, procSpinlockLock, 1⟩, rax, zf⟩) (hword : s.word l = 0) :
    Back i next 4 s := by
  have hcore : (s.step i).core i = ⟨.lock l next, some ⟨l, procSpinlockLock, 2⟩, 0, zf⟩ := by
    rw [step_core hc rfl]
    simp only [SpinMachine.execute, SpinMachine.next, Function.update_self, hc, hword]
  apply Back.before
  exact back_took hcore

/-- From the beginning. -/
theorem back_enters (hc : s.core i = ⟨.lock l next, some ⟨l, procSpinlockLock, 0⟩, rax, zf⟩) (hword : s.word l = 0) :
    Back i next 5 s := by
  have hcore : (s.step i).core i = ⟨.lock l next, some ⟨l, procSpinlockLock, 1⟩, 1, zf⟩ := by
    rw [step_core hc rfl]
    simp only [SpinMachine.execute, SpinMachine.next, Function.update_self, hc]
  apply Back.before
  rw [step_core hc rfl] at hcore ⊢
  exact back_tries hcore hword

/-- From the `jmp`. -/
theorem back_jumps (hc : s.core i = ⟨.lock l next, some ⟨l, procSpinlockLock, 5⟩, rax, zf⟩) (hword : s.word l = 0) :
    Back i next 6 s := by
  have hcore : (s.step i).core i = ⟨.lock l next, some ⟨l, procSpinlockLock, 0⟩, rax, zf⟩ := by
    rw [step_core hc rfl]
    simp only [SpinMachine.execute, SpinMachine.next, Function.update_self, hc]
  apply Back.before
  rw [step_core hc rfl] at hcore ⊢
  exact back_enters hcore hword

/-- From the `pause`. -/
theorem back_pauses (hc : s.core i = ⟨.lock l next, some ⟨l, procSpinlockLock, 4⟩, rax, zf⟩) (hword : s.word l = 0) :
    Back i next 7 s := by
  have hcore : (s.step i).core i = ⟨.lock l next, some ⟨l, procSpinlockLock, 5⟩, rax, zf⟩ := by
    rw [step_core hc rfl]
    simp only [SpinMachine.execute, SpinMachine.next, Function.update_self, hc]
  apply Back.before
  rw [step_core hc rfl] at hcore ⊢
  exact back_jumps hcore hword

/-- From the `je` when the exchange found a one. -/
theorem back_compared (hc : s.core i = ⟨.lock l next, some ⟨l, procSpinlockLock, 3⟩, rax, false⟩) (hword : s.word l = 0) :
    Back i next 8 s := by
  have hcore : (s.step i).core i = ⟨.lock l next, some ⟨l, procSpinlockLock, 4⟩, rax, false⟩ := by
    rw [step_core hc rfl]
    simp only [SpinMachine.execute, SpinMachine.next, Function.update_self, hc, if_false, Bool.false_eq_true]
  apply Back.before
  rw [step_core hc rfl] at hcore ⊢
  exact back_pauses hcore hword

/-- From the `cmp` behind that exchange. -/
theorem back_failed (hc : s.core i = ⟨.lock l next, some ⟨l, procSpinlockLock, 2⟩, 1, zf⟩) (hword : s.word l = 0) :
    Back i next 9 s := by
  have hcore : (s.step i).core i = ⟨.lock l next, some ⟨l, procSpinlockLock, 3⟩, 1, false⟩ := by
    rw [step_core hc rfl]
    simp only [SpinMachine.execute, SpinMachine.next, Function.update_self, hc, Nat.one_ne_zero, decide_false]
  apply Back.before
  rw [step_core hc rfl] at hcore ⊢
  exact back_compared hcore hword

/-- Fewer steps will do. -/
theorem Back.mono {m n : ℕ} (h : Back i next m s) (hle : m ≤ n) : Back i next n s := by
  obtain ⟨k, hk, hback⟩ := h
  exact ⟨k, Nat.le_trans hk hle, hback⟩

/-- A free lock is taken: wherever a CPU is in `proc_spinlock_lock` when the word is zero, nine steps of its own are enough
for it to be back with its program going on. -/
theorem procSpinlock_free (mem : σ) (stage : ι → G) (code : ι → Code L G σ) (cpus : List ι) {p : SpinCall L}
    (hcall : ((run SpinMachine.step (.begin mem stage code) cpus).core i).call = some p) (hbody : p.body = procSpinlockLock)
    (hword : (run SpinMachine.step (.begin mem stage code) cpus).word p.lock = 0) :
    ∃ next, ((run SpinMachine.step (.begin mem stage code) cpus).core i).code = .lock p.lock next ∧
      Back i next 9 (run SpinMachine.step (.begin mem stage code) cpus) := by
  have hfirst : Refines (.begin mem stage code) (⟨mem, fun _ => none, stage, code⟩ : Spin ι L G σ) :=
    ⟨rfl, rfl, fun _ => ⟨fun _ => rfl, fun hsome => absurd rfl hsome⟩, fun i => .outside (code i) 0 false⟩
  obtain ⟨steps, -, hrefines⟩ := hfirst.run cpus
  have hcore := hrefines.core i
  generalize (run Spin.step ⟨mem, fun _ => none, stage, code⟩ steps).code i = left at hcore
  generalize hc : (run SpinMachine.step (.begin mem stage code) cpus).core i = c at hcore hcall ⊢
  cases hcore with
  | outside code rax zf => exact absurd hcall.symm (Option.some_ne_none p)
  | enters l next rax zf =>
    obtain rfl := Option.some.inj hcall
    exact ⟨next, rfl, (back_enters hc hword).mono (by decide)⟩
  | tries l next zf =>
    obtain rfl := Option.some.inj hcall
    exact ⟨next, rfl, (back_tries hc hword).mono (by decide)⟩
  | failed l next zf =>
    obtain rfl := Option.some.inj hcall
    exact ⟨next, rfl, (back_failed hc hword).mono (by decide)⟩
  | compared l next rax =>
    obtain rfl := Option.some.inj hcall
    exact ⟨next, rfl, (back_compared hc hword).mono (by decide)⟩
  | pauses l next rax zf =>
    obtain rfl := Option.some.inj hcall
    exact ⟨next, rfl, (back_pauses hc hword).mono (by decide)⟩
  | jumps l next rax zf =>
    obtain rfl := Option.some.inj hcall
    exact ⟨next, rfl, (back_jumps hc hword).mono (by decide)⟩
  | took l next zf =>
    obtain rfl := Option.some.inj hcall
    exact ⟨_, rfl, (back_took hc).mono (by decide)⟩
  | sees l next rax =>
    obtain rfl := Option.some.inj hcall
    exact ⟨_, rfl, (back_sees hc).mono (by decide)⟩
  | returns l next rax zf =>
    obtain rfl := Option.some.inj hcall
    exact ⟨_, rfl, (back_returns hc).mono (by decide)⟩
  | releases l next rax zf =>
    obtain rfl := Option.some.inj hcall
    exact absurd hbody (by decide : procSpinlockUnlock ≠ procSpinlockLock)
  | released l next rax zf =>
    obtain rfl := Option.some.inj hcall
    exact absurd hbody (by decide : procSpinlockUnlock ≠ procSpinlockLock)

end Progress

/-- The first of two CPUs at the counter has begun; nine steps of its own are enough. -/
theorem procSpinlock_free_counter :
    ∃ next, Back false next 9 (run SpinMachine.step (.begin 0 (fun _ => ()) fun _ => counterCode) [false]) := by
  obtain ⟨next, -, hback⟩ := @procSpinlock_free Bool Unit Unit ℕ _ _ false 0 (fun _ => ()) (fun _ => counterCode) [false]
    ⟨(), procSpinlockLock, 0⟩ rfl rfl rfl
  exact ⟨next, hback⟩

end Cthulhu
