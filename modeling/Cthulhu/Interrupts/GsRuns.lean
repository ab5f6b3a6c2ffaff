import Mathlib.Logic.Relation
import Cthulhu.Interrupts.StubCode

/-!
# The base of `gs` over runs

The kernel finds the structure of its processor through `gs`, and a thread its own data. The bases are exchanged by the stubs
of interrupts, which look at the code segment, by the entry and the exit of system calls and by `switch_to_usermode`, which do
not, and twice in a row by `context_switch`. Interrupts nest, user code may load `gs`, and a switch may leave frames behind.

Between the two exchanges of `context_switch`, and between the exchange and the `iretq` of `switch_to_usermode`, the code
segment is the kernel's and the base is the user's. The idle loop of `schedule` has enabled interrupts on the way to both. An
interrupt that comes there finds the segment of the kernel, exchanges nothing and runs the kernel with the base of the user.
-/

namespace Cthulhu

/-- `write_gs`. -/
def GsBases.write (g : GsBases) (base : ℕ) : GsBases := (GsBases.mk g.active base).swap

/-- How far the processor is in a sequence of instructions that exchanges the bases. -/
inductive Crossing where
  /-- in none of them -/
  | apart
  /-- behind the `wrmsr` that `write_gs` makes for `context_switch` -/
  | written
  /-- behind the `swapgs` of that `write_gs` -/
  | exchanged
  /-- behind the `swapgs` of `switch_to_usermode` -/
  | leaving
  /-- before the `swapgs` of `syscall_enter` -/
  | entered
  /-- behind the `swapgs` of a `sysretq` -/
  | returning
  deriving DecidableEq

/-- The bases are those of the user while the code segment is the kernel's. -/
def Crossing.Open (c : Crossing) : Prop := c ≠ .apart ∧ c ≠ .written

instance (c : Crossing) : Decidable c.Open := inferInstanceAs (Decidable (_ ∧ _))

/-- What lies on the kernel stacks. The instruction pointer of an interrupt tells how far the interrupted code was. -/
inductive SavedFrame where
  | interrupt (r : IsrFrame) (crossing : Crossing)
  | syscall (r : Frame)

/-- A processor in the course of its interrupts. Its user code has seen the base `userGs` last, or `context_switch` has given it
to the thread that is to run. -/
structure KernelCpu where
  context : Context
  gs : GsBases
  saved : List SavedFrame
  userGs : ℕ
  crossing : Crossing

/-- Interrupts are enabled. -/
def Context.interruptible (c : Context) : Bool := bit c.regs.rflags 9

/-- The registers with interrupts disabled, as every gate of the table leaves them. -/
def Registers.masked (u : Registers) : Registers := { u with rflags := setBit u.rflags 9 false }

/-- The frame that `context_switch` fills in. -/
inductive SwitchedFrame : List SavedFrame → List SavedFrame → Prop
  | interrupt {r r' : IsrFrame} (crossing : Crossing) (rest : List SavedFrame) (hcs : r'.cs = userCode) (hfs : r'.fs = r.fs) :
    SwitchedFrame (.interrupt r crossing :: rest) (.interrupt r' crossing :: rest)
  | syscall (r r' : Frame) (rest : List SavedFrame) : SwitchedFrame (.syscall r :: rest) (.syscall r' :: rest)

/-- An instruction of a processor, or a stretch of code that exchanges no bases. Kernel code and user code may do with the
registers what they want. `syscall` disables interrupts. The way back of `isr_common_stub` is one step: no handler that returns
to it has enabled interrupts, as the idle loop of `schedule` discards its frame. -/
inductive CpuStep : KernelCpu → KernelCpu → Prop
  | kernelRuns {s : KernelCpu} (c : Context) (hmode : s.context.cs = kernelCode) (hapart : s.crossing = .apart)
      (hcs : c.cs = kernelCode) : CpuStep s { s with context := c }
  | userRuns {s : KernelCpu} (c : Context) (hmode : s.context.cs ≠ kernelCode) (hcs : c.cs = s.context.cs) :
    CpuStep s { s with context := c }
  | userLoadsGs {s : KernelCpu} (base : ℕ) (hmode : s.context.cs ≠ kernelCode) :
    CpuStep s { s with gs := { s.gs with active := base }, userGs := base }
  | leave {s : KernelCpu} {r : IsrFrame} {crossing : Crossing} {rest : List SavedFrame} (left : Registers) (seg : Segment → ℕ)
      (frame : ℕ) {c : Context} {g : GsBases} (hmode : s.context.cs = kernelCode) (hapart : s.crossing = .apart)
      (hoff : s.context.interruptible = false) (hsaved : s.saved = .interrupt r crossing :: rest)
      (hleave : isrLeave left seg frame r s.gs = some (c, g)) :
    CpuStep s { s with
      context := c
      gs := g
      saved := if c.cs = kernelCode then rest else []
      crossing := if c.cs = kernelCode then crossing else .apart }
  | syscall {s : KernelCpu} (c : Context) (hmode : s.context.cs ≠ kernelCode) (hcs : c.cs = kernelCode)
      (hoff : c.interruptible = false) : CpuStep s { s with context := c, crossing := .entered }
  | syscallSwap {s : KernelCpu} (r : Frame) (hcrossing : s.crossing = .entered) :
    CpuStep s { s with gs := s.gs.swap, saved := .syscall r :: s.saved, crossing := .apart }
  | sysretSwap {s : KernelCpu} {r : Frame} {rest : List SavedFrame} (hmode : s.context.cs = kernelCode)
      (hapart : s.crossing = .apart) (hsaved : s.saved = .syscall r :: rest) :
    CpuStep s { s with gs := s.gs.swap, crossing := .returning }
  | sysret {s : KernelCpu} (c : Context) (hcrossing : s.crossing = .returning) (hcs : c.cs = userCode) :
    CpuStep s { s with context := c, saved := [], crossing := .apart }
  | switchFrame {s : KernelCpu} {saved : List SavedFrame} (hmode : s.context.cs = kernelCode) (hapart : s.crossing = .apart)
      (hsaved : SwitchedFrame s.saved saved) : CpuStep s { s with saved := saved }
  | writeGs {s : KernelCpu} (localInfo : ℕ) (hmode : s.context.cs = kernelCode) (hapart : s.crossing = .apart) :
    CpuStep s { s with gs := { s.gs with hidden := localInfo }, userGs := localInfo, crossing := .written }
  | writeGsSwap {s : KernelCpu} (hcrossing : s.crossing = .written) :
    CpuStep s { s with gs := s.gs.swap, crossing := .exchanged }
  | contextSwitchSwap {s : KernelCpu} (hcrossing : s.crossing = .exchanged) :
    CpuStep s { s with gs := s.gs.swap, crossing := .apart }
  | usermodeSwap {s : KernelCpu} (hmode : s.context.cs = kernelCode) (hapart : s.crossing = .apart) :
    CpuStep s { s with gs := s.gs.swap, crossing := .leaving }
  | switchToUsermode {s : KernelCpu} (c : Context) (hcrossing : s.crossing = .leaving) (hcs : c.cs = userCode) :
    CpuStep s { s with context := c, saved := [], crossing := .apart }

/-- An interrupt comes: of any kind outside the sequences that exchange the bases, and within them, where no instruction raises
an exception, one that is enabled. Interrupts that cannot be disabled are left out. -/
inductive Interrupted : KernelCpu → KernelCpu → Prop
  | enter {s : KernelCpu} {vector ecode top : ℕ} {m : IsrMachine} {r : IsrFrame}
      (hcomes : s.crossing = .apart ∨ s.context.interruptible = true)
      (henter : isrEnter s.context s.gs vector ecode top = some m) (hframe : IsrFrame.ofWords m.proc.stack = some r) :
    Interrupted s { s with
      context := ⟨m.proc.regs.masked, m.proc.seg, kernelCode⟩
      gs := m.gs
      saved := .interrupt r s.crossing :: s.saved
      crossing := .apart }

/-- A step of a run in which no interrupt comes where the base is the user's and the code segment the kernel's. -/
def Undisturbed (s s' : KernelCpu) : Prop := CpuStep s s' ∨ (¬ s.crossing.Open ∧ Interrupted s s')

/-- In the kernel `gs` leads to the structure of the processor and the base of the user is kept; outside it, and on the way, it
is the other way round. The frames hold segment words, as the exit code takes them to. -/
structure GsKept (cpu : ℕ) (s : KernelCpu) : Prop where
  bases : s.gs = if s.context.cs = kernelCode ∧ ¬ s.crossing.Open then ⟨cpu, s.userGs⟩ else ⟨s.userGs, cpu⟩
  mode : s.context.cs = kernelCode ∨ s.context.cs = userCode ∧ s.crossing = .apart
  words : ∀ r c, SavedFrame.interrupt r c ∈ s.saved →
    r.fs < 2 ^ 16 ∧ (r.cs = kernelCode ∨ r.cs = userCode) ∧ ¬ c.Open

/-- Crossing the boundary of the kernel. -/
theorem GsBases.cross_of_mode {g : GsBases} {cpu user cs : ℕ} (hcs : cs = kernelCode ∨ cs = userCode) :
    (g = (if cs = kernelCode then ⟨cpu, user⟩ else ⟨user, cpu⟩) → g.cross cs = ⟨cpu, user⟩) ∧
      (g = ⟨cpu, user⟩ → g.cross cs = if cs = kernelCode then ⟨cpu, user⟩ else ⟨user, cpu⟩) := by
  rcases hcs with rfl | rfl
  · exact ⟨fun h => h, fun h => h⟩
  · constructor
    · intro h
      rw [h]
      rfl
    · intro h
      rw [h]
      rfl

/-- The frame that is filled in keeps its segment words. -/
theorem SwitchedFrame.words {before after : List SavedFrame} (h : SwitchedFrame before after)
    (hwords : ∀ r c, SavedFrame.interrupt r c ∈ before → r.fs < 2 ^ 16 ∧ (r.cs = kernelCode ∨ r.cs = userCode) ∧ ¬ c.Open) :
    ∀ r c, SavedFrame.interrupt r c ∈ after → r.fs < 2 ^ 16 ∧ (r.cs = kernelCode ∨ r.cs = userCode) ∧ ¬ c.Open := by
  intro r c hr
  cases h with
  | interrupt crossing rest hcs hfs =>
    rcases List.mem_cons.mp hr with hr | hr
    · obtain ⟨rfl, rfl⟩ := SavedFrame.interrupt.inj hr
      obtain ⟨hlow, -, hclosed⟩ := hwords _ _ List.mem_cons_self
      exact ⟨hfs ▸ hlow, Or.inr hcs, hclosed⟩
    · exact hwords r c (List.mem_cons_of_mem _ hr)
  | syscall r₁ r₂ rest =>
    rcases List.mem_cons.mp hr with hr | hr
    · exact SavedFrame.noConfusion hr
    · exact hwords r c (List.mem_cons_of_mem _ hr)

section Bases

variable {cpu : ℕ} {s : KernelCpu}

/-- The bases in the kernel. -/
theorem GsKept.kernel (h : GsKept cpu s) (hmode : s.context.cs = kernelCode) (hclosed : ¬ s.crossing.Open) :
    s.gs = ⟨cpu, s.userGs⟩ := h.bases.trans (if_pos ⟨hmode, hclosed⟩)

/-- The bases outside of the kernel. -/
theorem GsKept.user (h : GsKept cpu s) (hmode : s.context.cs ≠ kernelCode) : s.gs = ⟨s.userGs, cpu⟩ :=
  h.bases.trans (if_neg fun hboth => hmode hboth.1)

/-- The bases on the way. -/
theorem GsKept.crossing (h : GsKept cpu s) (hopen : s.crossing.Open) : s.context.cs = kernelCode ∧ s.gs = ⟨s.userGs, cpu⟩ :=
  ⟨h.mode.resolve_right fun huser => hopen.1 huser.2, h.bases.trans (if_neg fun hboth => hboth.2 hopen)⟩

end Bases

/-- Every instruction keeps the bases. -/
theorem GsKept.step {cpu : ℕ} {s s' : KernelCpu} (h : GsKept cpu s) (hstep : CpuStep s s') : GsKept cpu s' := by
  have huser : userCode ≠ kernelCode := by decide
  have hclosed : ¬ Crossing.apart.Open := by decide
  have hwritten : ¬ Crossing.written.Open := by decide
  have hexchanged : Crossing.exchanged.Open := by decide
  have hleaving : Crossing.leaving.Open := by decide
  have hentered : Crossing.entered.Open := by decide
  have hreturning : Crossing.returning.Open := by decide
  cases hstep with
  | kernelRuns c hmode hapart hcs =>
    refine ⟨?_, Or.inl hcs, h.words⟩
    exact (h.kernel hmode (hapart ▸ hclosed)).trans (if_pos ⟨hcs, hapart ▸ hclosed⟩).symm
  | userRuns c hmode hcs =>
    refine ⟨?_, (h.mode.imp hcs.trans) (And.imp_left hcs.trans), h.words⟩
    exact (h.user hmode).trans (if_neg fun hboth => hmode (hcs ▸ hboth.1)).symm
  | userLoadsGs base hmode =>
    refine ⟨?_, h.mode, h.words⟩
    rw [if_neg fun hboth => hmode hboth.1, h.user hmode]
  | @leave r crossing rest left seg frame c g hmode hapart hoff hsaved hleave =>
    obtain ⟨hfs, hcs, hshut⟩ := h.words r crossing (by rw [hsaved]; exact List.mem_cons_self)
    have hlow : r.cs < 2 ^ 16 := by
      rcases hcs with hcs | hcs <;> rw [hcs] <;> decide
    rw [isrLeave_of_lt left seg frame s.gs hfs hlow] at hleave
    obtain ⟨rfl, rfl⟩ := Prod.mk.inj (Option.some.inj hleave)
    have hbases := (GsBases.cross_of_mode hcs).2 (h.kernel hmode (hapart ▸ hclosed))
    have hback : r.context.cs = r.cs := rfl
    refine ⟨?_, ?_, fun r' c' hr' => ?_⟩
    · dsimp only
      rw [hback, hbases]
      by_cases hkernel : r.cs = kernelCode
      · simp only [hkernel, if_true, hshut, not_false_eq_true, and_self]
      · simp only [hkernel, if_false, false_and]
    · rw [hback]
      exact hcs.imp_right fun hcs' => ⟨hcs', if_neg (hcs' ▸ huser)⟩
    · dsimp only at hr'
      split at hr'
      · exact h.words r' c' (by rw [hsaved]; exact List.mem_cons_of_mem _ hr')
      · exact absurd hr' List.not_mem_nil
  | syscall c hmode hcs hoff =>
    refine ⟨?_, Or.inl hcs, h.words⟩
    exact (h.user hmode).trans (if_neg fun hboth => hboth.2 hentered).symm
  | syscallSwap r hcrossing =>
    obtain ⟨hmode, hbases⟩ := h.crossing (hcrossing ▸ hentered)
    refine ⟨?_, Or.inl hmode, fun r' c' hr' => ?_⟩
    · rw [if_pos ⟨hmode, hclosed⟩, hbases]
      rfl
    · rcases List.mem_cons.mp hr' with hr' | hr'
      · exact SavedFrame.noConfusion hr'
      · exact h.words r' c' hr'
  | sysretSwap hmode hapart hsaved =>
    refine ⟨?_, Or.inl hmode, h.words⟩
    rw [if_neg fun hboth => hboth.2 hreturning, h.kernel hmode (hapart ▸ hclosed)]
    rfl
  | sysret c hcrossing hcs =>
    refine ⟨?_, Or.inr ⟨hcs, rfl⟩, fun r' c' hr' => absurd hr' List.not_mem_nil⟩
    rw [if_neg fun hboth => huser (hcs.symm.trans hboth.1), (h.crossing (hcrossing ▸ hreturning)).2]
  | switchFrame hmode hapart hsaved => exact ⟨h.bases, h.mode, hsaved.words h.words⟩
  | writeGs localInfo hmode hapart =>
    refine ⟨?_, Or.inl hmode, h.words⟩
    rw [if_pos ⟨hmode, hwritten⟩, h.kernel hmode (hapart ▸ hclosed)]
  | writeGsSwap hcrossing =>
    have hmode : s.context.cs = kernelCode := h.mode.resolve_right fun huser' => by
      rw [hcrossing] at huser'
      exact absurd huser'.2 (by decide)
    refine ⟨?_, Or.inl hmode, h.words⟩
    rw [if_neg fun hboth => hboth.2 hexchanged, h.kernel hmode (hcrossing ▸ hwritten)]
    rfl
  | contextSwitchSwap hcrossing =>
    obtain ⟨hmode, hbases⟩ := h.crossing (hcrossing ▸ hexchanged)
    refine ⟨?_, Or.inl hmode, h.words⟩
    rw [if_pos ⟨hmode, hclosed⟩, hbases]
    rfl
  | usermodeSwap hmode hapart =>
    refine ⟨?_, Or.inl hmode, h.words⟩
    rw [if_neg fun hboth => hboth.2 hleaving, h.kernel hmode (hapart ▸ hclosed)]
    rfl
  | switchToUsermode c hcrossing hcs =>
    refine ⟨?_, Or.inr ⟨hcs, rfl⟩, fun r' c' hr' => absurd hr' List.not_mem_nil⟩
    rw [if_neg fun hboth => huser (hcs.symm.trans hboth.1), (h.crossing (hcrossing ▸ hleaving)).2]

end Cthulhu
