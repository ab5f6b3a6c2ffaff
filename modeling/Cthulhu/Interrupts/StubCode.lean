import Cthulhu.Syscalls.EntryCode

/-!
# The way of an interrupt

The processor pushes five words and, for some vectors, an error code. A stub of `idt.s` makes up for the missing error
code and pushes the vector; `isr_common_stub` saves the other registers and calls `isr_handler`. Behind the call it
gives the registers of the frame back. The base of `gs` is exchanged on both ways where the other side is not the kernel.
The stack that an interrupt comes to is new to it, so the words of the interrupted one are left out.
-/

namespace Cthulhu

/-- `registers_t` with all of its fields. -/
structure IsrFrame extends Frame where
  fs : ℕ
  type : ℕ
  ecode : ℕ
  deriving DecidableEq, Repr

/-- Its words, lowest first. -/
def IsrFrame.words (r : IsrFrame) : List ℕ := frameWords r.toFrame r.fs r.type r.ecode

/-- The `registers_t` at the top of a stack. -/
def IsrFrame.ofWords : List ℕ → Option IsrFrame
  | r15 :: r14 :: r13 :: r12 :: r11 :: r10 :: r9 :: r8 :: rbp :: rcx :: rbx :: rdx :: rsi :: rdi :: es :: ds :: fs :: rax ::
      type :: ecode :: rip :: cs :: rflags :: uesp :: ss :: _ =>
    some { r15, r14, r13, r12, r11, r10, r9, r8, rbp, rcx, rbx, rdx, rsi, rdi, es, ds, rax, rip, cs, rflags, uesp, ss, fs, type, ecode }
  | _ => none

/-- The base of `gs`, and the one that `swapgs` exchanges it with. -/
structure GsBases where
  active : ℕ
  hidden : ℕ
  deriving DecidableEq, Repr

/-- `swapgs`. -/
def GsBases.swap (g : GsBases) : GsBases := ⟨g.hidden, g.active⟩

/-- What an interrupt finds and what it gives back. -/
structure Context where
  regs : Registers
  seg : Segment → ℕ
  cs : ℕ

/-- The instructions of `idt.s`. -/
inductive IsrInstr where
  | plain (i : Instr)
  /-- `mov rax, [rsp + 8 * n]` -/
  | loadWord (n : ℕ)
  /-- `mov ax, [rsp + 8 * n]` -/
  | loadLow (n : ℕ)
  /-- `cmp rax, value`, `je` over the `swapgs` that follows -/
  | swapgsUnless (value : ℕ)

/-- A processor with the bases of `gs`. -/
structure IsrMachine where
  proc : Processor
  gs : GsBases

namespace IsrMachine

/-- One instruction. -/
def step (m : IsrMachine) : IsrInstr → Option IsrMachine
  | .plain i => (m.proc.step i).map fun p => ⟨p, m.gs⟩
  | .loadWord n => m.proc.stack[n]?.map fun w => ⟨{ m.proc with regs := m.proc.regs.set .rax w }, m.gs⟩
  | .loadLow n => m.proc.stack[n]?.map fun w =>
    ⟨{ m.proc with regs := m.proc.regs.set .rax (2 ^ 16 * (m.proc.regs.rax / 2 ^ 16) + w % 2 ^ 16) }, m.gs⟩
  | .swapgsUnless value => some (if m.proc.regs.rax = value then m else ⟨m.proc, m.gs.swap⟩)

/-- Instructions one after the other. -/
def exec (m : IsrMachine) : List IsrInstr → Option IsrMachine
  | [] => some m
  | i :: rest => (m.step i).bind fun m => m.exec rest

end IsrMachine

/-- The vectors for which the processor pushes an error code. -/
def PushesErrorCode (vector : ℕ) : Prop := vector = 8 ∨ 10 ≤ vector ∧ vector ≤ 14 ∨ vector = 17 ∨ vector = 30

instance (vector : ℕ) : Decidable (PushesErrorCode vector) := inferInstanceAs (Decidable (_ ∨ _ ∧ _ ∨ _ ∨ _))

/-- The stubs that are made with `ISR_ERRCODE`. -/
def isrErrcode : List ℕ := [8, 10, 11, 12, 13, 14, 17, 30]

/-- The stub of a vector. -/
def isrStub (vector : ℕ) : List IsrInstr :=
  if vector ∈ isrErrcode then [.plain (.pushImm vector)] else [.plain (.pushImm 0), .plain (.pushImm vector)]

open Gpr Segment Instr in
/-- `isr_common_stub` from `.skip` to the call of `isr_handler`. -/
def isrSave : List Instr :=
  [clear rax, movFrom fs, push rax, clear rax, movFrom es, push rax, clear rax, movFrom ds, push rax,
    movImm rax 0x10, movTo fs, movTo ds, movTo ss, movTo es,
    push rdi, push rsi, push rdx, push rbx, push rcx, push rbp, push r8, push r9, push r10, push r11, push r12, push r13,
    push r14, push r15,
    mov rdi rsp, mov rbx rsp, alignStack]

/-- `isr_common_stub` up to the call. -/
def isrEntry : List IsrInstr :=
  [.plain (.push .rax), .plain (.clear .rax), .loadWord 4, .swapgsUnless 8] ++ isrSave.map .plain

open Gpr Segment Instr in
/-- `isr_common_stub` from the return of `isr_handler` to the test of the code segment. -/
def isrRestore : List Instr :=
  [mov rsp rbx,
    pop r15, pop r14, pop r13, pop r12, pop r11, pop r10, pop r9, pop r8, pop rbp, pop rcx, pop rbx, pop rdx, pop rsi, pop rdi,
    pop rax, movTo ds, pop rax, movTo es, pop rax, movTo fs]

/-- `isr_common_stub` from the return to the `iretq`. -/
def isrExit : List IsrInstr :=
  isrRestore.map .plain ++ [.loadLow 4, .swapgsUnless 8, .plain (.pop .rax), .plain (.drop 2)]

/-- What the processor pushes. -/
def pushedWords (c : Context) (vector ecode : ℕ) : List ℕ :=
  (if PushesErrorCode vector then [ecode] else []) ++ [c.regs.rip, c.cs, c.regs.rflags, c.regs.rsp, c.seg .ss]

/-- An interrupt, up to the call of `isr_handler`, with the stack whose top it comes to. -/
def isrEnter (c : Context) (gs : GsBases) (vector ecode top : ℕ) : Option IsrMachine :=
  let words := pushedWords c vector ecode
  IsrMachine.exec ⟨⟨{ c.regs with rsp := sub64 top (8 * words.length) }, c.seg, words⟩, gs⟩ (isrStub vector ++ isrEntry)

/-- `iretq`. -/
def iretq (p : Processor) : Option Context :=
  match p.stack with
  | rip :: cs :: rflags :: rsp :: ss :: _ => some ⟨{ p.regs with rip, rflags, rsp }, Function.update p.seg .ss ss, cs⟩
  | _ => none

/-- From the return of `isr_handler` on, which has kept `rbx` and left anything in the registers that it need not keep. -/
def isrLeave (left : Registers) (seg : Segment → ℕ) (frame : ℕ) (r : IsrFrame) (gs : GsBases) : Option (Context × GsBases) :=
  (IsrMachine.exec ⟨⟨{ left with rbx := frame }, seg, r.words⟩, gs⟩ isrExit).bind fun m =>
    (iretq m.proc).map fun c => (c, m.gs)

/-- What the end of an interrupt makes of a frame. -/
def IsrFrame.context (r : IsrFrame) : Context where
  regs := ⟨r.rip, r.uesp, r.rax, r.rbx, r.rcx, r.rdx, r.rsi, r.rdi, r.rbp, r.r8, r.r9, r.r10, r.r11, r.r12, r.r13, r.r14, r.r15,
    r.rflags⟩
  seg
    | .fs => r.fs % 2 ^ 16
    | .es => r.ds % 2 ^ 16
    | .ds => r.es % 2 ^ 16
    | .ss => r.ss
  cs := r.cs

/-- The bases of `gs` across the boundary of the kernel. -/
def GsBases.cross (g : GsBases) (cs : ℕ) : GsBases := if cs = 8 then g else g.swap

/-- Instructions one after the other, in two parts. -/
theorem IsrMachine.exec_append (m : IsrMachine) (first second : List IsrInstr) :
    m.exec (first ++ second) = (m.exec first).bind fun m => m.exec second := by
  induction first generalizing m with
  | nil => rfl
  | cons i rest ih =>
    change (m.step i).bind (fun m => m.exec (rest ++ second)) = ((m.step i).bind fun m => m.exec rest).bind _
    rw [Option.bind_assoc]
    congr 1
    funext m
    exact ih m

/-- Instructions that leave `gs` alone. -/
theorem IsrMachine.exec_plain (m : IsrMachine) (code : List Instr) :
    m.exec (code.map .plain) = (m.proc.exec code).map fun p => ⟨p, m.gs⟩ := by
  induction code generalizing m with
  | nil => rfl
  | cons i rest ih =>
    change ((m.proc.step i).map fun p => (⟨p, m.gs⟩ : IsrMachine)).bind (fun m => m.exec (rest.map .plain)) =
      ((m.proc.step i).bind fun p => p.exec rest).map _
    cases m.proc.step i with
    | none => rfl
    | some p => exact ih ⟨p, m.gs⟩

/-- The registers of a frame are popped, up to the words that `iretq` needs and those between. -/
theorem isrRestore_exec (left : Registers) (seg : Segment → ℕ) (frame : ℕ) (r : IsrFrame) :
    ∃ sp, Processor.exec ⟨{ left with rbx := frame }, seg, r.words⟩ isrRestore =
      some ⟨⟨left.rip, sp, r.fs, r.rbx, r.rcx, r.rdx, r.rsi, r.rdi, r.rbp, r.r8, r.r9, r.r10, r.r11, r.r12, r.r13, r.r14, r.r15,
          left.rflags⟩,
        Function.update (Function.update (Function.update seg .ds (r.es % 2 ^ 16)) .es (r.ds % 2 ^ 16)) .fs (r.fs % 2 ^ 16),
        [r.rax, r.type, r.ecode, r.rip, r.cs, r.rflags, r.uesp, r.ss]⟩ := by
  apply Exists.intro
  simp only [isrRestore, IsrFrame.words, frameWords, Processor.exec, Processor.step, Registers.get, Registers.set,
    Option.bind_some]
  rfl

/-- The test of the code segment, whose bits above 15 are those that `rax` had. -/
theorem isrReturn_exec (u : Registers) (seg : Segment → ℕ) (gs : GsBases) (rax type ecode rip cs : ℕ) (rest : List ℕ) :
    IsrMachine.exec ⟨⟨u, seg, rax :: type :: ecode :: rip :: cs :: rest⟩, gs⟩
        [.loadLow 4, .swapgsUnless 8, .plain (.pop .rax), .plain (.drop 2)] =
      some ⟨⟨{ u with rax := rax, rsp := add64 (add64 u.rsp 8) 16 }, seg, rip :: cs :: rest⟩,
        gs.cross (2 ^ 16 * (u.rax / 2 ^ 16) + cs % 2 ^ 16)⟩ := by
  unfold GsBases.cross
  by_cases hkernel : 2 ^ 16 * (u.rax / 2 ^ 16) + cs % 2 ^ 16 = 8
  · rw [if_pos hkernel]
    simp only [IsrMachine.exec, IsrMachine.step, Processor.step, Registers.set, List.getElem?_cons_succ, List.getElem?_cons_zero,
      Option.map_some, Option.bind_some, if_pos hkernel, List.length_cons]
    rfl
  · rw [if_neg hkernel]
    simp only [IsrMachine.exec, IsrMachine.step, Processor.step, Registers.set, List.getElem?_cons_succ, List.getElem?_cons_zero,
      Option.map_some, Option.bind_some, if_neg hkernel, List.length_cons]
    rfl

/-- The end of an interrupt takes everything from the frame, and `gs` crosses by the low bits of its code segment. -/
theorem isrLeave_eq (left : Registers) (seg : Segment → ℕ) (frame : ℕ) (r : IsrFrame) (gs : GsBases) :
    isrLeave left seg frame r gs = some (r.context, gs.cross (2 ^ 16 * (r.fs / 2 ^ 16) + r.cs % 2 ^ 16)) := by
  obtain ⟨sp, hrestore⟩ := isrRestore_exec left seg frame r
  have hseg : Function.update (Function.update (Function.update (Function.update seg .ds (r.es % 2 ^ 16)) .es (r.ds % 2 ^ 16))
      .fs (r.fs % 2 ^ 16)) .ss r.ss = r.context.seg := by
    funext s
    cases s <;> rfl
  unfold isrLeave isrExit
  rw [IsrMachine.exec_append, IsrMachine.exec_plain, hrestore, Option.map_some, Option.bind_some]
  rw [isrReturn_exec, Option.bind_some]
  unfold iretq
  dsimp only
  rw [hseg]
  rfl

/-- The code of a frame whose segment words are words of a segment register. -/
theorem isrLeave_of_lt (left : Registers) (seg : Segment → ℕ) (frame : ℕ) {r : IsrFrame} (gs : GsBases) (hfs : r.fs < 2 ^ 16)
    (hcs : r.cs < 2 ^ 16) : isrLeave left seg frame r gs = some (r.context, gs.cross r.cs) := by
  rw [isrLeave_eq, Nat.div_eq_of_lt hfs, Nat.mod_eq_of_lt hcs, Nat.mul_zero, Nat.zero_add]

/-- A whole interrupt: what `isr_handler` does with the frame and with the bases of `gs`, between the code of the stub. -/
def interrupt (isrHandler : IsrFrame → GsBases → IsrFrame × GsBases) (left : Registers) (c : Context) (gs : GsBases)
    (vector ecode top : ℕ) : Option (Context × GsBases) :=
  (isrEnter c gs vector ecode top).bind fun m => (IsrFrame.ofWords m.proc.stack).bind fun r =>
    isrLeave left m.proc.seg m.proc.regs.rbx (isrHandler r m.gs).1 (isrHandler r m.gs).2

end Cthulhu
