import Cthulhu.Syscalls.Continuation

/-!
# The way of a system call

A user stub moves its arguments to the registers of the kernel and executes `syscall`; `syscall_enter` pushes them as
a `registers_t`; `do_sys_handler` takes them from there. Registers and stacks are those of the instructions: a stack
is the list of the words that were pushed on it since the stack pointer was set, so user code and the kernel have
different ones. The other memory of the user is a function of bytes.
-/

namespace Cthulhu

/-- The general registers. -/
inductive Gpr where
  | rax | rbx | rcx | rdx | rsi | rdi | rsp | rbp | r8 | r9 | r10 | r11 | r12 | r13 | r14 | r15
  deriving DecidableEq

namespace Registers

/-- The value of a register. -/
def get (u : Registers) : Gpr → ℕ
  | .rax => u.rax
  | .rbx => u.rbx
  | .rcx => u.rcx
  | .rdx => u.rdx
  | .rsi => u.rsi
  | .rdi => u.rdi
  | .rsp => u.rsp
  | .rbp => u.rbp
  | .r8 => u.r8
  | .r9 => u.r9
  | .r10 => u.r10
  | .r11 => u.r11
  | .r12 => u.r12
  | .r13 => u.r13
  | .r14 => u.r14
  | .r15 => u.r15

/-- A register written. -/
def set (u : Registers) (r : Gpr) (value : ℕ) : Registers :=
  match r with
  | .rax => { u with rax := value }
  | .rbx => { u with rbx := value }
  | .rcx => { u with rcx := value }
  | .rdx => { u with rdx := value }
  | .rsi => { u with rsi := value }
  | .rdi => { u with rdi := value }
  | .rsp => { u with rsp := value }
  | .rbp => { u with rbp := value }
  | .r8 => { u with r8 := value }
  | .r9 => { u with r9 := value }
  | .r10 => { u with r10 := value }
  | .r11 => { u with r11 := value }
  | .r12 => { u with r12 := value }
  | .r13 => { u with r13 := value }
  | .r14 => { u with r14 := value }
  | .r15 => { u with r15 := value }

end Registers

/-- The segment registers that the entry code saves. -/
inductive Segment where
  | fs | es | ds | ss
  deriving DecidableEq

/-- The instructions of the stubs and of the entry code that only move words. -/
inductive Instr where
  | mov (dst src : Gpr)
  | movImm (dst : Gpr) (value : ℕ)
  /-- `xor r, r` -/
  | clear (r : Gpr)
  | push (src : Gpr)
  | pushImm (value : ℕ)
  | pop (dst : Gpr)
  /-- `add rsp, 8 * words` -/
  | drop (words : ℕ)
  /-- `and rsp, ~15` -/
  | alignStack
  /-- `mov rsp, [gs:8]` -/
  | loadStack (top : ℕ)
  /-- `mov ax, s` -/
  | movFrom (s : Segment)
  /-- `mov s, ax` -/
  | movTo (s : Segment)

/-- The registers and the words on the stack. -/
structure Processor where
  regs : Registers
  seg : Segment → ℕ
  stack : List ℕ

namespace Processor

/-- A word pushed. -/
def push (p : Processor) (value : ℕ) : Processor :=
  { p with regs := { p.regs with rsp := sub64 p.regs.rsp 8 }, stack := value :: p.stack }

/-- One instruction. -/
def step (p : Processor) : Instr → Option Processor
  | .mov dst src => some { p with regs := p.regs.set dst (p.regs.get src) }
  | .movImm dst value => some { p with regs := p.regs.set dst value }
  | .clear r => some { p with regs := p.regs.set r 0 }
  | .push src => some (p.push (p.regs.get src))
  | .pushImm value => some (p.push value)
  | .pop dst =>
    match p.stack with
    | [] => none
    | value :: rest =>
      some { p with regs := { p.regs with rsp := add64 p.regs.rsp 8 }.set dst value, stack := rest }
  | .drop words =>
    if words ≤ p.stack.length then
      some { p with regs := { p.regs with rsp := add64 p.regs.rsp (8 * words) }, stack := p.stack.drop words }
    else none
  | .alignStack => some { p with regs := { p.regs with rsp := 16 * (p.regs.rsp / 16) } }
  | .loadStack top => some { p with regs := { p.regs with rsp := top }, stack := [] }
  | .movFrom s => some { p with regs := { p.regs with rax := 2 ^ 16 * (p.regs.rax / 2 ^ 16) + p.seg s % 2 ^ 16 } }
  | .movTo s => some { p with seg := Function.update p.seg s (p.regs.rax % 2 ^ 16) }

/-- Instructions one after the other. -/
def exec (p : Processor) : List Instr → Option Processor
  | [] => some p
  | i :: rest => (p.step i).bind fun p => p.exec rest

end Processor

open Gpr Segment Instr in
/-- `syscall_enter` up to the call of `sys_handler`. -/
def entryCode (top : ℕ) : List Instr :=
  [mov rbx rsp, loadStack top,
    pushImm userData, push rbx, clear rbx, push r11, clear r11, pushImm syscallCode, push rcx, clear rcx,
    pushImm 0, push rax,
    push rax, clear rax, clear rax, movFrom fs, push rax, clear rax, movFrom es, push rax, clear rax, movFrom ds, push rax,
    movImm rax 0x10, movTo fs, movTo ds, movTo ss, movTo es,
    push rdi, push rsi, push rdx, push rbx, push rcx, push rbp, push r8, push r9, push r10, push r11, push r12, push r13,
    push r14, push r15,
    mov rbx rsp, mov rdi rsp, alignStack]

open Gpr Segment Instr in
/-- `syscall_enter` from there to the `sysret`. -/
def exitCode : List Instr :=
  [mov rsp rbx,
    pop r15, pop r14, pop r13, pop r12, pop r11, pop r10, pop r9, pop r8, pop rbp, pop rcx, pop rbx, pop rdx, pop rsi, pop rdi,
    pop rax, movTo ds, pop rax, movTo es, pop rax, movTo fs, pop rax, drop 2,
    pop rcx, drop 1, pop r11, pop rbx, drop 1,
    mov rsp rbx]

/-- The bytes of the user's memory. -/
abbrev UserMemory : Type := ℕ → ℕ

/-- A word of eight bytes stored in it. -/
def UserMemory.store (m : UserMemory) (addr value : ℕ) : UserMemory := fun x =>
  if sub64 x addr < 8 then value / 2 ^ (8 * sub64 x addr) % 256 else m x

/-- The function of a system call: its arguments, the frame and the memory it finds, its answer and the memory it leaves. -/
abbrev Handler : Type := List ℕ → Frame → UserMemory → Answer × UserMemory

/-- An entry of `syscalls` that is present. -/
structure SyscallEntry where
  sc : Syscall
  handler : Handler

/-- One call of a handler. -/
structure Invocation where
  args : List ℕ
  answer : Answer
  memory : UserMemory

/-- `register_syscall`. -/
def registerSyscall (syscalls : ℕ → Option SyscallEntry) (syscallId : ℕ) (e : SyscallEntry) : ℕ → Option SyscallEntry :=
  if e.sc.usesError ∧ e.sc.args = 0 then syscalls else Function.update syscalls syscallId (some e)

/-- `do_sys_handler`, with the handler it calls. -/
def SyscallEntry.call (e : SyscallEntry) (r : Frame) (m : UserMemory) : Frame × UserMemory × List Invocation :=
  match passedArgs e.sc r with
  | none => (r, m, [])
  | some args =>
    let found := e.handler args r m
    (doSysHandler e.sc (fun _ => found.1) r, found.2, [⟨args, found.1, found.2⟩])

/-- `sys_handler`, without the continuation that it records. -/
def handleFrame (syscalls : ℕ → Option SyscallEntry) (r : Frame) (m : UserMemory) : Frame × UserMemory × List Invocation :=
  if r.rax ≥ 4096 then ({ r with rdi := 2 ^ 64 - 1 }, m, [])
  else
    match syscalls r.rax with
    | none => ({ r with rdi := 2 ^ 64 - 1 }, m, [])
    | some e => if r.rax = sysAllocCont then ({ r with rax := CallState.einval }, m, []) else e.call r m

/-- A function of the `registers_t` that lies at the top of the kernel stack. -/
def onFrame {β : Type} (f : Frame → Frame × β) : List ℕ → Option (List ℕ × β)
  | r15 :: r14 :: r13 :: r12 :: r11 :: r10 :: r9 :: r8 :: rbp :: rcx :: rbx :: rdx :: rsi :: rdi :: es :: ds :: fs :: rax ::
      type :: ecode :: rip :: cs :: rflags :: uesp :: ss :: rest =>
    let r := f
      { r15, r14, r13, r12, r11, r10, r9, r8, rbp, rcx, rbx, rdx, rsi, rdi, es, ds, rax, rip, cs, rflags, uesp, ss }
    some (r.1.r15 :: r.1.r14 :: r.1.r13 :: r.1.r12 :: r.1.r11 :: r.1.r10 :: r.1.r9 :: r.1.r8 :: r.1.rbp :: r.1.rcx :: r.1.rbx ::
      r.1.rdx :: r.1.rsi :: r.1.rdi :: r.1.es :: r.1.ds :: fs :: r.1.rax :: type :: ecode :: r.1.rip :: r.1.cs :: r.1.rflags ::
      r.1.uesp :: r.1.ss :: rest, r.2)
  | _ => none

/-- What a system call meets in the kernel: the table, the stack of the processor, and what the compiled `sys_handler`
leaves in the registers that it need not keep. -/
structure EntryState where
  syscalls : ℕ → Option SyscallEntry
  stackTop : ℕ
  left : Registers

/-- The instruction `syscall`, from the registers behind it to those that `sysret` gives back. -/
def EntryState.syscall (k : EntryState) (u : Registers) (m : UserMemory) :
    Option (Registers × UserMemory × List Invocation) :=
  (Processor.exec ⟨{ u with rcx := u.rip, r11 := u.rflags }, fun _ => userData, []⟩ (entryCode k.stackTop)).bind fun p =>
    (onFrame (fun r => handleFrame k.syscalls r m) p.stack).bind fun handled =>
      (Processor.exec ⟨{ k.left with rbx := p.regs.rbx }, p.seg, handled.1⟩ exitCode).map fun p =>
        ({ p.regs with rip := p.regs.rcx, rflags := p.regs.r11 }, handled.2)

/-- The words that the entry code leaves on the kernel stack. -/
def frameWords (r : Frame) (fsWord type ecode : ℕ) : List ℕ :=
  [r.r15, r.r14, r.r13, r.r12, r.r11, r.r10, r.r9, r.r8, r.rbp, r.rcx, r.rbx, r.rdx, r.rsi, r.rdi, r.es, r.ds, fsWord, r.rax,
    type, ecode, r.rip, r.cs, r.rflags, r.uesp, r.ss]

/-- The entry code leaves the frame of the user's registers at the top of the kernel stack. -/
theorem entryCode_stack (u : Registers) (top : ℕ) :
    (Processor.exec ⟨{ u with rcx := u.rip, r11 := u.rflags }, fun _ => userData, []⟩ (entryCode top)).map Processor.stack =
      some (frameWords (syscallFrame u) userData u.rax 0) := by
  simp only [entryCode, Processor.exec, Processor.step, Processor.push, Registers.get, Registers.set, Option.bind_some,
    Option.map_some]
  rfl

/-- The exit code gives back the registers of the frame that it finds there. -/
theorem exitCode_regs (regs : Registers) (seg : Segment → ℕ) (r : Frame) (fsWord type ecode : ℕ) :
    (Processor.exec ⟨regs, seg, frameWords r fsWord type ecode⟩ exitCode).map
      (fun p => { p.regs with rip := p.regs.rcx, rflags := p.regs.r11 }) = some (syscallReturn r) := by
  simp only [exitCode, frameWords, Processor.exec, Processor.step, Registers.get, Registers.set, Option.bind_some, List.length,
    Nat.reduceAdd, Nat.reduceLeDiff, if_true, List.drop, Option.map_some]
  rfl

/-- The entry code gives the handler the frame of the user's registers, and the exit code gives back what the handler leaves. -/
theorem EntryState.syscall_eq (k : EntryState) (u : Registers) (m : UserMemory) :
    k.syscall u m = some (syscallReturn (handleFrame k.syscalls (syscallFrame u) m).1,
      (handleFrame k.syscalls (syscallFrame u) m).2) := by
  obtain ⟨p, hentry, hstack⟩ := Option.map_eq_some_iff.mp (entryCode_stack u k.stackTop)
  have hframe : onFrame (fun r => handleFrame k.syscalls r m) p.stack =
      some (frameWords (handleFrame k.syscalls (syscallFrame u) m).1 userData u.rax 0,
        (handleFrame k.syscalls (syscallFrame u) m).2) := by
    rw [hstack]
    rfl
  obtain ⟨p', hexit, hregs⟩ := Option.map_eq_some_iff.mp
    (exitCode_regs { k.left with rbx := p.regs.rbx } p.seg (handleFrame k.syscalls (syscallFrame u) m).1 userData u.rax 0)
  unfold EntryState.syscall
  rw [hentry, Option.bind_some, hframe, Option.bind_some, hexit, Option.map_some, hregs]

end Cthulhu
