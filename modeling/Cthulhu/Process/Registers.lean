import Mathlib.Data.Nat.Basic
import Cthulhu.Lib.Literals

/-!
# Register frames

The user register file of a thread, the frame `registers_t` that an interrupt or a system
call leaves on the kernel stack, and the routines that move one into the other. Segment
selectors are kept where the scheduler reads or writes them.
-/

namespace Cthulhu

/-- The registers a thread sees in user mode, the `last_*` fields of `thread_t`. -/
structure Registers where
  rip : ℕ
  rsp : ℕ
  rax : ℕ
  rbx : ℕ
  rcx : ℕ
  rdx : ℕ
  rsi : ℕ
  rdi : ℕ
  rbp : ℕ
  r8 : ℕ
  r9 : ℕ
  r10 : ℕ
  r11 : ℕ
  r12 : ℕ
  r13 : ℕ
  r14 : ℕ
  r15 : ℕ
  rflags : ℕ
  deriving DecidableEq, Repr

/-- `registers_t`. -/
structure Frame where
  r15 : ℕ
  r14 : ℕ
  r13 : ℕ
  r12 : ℕ
  r11 : ℕ
  r10 : ℕ
  r9 : ℕ
  r8 : ℕ
  rbp : ℕ
  rcx : ℕ
  rbx : ℕ
  rdx : ℕ
  rsi : ℕ
  rdi : ℕ
  es : ℕ
  ds : ℕ
  rax : ℕ
  rip : ℕ
  cs : ℕ
  rflags : ℕ
  uesp : ℕ
  ss : ℕ
  deriving DecidableEq, Repr

/-- The kernel's code selector. -/
def kernelCode : ℕ := 8

/-- The user code selector `40 | 3` of an interrupted or resumed thread. -/
def userCode : ℕ := 43

/-- The user data selector `32 | 3`. -/
def userData : ℕ := 35

/-- The code selector `24 | 3` that `syscall_enter` pushes. -/
def syscallCode : ℕ := 27

/-- `copy_registers`: the registers of a frame, as they go to the thread. -/
def copyRegisters (r : Frame) : Registers where
  rip := r.rip
  rsp := r.uesp
  rax := r.rax
  rcx := r.rcx
  rdx := r.rdx
  rdi := r.rdi
  rsi := r.rsi
  r8 := r.r8
  r9 := r.r9
  r10 := r.r10
  r11 := r.r11
  rbp := r.rbp
  rbx := r.rbx
  r12 := r.r12
  r13 := r.r13
  r14 := r.r14
  r15 := r.r15
  rflags := r.rflags

/-- `registers_copy`: a frame with the registers of a thread. -/
def registersCopy (last : Registers) (r : Frame) : Frame :=
  { r with
    rip := last.rip
    uesp := last.rsp
    rbp := last.rbp
    rax := last.rax
    rbx := last.rbx
    rcx := last.rcx
    rdx := last.rdx
    rsi := last.rsi
    rdi := last.rdi
    r8 := last.r8
    r9 := last.r9
    r10 := last.r10
    r11 := last.r11
    r12 := last.r12
    r13 := last.r13
    r14 := last.r14
    r15 := last.r15
    rflags := last.rflags }

/-- What `isr_common_stub` pushes when user code is interrupted. -/
def interruptFrame (u : Registers) : Frame where
  r15 := u.r15
  r14 := u.r14
  r13 := u.r13
  r12 := u.r12
  r11 := u.r11
  r10 := u.r10
  r9 := u.r9
  r8 := u.r8
  rbp := u.rbp
  rcx := u.rcx
  rbx := u.rbx
  rdx := u.rdx
  rsi := u.rsi
  rdi := u.rdi
  es := userData
  ds := userData
  rax := u.rax
  rip := u.rip
  cs := userCode
  rflags := u.rflags
  uesp := u.rsp
  ss := userData

/-- What the stub's `iretq` gives back to user code. -/
def interruptReturn (r : Frame) : Registers := copyRegisters r

/-- What `syscall_enter` pushes: `rcx` and `r11` hold the return address and the flags, and
`rbx` has been used to keep the stack pointer. -/
def syscallFrame (u : Registers) : Frame :=
  { interruptFrame u with
    rbx := 0
    rcx := 0
    r11 := 0
    cs := syscallCode }

/-- What the end of `syscall_enter` gives back to user code. -/
def syscallReturn (r : Frame) : Registers :=
  { copyRegisters r with
    rcx := r.rip
    r11 := r.rflags
    rbx := r.uesp }

/-- `switch_to_usermode`. -/
def switchToUsermode (rdi rip rsp flags rsi rdx : ℕ) : Registers where
  rip := rip
  rsp := rsp
  rax := 0
  rbx := 0
  rcx := 0
  rdx := rdx
  rsi := rsi
  rdi := rdi
  rbp := 0
  r8 := rsi
  r9 := rdx
  r10 := 0
  r11 := 0
  r12 := 0
  r13 := 0
  r14 := 0
  r15 := 0
  rflags := flags

/-- `syscall_t`, without the function it points to. -/
structure Syscall where
  usesError : Bool
  args : ℕ
  deriving DecidableEq, Repr

/-- What the function of a system call leaves: its value, its error, the frame, and whether it
is to be continued. -/
structure Answer where
  value : ℕ
  error : ℕ
  frame : Frame
  present : Bool

/-- `do_sys_handler`: where the value and the error of the call go. -/
def doSysHandler (sc : Syscall) (answer : Frame → Answer) (r : Frame) : Frame :=
  let a := answer r
  if sc.usesError then
    match sc.args with
    | 1 => { a.frame with rax := a.value, rsi := a.error }
    | 2 => { a.frame with rax := a.value, rdx := a.error }
    | 3 => { a.frame with rax := a.value, r8 := a.error }
    | 4 => { a.frame with rax := a.value, r8 := a.error }
    | 5 => { a.frame with rax := a.value, r9 := a.error }
    | _ => r
  else if sc.args ≤ 5 then { a.frame with rax := a.value } else r

/-- Saving what was restored gives the thread's registers back. -/
@[simp] theorem copyRegisters_registersCopy (last : Registers) (r : Frame) :
    copyRegisters (registersCopy last r) = last := rfl

/-- Saving an interrupted thread keeps its registers. -/
@[simp] theorem copyRegisters_interruptFrame (u : Registers) : copyRegisters (interruptFrame u) = u := rfl

end Cthulhu
