import Cthulhu.Syscalls.EntryCode

/-!
# The registers of a system call

Every user stub hands its arguments to the handler in their order and returns its value. The error is another matter:
`do_sys_handler` puts it into the register that had the pointer for it, and the stub stores a leftover argument at the
address that the error is.
-/

namespace Cthulhu

/-- A stub of `syscall_templates.s`: the register cleared at its plain entry, the moves in front of `syscall`, and the
register that is tested behind it and holds the address of the store. -/
structure Stub where
  clear : Option Gpr
  moves : List (Gpr × Gpr)
  tested : Option Gpr

section Templates

open Gpr

def sys0argE : Stub := ⟨none, [(rax, rdi)], some rsi⟩

def sys0arg : Stub := { sys0argE with clear := some rsi }

def sys1argE : Stub := ⟨none, [(rax, rdi), (rdi, rsi)], some rdx⟩

def sys1arg : Stub := { sys1argE with clear := some rdx }

def sys2argE : Stub := ⟨none, [(rax, rdi), (rdi, rsi), (rsi, rdx)], some r8⟩

def sys2arg : Stub := { sys2argE with clear := some r8 }

def sys3argE : Stub := ⟨none, [(rax, rdi), (rdi, rsi), (rsi, rdx), (rdx, rcx)], some r8⟩

def sys3arg : Stub := { sys3argE with clear := some r8 }

def sys4argE : Stub := ⟨none, [(rax, rdi), (rdi, rsi), (rsi, rdx), (rdx, rcx), (r8, r8)], some r9⟩

def sys4arg : Stub := { sys4argE with clear := some r9 }

def sys5arg : Stub := ⟨none, [(rax, rdi), (rdi, rsi), (rsi, rdx), (rdx, rcx), (r8, r8), (r9, r9)], none⟩

/-- The registers that C passes arguments in. -/
def argumentRegisters : List Gpr := [rdi, rsi, rdx, rcx, r8, r9]

end Templates

/-- The stub for a number of arguments, with an error or without. -/
def Stub.of : Bool → ℕ → Stub
  | false, 0 => sys0arg
  | false, 1 => sys1arg
  | false, 2 => sys2arg
  | false, 3 => sys3arg
  | false, 4 => sys4arg
  | true, 0 => sys0argE
  | true, 1 => sys1argE
  | true, 2 => sys2argE
  | true, 3 => sys3argE
  | true, 4 => sys4argE
  | _, _ => sys5arg

/-- A register copied to another. -/
def Registers.copy (u : Registers) (move : Gpr × Gpr) : Registers := u.set move.1 (u.get move.2)

namespace Stub

/-- The code in front of `syscall`. -/
def code (t : Stub) : List Instr :=
  (t.clear.map Instr.clear).toList ++ t.moves.map (fun move => Instr.mov move.1 move.2) ++ [.push .rbx]

/-- The registers that the moves leave. -/
def moved (t : Stub) (u : Registers) : Registers :=
  t.moves.foldl Registers.copy ((t.clear.map fun r => u.set r 0).getD u)

end Stub

/-- Arguments put into the registers of a call in C. -/
def Registers.withArgs (u : Registers) (args : List ℕ) : Registers :=
  (argumentRegisters.zip args).foldl (fun u arg => u.set arg.1 arg.2) u

/-- A state of the user's code: its processor, its memory and the handlers called. -/
structure UserState where
  cpu : Processor
  memory : UserMemory
  calls : List Invocation

/-- `ret`. -/
def UserState.ret (s : UserState) : Option UserState :=
  match s.cpu.stack with
  | [] => none
  | address :: rest =>
    some { s with
      cpu := { s.cpu with regs := { s.cpu.regs with rip := address, rsp := add64 s.cpu.regs.rsp 8 }, stack := rest } }

/-- The test and the store behind a system call: `je .ret` jumps over the store. -/
def Stub.storeError (t : Stub) (s : UserState) : UserState :=
  match t.tested with
  | none => s
  | some r =>
    if s.cpu.regs.get r = 0 then s else { s with memory := s.memory.store (s.cpu.regs.get r) s.cpu.regs.rdi }

/-- A stub whose `syscall` is followed by the instruction at `here`. Code that the kernel returns to elsewhere, or with
another stack, is not the stub's. -/
def Stub.run (t : Stub) (k : EntryState) (here : ℕ) (s : UserState) : Option UserState :=
  (s.cpu.exec t.code).bind fun p =>
    (k.syscall { p.regs with rip := here } s.memory).bind fun back =>
      if back.1.rip = here ∧ back.1.rsp = p.regs.rsp then
        (Processor.exec { p with regs := back.1 } [.pop .rbx]).bind fun p =>
          (t.storeError ⟨p, back.2.1, s.calls ++ back.2.2⟩).ret
      else none

/-- A call of a stub: the number and the handler registered for it, the arguments, the pointer for the error where there
is one, and the caller. -/
structure StubCall where
  withError : Bool
  args : List ℕ
  arity : args.length ≤ if withError then 4 else 5
  num : ℕ
  num_lt : num < 4096
  handler : Handler
  err : ℕ
  err_ne : err ≠ 0
  user : Registers
  returnAddress : ℕ
  here : ℕ
  memory : UserMemory

namespace StubCall

variable (c : StubCall)

/-- The stub that is called. -/
def stub : Stub := Stub.of c.withError c.args.length

/-- The entry that is registered. The pointer for the error is an argument of the handler. -/
def entry : SyscallEntry := ⟨⟨c.withError, c.args.length + c.withError.toNat⟩, c.handler⟩

/-- The registers at the entry of the stub. -/
def registers : Registers :=
  { c.user with rsp := sub64 c.user.rsp 8 }.withArgs (c.num :: (c.args ++ if c.withError then [c.err] else []))

/-- The call, on a kernel with the handler registered. -/
def run (k : EntryState) : Option UserState :=
  c.stub.run { k with syscalls := registerSyscall k.syscalls c.num c.entry } c.here
    ⟨⟨c.registers, fun _ => userData, [c.returnAddress]⟩, c.memory, []⟩

/-- What a call promises: one call of the handler with the arguments, its value, the caller's registers, and the error
where it is asked for. -/
structure Keeps (s : UserState) (call : Invocation) : Prop where
  calls : s.calls = [call]
  args : call.args = c.args
  rip : s.cpu.regs.rip = c.returnAddress
  rax : s.cpu.regs.rax = call.answer.value
  rbx : s.cpu.regs.rbx = c.user.rbx
  rsp : s.cpu.regs.rsp = c.user.rsp % 2 ^ 64
  error : c.withError = true → s.memory = call.memory.store c.err call.answer.error

/-- The call returns and keeps what it promises. -/
def Right (k : EntryState) : Prop := ∃ s call, c.run k = some s ∧ c.Keeps s call

/-- The registers at the `syscall`. -/
def atSyscall : Registers :=
  { c.stub.moved c.registers with rsp := sub64 (c.stub.moved c.registers).rsp 8, rip := c.here }

/-- What the handler does with the arguments. -/
def invocation : Invocation :=
  let found := c.handler c.args (syscallFrame c.atSyscall) c.memory
  ⟨c.args, found.1, found.2⟩

end StubCall

/-- A store at the address that the error is, instead of the store of the error: without an error there is none, and the
word must be zero already; else the eight bytes stored must be those that are wanted where they come to lie, and the
rest of the word must have the error already. -/
def ErrorLands (m : UserMemory) (err error value : ℕ) : Prop :=
  if error = 0 then ∀ x, sub64 x err < 8 → m x = 0
  else ∀ x, (sub64 x error < 8 → value / 2 ^ (8 * sub64 x error) % 256 =
      if sub64 x err < 8 then error / 2 ^ (8 * sub64 x err) % 256 else m x) ∧
    (¬ sub64 x error < 8 → sub64 x err < 8 → m x = error / 2 ^ (8 * sub64 x err) % 256)

/-- The calls that keep their promise. -/
structure StubCall.Fortunate (c : StubCall) : Prop where
  number : c.num ≠ sysAllocCont
  rip : c.invocation.answer.frame.rip = c.here
  uesp : c.invocation.answer.frame.uesp = c.atSyscall.rsp
  error : c.withError = true →
    ErrorLands c.invocation.memory c.err c.invocation.answer.error c.invocation.answer.frame.rdi

section Code

/-- The code in front of a `syscall` moves the arguments and saves `rbx`. -/
theorem Stub.exec_code (t : Stub) (p : Processor) :
    p.exec t.code = some ({ p with regs := t.moved p.regs }.push (t.moved p.regs).rbx) := by
  have hmoves (moves : List (Gpr × Gpr)) (p : Processor) :
      p.exec (moves.map (fun move : Gpr × Gpr => Instr.mov move.1 move.2) ++ [Instr.push .rbx]) =
        some ({ p with regs := moves.foldl Registers.copy p.regs }.push (moves.foldl Registers.copy p.regs).rbx) := by
    induction moves generalizing p with
    | nil => rfl
    | cons move rest ih => exact ih { p with regs := p.regs.copy move }
  unfold Stub.code Stub.moved
  cases t.clear with
  | none => exact hmoves t.moves p
  | some r => exact hmoves t.moves { p with regs := p.regs.set r 0 }

/-- The arguments come to the registers that the kernel takes them from. -/
theorem Stub.moved_of (withError : Bool) (args : List ℕ) (harity : args.length ≤ if withError then 4 else 5)
    (num err : ℕ) (u : Registers) :
    let w := (Stub.of withError args.length).moved (u.withArgs (num :: (args ++ if withError then [err] else [])))
    w.rax = num ∧ w.rsp = u.rsp ∧ w.rbx = u.rbx ∧
      handlerArgs ⟨withError, args.length + withError.toNat⟩ w.rdi w.rsi w.rdx w.r8 w.r9 = some args := by
  cases withError with
  | false =>
    rcases args with _ | ⟨a, _ | ⟨b, _ | ⟨c, _ | ⟨d, _ | ⟨e, _ | ⟨f, rest⟩⟩⟩⟩⟩⟩
    case cons.cons.cons.cons.cons.cons =>
      simp only [List.length_cons, Bool.false_eq_true, if_false] at harity
      omega
    all_goals simp [Stub.of, Stub.moved, Registers.withArgs, Registers.copy, Registers.get, Registers.set, handlerArgs,
      argumentRegisters, sys0arg, sys0argE, sys1arg, sys1argE, sys2arg, sys2argE, sys3arg, sys3argE, sys4arg, sys4argE, sys5arg]
  | true =>
    rcases args with _ | ⟨a, _ | ⟨b, _ | ⟨c, _ | ⟨d, _ | ⟨e, rest⟩⟩⟩⟩⟩
    case cons.cons.cons.cons.cons =>
      simp only [List.length_cons, if_true] at harity
      omega
    all_goals simp [Stub.of, Stub.moved, Registers.withArgs, Registers.copy, Registers.get, Registers.set, handlerArgs,
      argumentRegisters, sys0argE, sys1argE, sys2argE, sys3argE, sys4argE]

/-- The register that is tested behind a call with an error has the error. -/
theorem Stub.tested_of {n : ℕ} (hn : n ≤ 4) {a : Answer} {r : Frame} {u : Registers}
    (hrsi : u.rsi = (doSysHandler ⟨true, n + 1⟩ (fun _ => a) r).rsi)
    (hrdx : u.rdx = (doSysHandler ⟨true, n + 1⟩ (fun _ => a) r).rdx)
    (hr8 : u.r8 = (doSysHandler ⟨true, n + 1⟩ (fun _ => a) r).r8)
    (hr9 : u.r9 = (doSysHandler ⟨true, n + 1⟩ (fun _ => a) r).r9) :
    ∃ reg, (Stub.of true n).tested = some reg ∧ u.get reg = a.error := by
  have hcases : n = 0 ∨ n = 1 ∨ n = 2 ∨ n = 3 ∨ n = 4 := by omega
  rcases hcases with rfl | rfl | rfl | rfl | rfl
  · exact ⟨.rsi, rfl, hrsi⟩
  · exact ⟨.rdx, rfl, hrdx⟩
  · exact ⟨.r8, rfl, hr8⟩
  · exact ⟨.r8, rfl, hr8⟩
  · exact ⟨.r9, rfl, hr9⟩

/-- What `do_sys_handler` leaves of the frame besides the error. -/
theorem doSysHandler_frame {sc : Syscall} {args : List ℕ} (a : Answer) {r : Frame} (hargs : passedArgs sc r = some args) :
    (doSysHandler sc (fun _ => a) r).rax = a.value ∧ (doSysHandler sc (fun _ => a) r).rip = a.frame.rip ∧
      (doSysHandler sc (fun _ => a) r).uesp = a.frame.uesp ∧ (doSysHandler sc (fun _ => a) r).rdi = a.frame.rdi := by
  obtain ⟨usesError, n⟩ := sc
  cases usesError with
  | true =>
    rcases n with _ | _ | _ | _ | _ | _ | n
    case zero => exact absurd hargs (Option.some_ne_none args).symm
    case succ.succ.succ.succ.succ.succ => exact absurd hargs (Option.some_ne_none args).symm
    all_goals exact ⟨rfl, rfl, rfl, rfl⟩
  | false =>
    have hle : n ≤ 5 := by
      rcases n with _ | _ | _ | _ | _ | _ | n
      case succ.succ.succ.succ.succ.succ => exact absurd hargs (Option.some_ne_none args).symm
      all_goals omega
    have hframe : doSysHandler ⟨false, n⟩ (fun _ => a) r = { a.frame with rax := a.value } := if_pos hle
    rw [hframe]
    exact ⟨rfl, rfl, rfl, rfl⟩

end Code

/-- What the stub leaves is what was wanted if the wrong store lands right. -/
theorem errorLands_iff (m : UserMemory) (err error value : ℕ) :
    (if error = 0 then m else m.store error value) = m.store err error ↔ ErrorLands m err error value := by
  unfold ErrorLands UserMemory.store
  by_cases hnone : error = 0
  · rw [if_pos hnone, if_pos hnone, hnone, funext_iff]
    apply forall_congr'
    intro x
    by_cases hin : sub64 x err < 8
    · simp [hin]
    · simp [hin]
  · rw [if_neg hnone, if_neg hnone, funext_iff]
    apply forall_congr'
    intro x
    by_cases hstored : sub64 x error < 8
    · simp [hstored]
    · by_cases hin : sub64 x err < 8
      · simp [hstored, hin]
      · simp [hstored, hin]

namespace StubCall

variable (c : StubCall) (k : EntryState)

/-- The registers that the arguments are in at the `syscall`, and what the stub has saved. -/
theorem atSyscall_spec : c.atSyscall.rax = c.num ∧ c.atSyscall.rsp = sub64 (sub64 c.user.rsp 8) 8 ∧
    (c.stub.moved c.registers).rbx = c.user.rbx ∧
    passedArgs c.entry.sc (syscallFrame c.atSyscall) = some c.args := by
  obtain ⟨hrax, hrsp, hrbx, hargs⟩ :=
    Stub.moved_of c.withError c.args c.arity c.num c.err { c.user with rsp := sub64 c.user.rsp 8 }
  refine ⟨hrax, ?_, hrbx, hargs⟩
  exact congrArg (fun rsp => sub64 rsp 8) hrsp

/-- The kernel has the handler at its number. -/
theorem registered : registerSyscall k.syscalls c.num c.entry c.num = some c.entry := by
  have hargs : ¬ (c.entry.sc.usesError ∧ c.entry.sc.args = 0) := by
    rintro ⟨huses, hnone⟩
    have hone : c.withError.toNat = 1 := by rw [show c.withError = true from huses]; rfl
    have hsum : c.args.length + c.withError.toNat = 0 := hnone
    omega
  unfold registerSyscall
  rw [if_neg hargs, Function.update_self]

/-- What the kernel does with the frame of the call. -/
theorem handleFrame_call : handleFrame (registerSyscall k.syscalls c.num c.entry) (syscallFrame c.atSyscall) c.memory =
    if c.num = sysAllocCont then ({ syscallFrame c.atSyscall with rax := CallState.einval }, c.memory, [])
    else (doSysHandler c.entry.sc (fun _ => c.invocation.answer) (syscallFrame c.atSyscall), c.invocation.memory,
      [c.invocation]) := by
  obtain ⟨hrax, -, -, hargs⟩ := c.atSyscall_spec
  have hnum : (syscallFrame c.atSyscall).rax = c.num := hrax
  have hlt := c.num_lt
  have hcall : c.entry.call (syscallFrame c.atSyscall) c.memory =
      (doSysHandler c.entry.sc (fun _ => c.invocation.answer) (syscallFrame c.atSyscall), c.invocation.memory,
        [c.invocation]) := by
    unfold SyscallEntry.call
    rw [hargs]
    rfl
  unfold handleFrame
  rw [hnum, if_neg (by omega), c.registered k]
  dsimp only
  rw [hcall]

/-- The user's registers between the `pop` and the `ret` of the stub. -/
def returned (f : Frame) : Registers := { syscallReturn f with rsp := add64 f.uesp 8, rbx := c.user.rbx }

/-- The state that the `ret` is executed in. -/
def beforeRet (f : Frame) (m : UserMemory) (calls : List Invocation) : UserState :=
  c.stub.storeError ⟨⟨c.returned f, fun _ => userData, [c.returnAddress]⟩, m, calls⟩

/-- The run of the stub, by what the kernel leaves. -/
theorem run_eq {f : Frame} {m : UserMemory} {calls : List Invocation}
    (hhandled : handleFrame (registerSyscall k.syscalls c.num c.entry) (syscallFrame c.atSyscall) c.memory = (f, m, calls)) :
    c.run k = if f.rip = c.here ∧ f.uesp = c.atSyscall.rsp then
      some { c.beforeRet f m calls with cpu := ⟨{ c.returned f with
        rsp := add64 (c.returned f).rsp 8, rip := c.returnAddress }, fun _ => userData, []⟩ }
    else none := by
  obtain ⟨-, -, hrbx, -⟩ := c.atSyscall_spec
  have hkernel := EntryState.syscall_eq { k with syscalls := registerSyscall k.syscalls c.num c.entry } c.atSyscall c.memory
  rw [hhandled] at hkernel
  unfold StubCall.run Stub.run
  rw [Stub.exec_code, Option.bind_some]
  change (EntryState.syscall _ c.atSyscall c.memory).bind _ = _
  rw [hkernel, Option.bind_some]
  change (if f.rip = c.here ∧ f.uesp = c.atSyscall.rsp then _ else _) = _
  by_cases hback : f.rip = c.here ∧ f.uesp = c.atSyscall.rsp
  · rw [if_pos hback, if_pos hback]
    dsimp only
    rw [hrbx]
    change (c.beforeRet f m calls).ret = _
    have hcpu : (c.beforeRet f m calls).cpu = ⟨c.returned f, fun _ => userData, [c.returnAddress]⟩ := by
      unfold beforeRet Stub.storeError
      split
      · rfl
      · split <;> rfl
    unfold UserState.ret
    rw [hcpu]
  · rw [if_neg hback, if_neg hback]

/-- The registers that the caller gets back. -/
theorem returned_keeps {f : Frame} (huesp : f.uesp = c.atSyscall.rsp) :
    add64 (c.returned f).rsp 8 = c.user.rsp % 2 ^ 64 := by
  have hrsp : (c.returned f).rsp = add64 (sub64 (sub64 c.user.rsp 8) 8) 8 := by
    rw [← c.atSyscall_spec.2.1, ← huesp]
    rfl
  rw [hrsp]
  unfold add64 sub64
  split_ifs <;> omega

/-- The memory behind a call with an error. -/
theorem beforeRet_memory (herror : c.withError = true) :
    (c.beforeRet (doSysHandler c.entry.sc (fun _ => c.invocation.answer) (syscallFrame c.atSyscall)) c.invocation.memory
      [c.invocation]).memory =
        if c.invocation.answer.error = 0 then c.invocation.memory
        else c.invocation.memory.store c.invocation.answer.error c.invocation.answer.frame.rdi := by
  obtain ⟨-, -, -, hargs⟩ := c.atSyscall_spec
  have hrdi := (doSysHandler_frame c.invocation.answer hargs).2.2.2
  have hsc : c.entry.sc = ⟨true, c.args.length + 1⟩ := by
    unfold entry
    rw [herror]
    rfl
  have hstub : c.stub = Stub.of true c.args.length := by
    unfold stub
    rw [herror]
  have hle : c.args.length ≤ 4 := by
    have hbound := c.arity
    rwa [herror, if_pos rfl] at hbound
  rw [hsc] at hrdi
  unfold beforeRet
  rw [hsc, hstub]
  obtain ⟨reg, htested, hvalue⟩ := Stub.tested_of hle (a := c.invocation.answer) (r := syscallFrame c.atSyscall)
    (u := c.returned (doSysHandler ⟨true, c.args.length + 1⟩ (fun _ => c.invocation.answer) (syscallFrame c.atSyscall)))
    rfl rfl rfl rfl
  unfold Stub.storeError
  rw [htested]
  dsimp only
  rw [hvalue]
  split
  · rfl
  · change c.invocation.memory.store _ (doSysHandler _ _ _).rdi = _
    rw [hrdi]

/-- The stub calls no handler itself. -/
theorem beforeRet_calls (f : Frame) (m : UserMemory) (calls : List Invocation) : (c.beforeRet f m calls).calls = calls := by
  unfold beforeRet Stub.storeError
  split
  · rfl
  · split <;> rfl

variable {c k}

/-- The number of the continuation is answered by the kernel itself. -/
theorem Right.number (hright : c.Right k) : c.num ≠ sysAllocCont := by
  intro hcont
  obtain ⟨s, call, hrun, hkeeps⟩ := hright
  have hhandled := c.handleFrame_call k
  rw [if_pos hcont] at hhandled
  rw [c.run_eq k hhandled] at hrun
  split at hrun
  · rw [Option.some.injEq] at hrun
    have hnone : s.calls = [] := by
      rw [← hrun]
      exact c.beforeRet_calls _ _ _
    rw [hkeeps.calls] at hnone
    exact absurd hnone (List.cons_ne_nil _ _)
  · exact absurd hrun (Option.some_ne_none s).symm

/-- A call that keeps its promise is fortunate. -/
theorem Right.fortunate (hright : c.Right k) : c.Fortunate := by
  have hnumber := hright.number
  obtain ⟨-, -, -, hargs⟩ := c.atSyscall_spec
  obtain ⟨-, hrip, huesp, -⟩ := doSysHandler_frame c.invocation.answer hargs
  have hhandled := c.handleFrame_call k
  rw [if_neg hnumber] at hhandled
  obtain ⟨s, call, hrun, hkeeps⟩ := hright
  rw [c.run_eq k hhandled] at hrun
  split at hrun
  · rename_i hback
    rw [Option.some.injEq] at hrun
    have hcall : call = c.invocation := by
      have hlog := hkeeps.calls
      rw [← hrun] at hlog
      exact (List.singleton_inj.mp ((c.beforeRet_calls _ _ _).symm.trans hlog)).symm
    refine ⟨hnumber, hrip.symm.trans hback.1, huesp.symm.trans hback.2, ?_⟩
    intro herror
    have hmemory := hkeeps.error herror
    rw [hcall, ← hrun] at hmemory
    exact (errorLands_iff _ _ _ _).mp ((c.beforeRet_memory herror).symm.trans hmemory)
  · exact absurd hrun (Option.some_ne_none s).symm

/-- A fortunate call keeps its promise. -/
theorem Fortunate.right (hfortunate : c.Fortunate) : c.Right k := by
  obtain ⟨-, -, -, hargs⟩ := c.atSyscall_spec
  obtain ⟨hrax, hrip, huesp, -⟩ := doSysHandler_frame c.invocation.answer hargs
  have hhandled := c.handleFrame_call k
  rw [if_neg hfortunate.number] at hhandled
  have hback := And.intro (hrip.trans hfortunate.rip) (huesp.trans hfortunate.uesp)
  have hrun := c.run_eq k hhandled
  rw [if_pos hback] at hrun
  refine ⟨_, c.invocation, hrun, c.beforeRet_calls _ _ _, rfl, rfl, hrax, rfl, c.returned_keeps hback.2, ?_⟩
  intro herror
  exact (c.beforeRet_memory herror).trans ((errorLands_iff _ _ _ _).mpr (hfortunate.error herror))

variable (c k)

/-- The user stubs keep their promise in exactly the fortunate cases. -/
theorem stubCall_iff : c.Right k ↔ c.Fortunate := ⟨Right.fortunate, Fortunate.right⟩

end StubCall

/-- A call of `sys_1arg_e` whose handler stores the error 22. -/
def failingCall : StubCall where
  withError := true
  args := [3]
  arity := by decide
  num := 20
  num_lt := by decide
  handler := fun _ r m => (⟨5, 22, r, false⟩, m)
  err := 0x7000
  err_ne := by decide
  user := switchToUsermode 0 0 0x8000 0 0 0
  returnAddress := 0x1000
  here := 0x2000
  memory := fun _ => 0

/-- The error does not reach the word that it was asked for in. -/
theorem failingCall_not_right : ¬ failingCall.Right ⟨fun _ => none, 0, switchToUsermode 0 0 0 0 0 0⟩ := by
  intro hright
  have hlands : ErrorLands (fun _ => 0) 0x7000 22 3 := hright.fortunate.error rfl
  exact absurd ((hlands 0x7000).2 (by decide) (by decide)) (by decide)

end Cthulhu
