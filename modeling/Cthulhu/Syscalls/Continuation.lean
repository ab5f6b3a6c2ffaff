import Cthulhu.Process.Registers
import Cthulhu.Process.RoundTrip

/-!
# Continuations of system calls

A system call that cannot finish sets `present` in the continuation of its thread, and
`context_switch` calls `do_sys_handler` again when it next switches to the thread. The arguments
travel through three places: the user's registers, the fields `_0` to `_4` that `sys_handler` and
the handlers write, and the registers saved for the thread, from which `do_sys_handler` passes
them on. Nothing keeps the thread from running on in between, and two branches of
`context_switch` come back to the thread without looking at its continuation.

The state is that of one thread: its address space, the registers its user code has, and its
continuation. A history records each call with the arguments recorded and passed, each handler
that is invoked, what the suspended calls recorded and what each switch back invoked for them, and
each allocation that came to its end. `allocate_memory` and `allocate_memory_cont` are modelled,
and the fields that `dev_selfmap_physical` writes; what another handler does besides is part of
the event.
-/

namespace Cthulhu

open Lib

/-- `continuation_t`, with the number of the entry of `syscalls` that was copied into it. -/
structure Continuation where
  call : ℕ
  arg0 : ℕ
  arg1 : ℕ
  arg2 : ℕ
  arg3 : ℕ
  arg4 : ℕ
  present : Bool
  deriving DecidableEq, Repr

/-- `SYS_ALLOCATE`. -/
def sysAllocate : ℕ := 1

/-- `SYS_ALLOC_CONT`. -/
def sysAllocCont : ℕ := 10

/-- `DEV_SYS_MAP_PHYSICAL_SELF`. -/
def devSysMapPhysicalSelf : ℕ := 2057

/-- The array `syscalls`. The entries come from `make_syscall_0` to `make_syscall_5`, and
`register_syscall` refuses a call that uses an error word and has no arguments; three entries are
those whose handlers write the fields of the continuation. -/
structure SyscallTable where
  entry : ℕ → Option Syscall
  wellFormed : ∀ n sc, entry n = some sc → sc.args ≤ 5 ∧ (sc.usesError = true → sc.args ≠ 0)
  allocate : entry sysAllocate = some ⟨false, 1⟩
  allocCont : entry sysAllocCont = some ⟨false, 3⟩
  mapPhysicalSelf : entry devSysMapPhysicalSelf = some ⟨false, 2⟩

/-- The number of arguments of each call that `initialize_system_calls` registers, by its number. -/
def registeredCalls : List (ℕ × ℕ) :=
  [(1, 1), (10, 3), (2, 2), (4, 0), (5, 1), (6, 1), (7, 0), (8, 2), (9, 2), (11, 1),
    (2050, 0), (2049, 0), (2051, 2), (2052, 1), (2053, 1), (2054, 4), (2055, 0), (2056, 1), (2057, 2)]

/-- The array as `initialize_system_calls` leaves it: no registered call uses an error word. -/
def initializeSystemCalls : SyscallTable where
  entry n := (registeredCalls.find? fun c => c.1 == n).map fun c => ⟨false, c.2⟩
  wellFormed := by
    intro n sc h
    rw [Option.map_eq_some_iff] at h
    obtain ⟨c, hc, rfl⟩ := h
    have hall : ∀ c ∈ registeredCalls, c.2 ≤ 5 := by decide
    exact ⟨hall c (List.mem_of_find?_eq_some hc), fun h => Bool.noConfusion h⟩
  allocate := rfl
  allocCont := rfl
  mapPhysicalSelf := rfl

/-- The arguments a handler gets out of five values. A call that uses an error word gets a pointer
to it first, which is not listed; no case of the switch calls no handler. -/
def handlerArgs (sc : Syscall) (a b c d e : ℕ) : Option (List ℕ) :=
  if sc.usesError then
    match sc.args with
    | 1 => some []
    | 2 => some [a]
    | 3 => some [a, b]
    | 4 => some [a, b, c]
    | 5 => some [a, b, c, d]
    | _ => none
  else
    match sc.args with
    | 0 => some []
    | 1 => some [a]
    | 2 => some [a, b]
    | 3 => some [a, b, c]
    | 4 => some [a, b, c, d]
    | 5 => some [a, b, c, d, e]
    | _ => none

/-- The arguments `do_sys_handler` passes. -/
def passedArgs (sc : Syscall) (r : Frame) : Option (List ℕ) := handlerArgs sc r.rdi r.rsi r.rdx r.r8 r.r9

/-- The arguments recorded in a continuation. -/
def recordedArgs (sc : Syscall) (c : Continuation) : Option (List ℕ) :=
  handlerArgs sc c.arg0 c.arg1 c.arg2 c.arg3 c.arg4

/-- The arguments of one call as they were recorded and as they were passed. -/
structure ArgPair where
  recorded : Option (List ℕ)
  passed : Option (List ℕ)
  deriving DecidableEq, Repr

/-- A handler, by the number of its entry, with arguments for it. -/
structure HandlerCall where
  number : ℕ
  args : List ℕ
  deriving DecidableEq, Repr

/-- The handler stored in a continuation, with the arguments recorded for it. -/
def SyscallTable.stored (table : SyscallTable) (c : Continuation) : Option HandlerCall :=
  (table.entry c.call).bind fun sc => (recordedArgs sc c).map (HandlerCall.mk c.call)

/-- One switch back to the thread: the calls that were suspended, and the handlers it invoked. -/
structure Resumption where
  waiting : List HandlerCall
  invoked : List HandlerCall
  deriving DecidableEq, Repr

/-- How `context_switch` comes to the thread: whether it is the one that ran before, and the code
selector in the frame, where there is a frame. -/
structure SwitchBack where
  same : Bool
  cs : Option ℕ
  deriving DecidableEq, Repr

/-- An allocation in progress: the address returned and the pages of its area. -/
structure AreaInProgress where
  address : ℕ
  pages : List ℕ
  deriving DecidableEq, Repr

/-- An allocation that came to its end: its pages and the machine at that moment. -/
structure AreaEnded where
  pages : List ℕ
  machine : Machine

/-- One thread and its address space, with the history of its calls: the registers of the last call
and whether `dev_selfmap_physical` had placed an area when it suspended, the suspended calls, and
what was called, invoked, resumed and ended. -/
structure CallState where
  space : ProcessSpace
  user : Registers
  cont : Continuation
  allocation : Option AreaInProgress
  called : Registers
  placed : Bool
  waiting : List HandlerCall
  invocations : List HandlerCall
  calls : List ArgPair
  resumptions : List Resumption
  ended : List AreaEnded

/-- What a call meets: the random number of the area search and whether its area node could be
allocated, the uninitialised entries of `allocate_mem`, and for every other handler its answer
and the address space after it. -/
structure Outcome where
  random : ℕ
  node : Bool
  stale : ℕ → ℕ
  answer : Answer
  space : ProcessSpace

/-- The range that `dev_selfmap_physical` leaves to be continued: without a node for the area it is
untouched, and a mapping that failed has set the address back to the start of its page. -/
def selfmapRest (physaddr size : ℕ) (node : Bool) : ℕ × ℕ :=
  let left := if node then alignDown physaddr 0x1000 else physaddr
  (left, sub64 size (sub64 left physaddr))

namespace ProcessSpace

/-- The areas after `find_va_hole` placed a heap area. -/
def placeHeap (ps : ProcessSpace) (size random : ℕ) : ProcessSpace :=
  let hole := selectHole ps.areas size 0x1000
  ⟨ps.machine, hole.before ++ heapArea ps.areas size random :: hole.after⟩

/-- The reservation of `allocate_memory_cont`. -/
def reserve (ps : ProcessSpace) (start size : ℕ) (stale : ℕ → ℕ) : AllocInfo × ProcessSpace :=
  let r := ps.machine.allocateMem (reserveRequest start size) false false ps.machine.activePage stale
  (r.1, ⟨r.2, ps.areas⟩)

/-- `allocate_memory` places an area and goes on with its continuation. -/
theorem allocateMemory_eq (ps : ProcessSpace) (size random : ℕ) (stale : ℕ → ℕ) :
    ps.allocateMemory size random stale =
      let r := (ps.placeHeap size random).reserve (heapArea ps.areas size random).vastart size stale
      ⟨(heapArea ps.areas size random).vastart, r.1.finished, r.2⟩ := rfl

end ProcessSpace

namespace CallState

/-- A handler that sets `present`, or does not: the call is suspended as its continuation records it. -/
def suspend (table : SyscallTable) (suspended : Bool) (s : CallState) : CallState :=
  if suspended then
    { s with
      cont := { s.cont with present := true }
      waiting := s.waiting ++ (table.stored s.cont).toList }
  else s

/-- `allocate_memory_cont`, the frame going back to the user through `back`. -/
def allocateMemoryCont (table : SyscallTable) (s : CallState) (sc : Syscall) (r : Frame) (back : Frame → Registers)
    (start size addr : ℕ) (stale : ℕ → ℕ) : CallState :=
  let q := s.space.reserve start size stale
  let answer : Answer := ⟨addr, 0, r, !q.1.finished⟩
  suspend table answer.present
    { s with
      space := q.2
      user := back (doSysHandler sc (fun _ => answer) r)
      cont := { s.cont with
        call := sysAllocCont
        arg0 := if q.1.finished then start else q.1.start
        arg1 := if q.1.finished then size else q.1.amount
        arg2 := addr }
      allocation := if q.1.finished then none else s.allocation
      ended := if q.1.finished then
          match s.allocation with
          | some a => s.ended ++ [⟨a.pages, q.2.machine⟩]
          | none => s.ended
        else s.ended }

/-- `allocate_memory`: without a node for the area the call itself is to be continued. -/
def allocateMemory (table : SyscallTable) (s : CallState) (sc : Syscall) (r : Frame) (back : Frame → Registers)
    (size : ℕ) (o : Outcome) : CallState :=
  if o.node then
    let addr := (heapArea s.space.areas size o.random).vastart
    allocateMemoryCont table
      { s with
        space := s.space.placeHeap size o.random
        allocation := some ⟨addr, s.space.reservedPages size o.random⟩ } sc r back addr size addr o.stale
  else suspend table true { s with user := back (doSysHandler sc (fun _ => ⟨0, 0, r, true⟩) r) }

/-- Any other handler; `dev_selfmap_physical` writes the range that is left when it suspends. -/
def otherHandler (table : SyscallTable) (s : CallState) (number : ℕ) (sc : Syscall) (r : Frame)
    (back : Frame → Registers) (o : Outcome) : CallState :=
  let remapped : Bool := number = devSysMapPhysicalSelf && o.answer.present
  let rest := selfmapRest r.rdi r.rsi o.node
  suspend table o.answer.present
    { s with
      space := o.space
      user := back (doSysHandler sc (fun _ => o.answer) r)
      cont := if remapped then { s.cont with arg0 := rest.1, arg1 := rest.2 } else s.cont
      placed := s.placed || (remapped && o.node) }

/-- The handler of entry `number`, called with the registers of the frame. -/
def invoke (table : SyscallTable) (s : CallState) (number : ℕ) (sc : Syscall) (r : Frame) (back : Frame → Registers)
    (o : Outcome) : CallState :=
  let s := { s with invocations := s.invocations ++ (passedArgs sc r).toList.map (HandlerCall.mk number) }
  if number = sysAllocate then allocateMemory table s sc r back r.rdi o
  else if number = sysAllocCont then allocateMemoryCont table s sc r back r.rdi r.rsi r.rdx o.stale
  else otherHandler table s number sc r back o

/-- The continuation as `sys_handler` fills it in. -/
def recorded (s : CallState) : Continuation :=
  let r := syscallFrame s.user
  ⟨s.user.rax, r.rdi, r.rsi, r.r8, r.r9, r.r10, s.cont.present⟩

/-- `EINVAL`. -/
def einval : ℕ := 22

/-- `sys_handler`. -/
def sysHandler (table : SyscallTable) (s : CallState) (o : Outcome) : CallState :=
  let r := syscallFrame s.user
  if s.user.rax ≥ 4096 then { s with user := syscallReturn { r with rdi := 2 ^ 64 - 1 } }
  else match table.entry s.user.rax with
    | none => { s with user := syscallReturn { r with rdi := 2 ^ 64 - 1 } }
    | some sc =>
      if s.user.rax = sysAllocCont then { s with user := syscallReturn { r with rax := einval } }
      else
        invoke table
          { s with
            cont := s.recorded
            called := s.user
            placed := false
            calls := s.calls ++ [ArgPair.mk (recordedArgs sc s.recorded) (passedArgs sc r)] }
          s.user.rax sc r syscallReturn o

/-- The end of `context_switch` for the thread. The thread that ran before goes on at once where its
user code was interrupted; without a frame `switch_to_usermode` does not come back; otherwise its
registers are back in the frame and its continuation is looked at. -/
def contextSwitch (table : SyscallTable) (s : CallState) (w : SwitchBack) (o : Outcome) : CallState :=
  if w.same ∧ w.cs = some userCode then s
  else if w.cs = none then s
  else if s.cont.present then
    match table.entry s.cont.call with
    | none => { s with cont := { s.cont with present := false } }
    | some sc =>
      invoke table { s with cont := { s.cont with present := false } } s.cont.call sc (interruptFrame s.user)
        interruptReturn o
  else s

/-- A switch back to the thread, with the handlers it invoked for the calls that were suspended. -/
def switchBack (table : SyscallTable) (s : CallState) (w : SwitchBack) (o : Outcome) : CallState :=
  let s' := contextSwitch table { s with waiting := [] } w o
  { s' with resumptions := s'.resumptions ++ [⟨s.waiting, s'.invocations.drop s.invocations.length⟩] }

end CallState

/-- What can happen to the thread: its user code runs, it makes a system call, it is switched to
again, or others change its address space. -/
inductive CallEvent
  | execute (u : Registers)
  | call (o : Outcome)
  | resume (w : SwitchBack) (o : Outcome)
  | others (ps : ProcessSpace)

/-- One event. -/
def callStep (table : SyscallTable) (s : CallState) : CallEvent → CallState
  | .execute u => { s with user := u }
  | .call o => s.sysHandler table o
  | .resume w o => s.switchBack table w o
  | .others ps => { s with space := ps }

end Cthulhu
