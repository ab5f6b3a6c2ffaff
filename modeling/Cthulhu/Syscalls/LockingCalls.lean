import Cthulhu.Memory.LockRelease
import Cthulhu.Process.Allocation
import Cthulhu.Syscalls.MessageBuffers
import Cthulhu.Syscalls.Validate

/-!
# The spinlocks of the system calls

Seven functions that serve system calls, with the spinlocks each takes and releases by hand. A call that comes to
a lock which is held spins, and a call that returned left the locks as they are at its `return`.

Three returns leave locks behind. `deallocate_memory` refuses an address at which no area starts, another size
and another type with both of its locks held, and `register_daemon_service` refuses a name that is taken
with its lock held.
-/

namespace Cthulhu

open Lib

/-- `__cpu_lock` and `__cpu_sched_lock` of a CPU, `__thread_modifier`, `__ob_lock` of a process and
`__daemon_registration_lock`. -/
inductive SyscallLock
  | cpu (c : ℕ)
  | sched (c : ℕ)
  | threadModifier
  | ob (p : ℕ)
  | daemonRegistration
  deriving DecidableEq, Repr

/-- The CPU that a call runs on, and the process that makes it. -/
structure Caller where
  cpu : ℕ
  proc : ℕ
  deriving DecidableEq, Repr

/-- What the calls use of a process: its areas, message buffers, priority and page tables. -/
structure CallerProc where
  areas : List MmapArea
  outputBuffer : List MessageBuffer
  priority : ℕ
  pml4 : ℕ

/-- Why a call has not returned: it spins on a lock, or the check of an address has not finished. -/
inductive Unfinished
  | spins
  | checking
  deriving DecidableEq, Repr

/-- What the calls read and change: memory with the locks of the paging interface, the processes, the registered
services, and the locks that are held. -/
structure SyscallState where
  machine : Machine
  process : ℕ → CallerProc
  drTable : List ℕ → Option ℕ
  held : SyscallLock → Bool

/-- What a call returns: a number, or one of the named codes. -/
inductive CallAnswer
  | value (v : ℕ)
  | einval
  | etryagain
  | enomemInternal
  | daemonNotRegistered
  deriving DecidableEq, Repr

namespace SyscallState

/-- The state with a lock held. -/
def taken (l : SyscallLock) (st : SyscallState) : SyscallState := { st with held := Function.update st.held l true }

/-- `proc_spinlock_lock`. -/
def acquire (l : SyscallLock) (st : SyscallState) : Except Unfinished SyscallState :=
  if st.held l then .error .spins else .ok (st.taken l)

/-- `proc_spinlock_unlock`. -/
def release (l : SyscallLock) (st : SyscallState) : SyscallState := { st with held := Function.update st.held l false }

/-- The calling process with its page tables active. -/
def space (c : Caller) (st : SyscallState) : ProcessSpace :=
  ⟨{ st.machine with activePage := (st.process c.proc).pml4 }, (st.process c.proc).areas⟩

/-- The state with other areas of the calling process. -/
def setAreas (c : Caller) (areas : List MmapArea) (st : SyscallState) : SyscallState :=
  { st with process := Function.update st.process c.proc { st.process c.proc with areas } }

/-- The state with other message buffers of the calling process. -/
def setBuffer (c : Caller) (outputBuffer : List MessageBuffer) (st : SyscallState) : SyscallState :=
  { st with process := Function.update st.process c.proc { st.process c.proc with outputBuffer } }

/-- `allocate_memory` with `allocate_memory_cont`; the flag says that there is no area behind the pointer that
`find_va_hole` returned. -/
def allocateMemory (c : Caller) (size random : ℕ) (stale : ℕ → ℕ) (noArea : Bool) (st : SyscallState) :
    Except Unfinished (CallAnswer × SyscallState) :=
  (st.acquire (.cpu c.cpu)).bind fun st => (st.acquire .threadModifier).bind fun st =>
    if noArea then .ok (.value 0, (st.release .threadModifier).release (.cpu c.cpu))
    else
      let r := (st.space c).allocateMemory size random stale
      -- the area is in the list when the locks are released, and its pages are reserved afterwards
      let st := ((st.setAreas c r.space.areas).release .threadModifier).release (.cpu c.cpu)
      .ok (.value r.address, { st with machine := r.space.machine })

/-- `deallocate_memory`. -/
def deallocateMemory (c : Caller) (start aamount : ℕ) (st : SyscallState) : Except Unfinished (CallAnswer × SyscallState) :=
  (st.acquire (.cpu c.cpu)).bind fun st => (st.acquire .threadModifier).bind fun st =>
    match releaseArea start aamount (st.space c).areas with
    | none => .ok (.value 1, st)
    | some r =>
      let machine := (st.space c).machine.deallocate r.1.vastart aamount (st.process c.proc).pml4
      let st := { st with machine }.setAreas c r.2
      .ok (.value 0, (st.release .threadModifier).release (.cpu c.cpu))

/-- `get_current_process`, as far as its locks go. -/
def getCurrentProcess (c : Caller) (st : SyscallState) : Except Unfinished SyscallState :=
  (st.acquire (.cpu c.cpu)).bind fun st => (st.acquire (.sched c.cpu)).bind fun st =>
    (st.acquire .threadModifier).bind fun st =>
      .ok (((st.release .threadModifier).release (.cpu c.cpu)).release (.sched c.cpu))

/-- `get_empty_message`. -/
def getEmptyMessage (c : Caller) (mp fuel : ℕ) (st : SyscallState) : Except Unfinished (CallAnswer × SyscallState) :=
  match (st.space c).machine.validateAddress fuel mp 8 with
  | none => .error .checking
  | some (valid, _, machine) =>
    let st := { st with machine }
    if !valid then .ok (.einval, st)
    else
      (st.getCurrentProcess c).bind fun st => (st.acquire (.ob c.proc)).bind fun st =>
        match takeUnused (st.process c.proc).outputBuffer with
        | some (_, _, buffers) => .ok (.value 0, (st.setBuffer c buffers).release (.ob c.proc))
        | none => .ok (.etryagain, st.release (.ob c.proc))

/-- `get_ct_priority`. -/
def getCtPriority (c : Caller) (st : SyscallState) : Except Unfinished (CallAnswer × SyscallState) :=
  (st.acquire (.cpu c.cpu)).bind fun st => (st.acquire .threadModifier).bind fun st =>
    .ok (.value (st.process c.proc).priority, (st.release .threadModifier).release (.cpu c.cpu))

/-- `register_daemon_service`; the flag says that `table_set` ran out of memory. -/
def registerDaemonService (process : ℕ) (service : List ℕ) (overwriteOldServiceProvider full : Bool) (st : SyscallState) :
    Except Unfinished (CallAnswer × SyscallState) :=
  (st.acquire .daemonRegistration).bind fun st =>
    if (st.drTable service).isSome && !overwriteOldServiceProvider then .ok (.daemonNotRegistered, st)
    else if full then .ok (.enomemInternal, st.release .daemonRegistration)
    else .ok (.value process, { st with drTable := Function.update st.drTable service (some process) }.release .daemonRegistration)

/-- `daemon_registered`. -/
def daemonRegistered (service : List ℕ) (st : SyscallState) : Except Unfinished (CallAnswer × SyscallState) :=
  (st.acquire .daemonRegistration).bind fun st =>
    .ok (.value (if (st.drTable service).isSome then 1 else 0), st.release .daemonRegistration)

/-- `is_daemon_process`. -/
def isDaemonProcess (process : ℕ) (service : List ℕ) (st : SyscallState) : Except Unfinished (CallAnswer × SyscallState) :=
  (st.acquire .daemonRegistration).bind fun st =>
    match st.drTable service with
    | none => .ok (.value 0, st.release .daemonRegistration)
    | some provider => .ok (.value (if provider = process then 1 else 0), st.release .daemonRegistration)

end SyscallState

/-- A call of one of the functions, with what its allocations answer. -/
inductive LockingCall
  | allocateMemory (size random : ℕ) (stale : ℕ → ℕ) (noArea : Bool)
  | deallocateMemory (start aamount : ℕ)
  | getEmptyMessage (mp fuel : ℕ)
  | getCtPriority
  | registerDaemonService (process : ℕ) (service : List ℕ) (overwriteOldServiceProvider full : Bool)
  | daemonRegistered (service : List ℕ)
  | isDaemonProcess (process : ℕ) (service : List ℕ)

namespace LockingCall

/-- What a call does: its result and the state at its `return`. -/
def step (c : Caller) (st : SyscallState) : LockingCall → Except Unfinished (CallAnswer × SyscallState)
  | allocateMemory size random stale noArea => st.allocateMemory c size random stale noArea
  | deallocateMemory start aamount => st.deallocateMemory c start aamount
  | getEmptyMessage mp fuel => st.getEmptyMessage c mp fuel
  | getCtPriority => st.getCtPriority c
  | registerDaemonService process service overwriteOldServiceProvider full =>
    st.registerDaemonService process service overwriteOldServiceProvider full
  | daemonRegistered service => st.daemonRegistered service
  | isDaemonProcess process service => st.isDaemonProcess process service

/-- The call does not come to a `return` that leaves a lock behind: a deallocation is for a heap area, the first one that
starts at the address, with its size, and a registration is for a free name or overwrites. -/
def Releasing (c : Caller) (st : SyscallState) : LockingCall → Prop
  | deallocateMemory start aamount =>
    ∃ area, ((st.process c.proc).areas.find? fun area => area.vastart = start) = some area ∧
      area.vaend = add64 start aamount ∧ area.mtype = .heapData
  | registerDaemonService _ service overwriteOldServiceProvider _ =>
    st.drTable service = none ∨ overwriteOldServiceProvider = true
  | _ => True

end LockingCall

/-- `validate_address` leaves them free. -/
theorem Machine.validateAddress_released {m : Machine} (h : ∀ l, m.pagingHeld l = false) {fuel address size : ℕ}
    {r : Bool × Bool × Machine} (hr : m.validateAddress fuel address size = some r) (l : PagingLock) :
    r.2.2.pagingHeld l = false := by
  obtain ⟨state, -, rfl⟩ := Option.map_eq_some_iff.mp hr
  have hrun (st : Machine × Bool) (hst : ∀ l, st.1.pagingHeld l = false) (stored : List ℕ) :
      ∀ l, (run Machine.repairRound st stored).1.pagingHeld l = false := by
    induction stored generalizing st with
    | nil => exact hst
    | cons b stored ih =>
      refine ih _ ?_
      unfold Machine.repairRound
      split
      · exact hst
      · exact Machine.allocateMem_released hst _ _ _ _ _
  split
  · unfold Machine.repairMemory
    cases state.1 with
    | allocondem => exact hrun _ h _ l
    | okay | swapped | cow | notpresent | einvalid => exact h l
  · exact h l

section Calls

variable {st st' : SyscallState} {c : Caller} {call : LockingCall} {r : CallAnswer × SyscallState}

/-- A continuation behind an acquisition ends with a result only where the lock was free. -/
theorem SyscallState.acquire_ok {l : SyscallLock} {f : SyscallState → Except Unfinished (CallAnswer × SyscallState)}
    (h : (st.acquire l).bind f = .ok r) : st.held l = false ∧ f (st.taken l) = .ok r := by
  unfold acquire at h
  cases hl : st.held l with
  | true =>
    rw [hl] at h
    exact absurd h nofun
  | false =>
    rw [hl] at h
    exact ⟨rfl, h⟩

/-- Where the lock is free an acquisition does not spin. -/
theorem SyscallState.acquire_spins {l : SyscallLock} {f : SyscallState → Except Unfinished (CallAnswer × SyscallState)}
    (hl : st.held l = false) (h : (st.acquire l).bind f = .error .spins) : f (st.taken l) = .error .spins := by
  unfold acquire at h
  rw [hl] at h
  exact h

/-- A lock that was free is free again after its acquisition and release. -/
theorem update_update_held {held : SyscallLock → Bool} {l : SyscallLock} (hl : held l = false) :
    Function.update (Function.update held l true) l false = held := by
  rw [Function.update_idem, ← hl, Function.update_eq_self]

/-- Two different locks that were free are free again when they are released, latest first. -/
theorem update_held_nested {held : SyscallLock → Bool} {a b : SyscallLock} (hne : b ≠ a) (ha : held a = false)
    (hb : held b = false) :
    Function.update (Function.update (Function.update (Function.update held a true) b true) b false) a false = held := by
  have hinner : Function.update held a true b = false := by rw [Function.update_of_ne hne, hb]
  rw [update_update_held hinner, update_update_held ha]

/-- A lock that is still held is none that was free. -/
theorem update_held_ne {held : SyscallLock → Bool} {l : SyscallLock} (hl : held l = false) :
    Function.update held l true ≠ held := by
  intro heq
  have hat := congrFun heq l
  rw [Function.update_self, hl] at hat
  exact absurd hat (by decide)

/-- The search of `deallocate_memory` succeeds exactly when the first area that starts there is a heap area of that
size. -/
theorem releaseArea_ne_none {start amount : ℕ} {areas : List MmapArea} :
    releaseArea start amount areas ≠ none ↔ ∃ area, (areas.find? fun area => area.vastart = start) = some area ∧
      area.vaend = add64 start amount ∧ area.mtype = .heapData := by
  induction areas with
  | nil => simp [releaseArea]
  | cons area rest ih =>
    rw [releaseArea, List.find?_cons]
    by_cases hstart : area.vastart = start
    · simp [hstart]
    · simpa [hstart] using ih

/-- A continuation behind `__cpu_lock` and `__thread_modifier` ends with a result only where both were free. -/
theorem SyscallState.acquire_pair_ok {f : SyscallState → Except Unfinished (CallAnswer × SyscallState)}
    (h : ((st.acquire (.cpu c.cpu)).bind fun st => (st.acquire .threadModifier).bind f) = .ok r) :
    st.held (.cpu c.cpu) = false ∧ st.held .threadModifier = false ∧
      f ((st.taken (.cpu c.cpu)).taken .threadModifier) = .ok r := by
  obtain ⟨hcpu, h⟩ := acquire_ok h
  obtain ⟨hthread, h⟩ := acquire_ok h
  have hne : SyscallLock.threadModifier ≠ .cpu c.cpu := nofun
  have hfree : Function.update st.held (.cpu c.cpu) true .threadModifier = false := hthread
  rw [Function.update_of_ne hne] at hfree
  exact ⟨hcpu, hfree, h⟩

/-- `get_current_process` returns with every lock as it was, and where all locks are free it returns. -/
theorem SyscallState.getCurrentProcess_cases (c : Caller) (st : SyscallState) :
    st.getCurrentProcess c = .ok st ∨
      st.getCurrentProcess c = .error .spins ∧ ∃ l, st.held l = true := by
  have hsched : SyscallLock.sched c.cpu ≠ .cpu c.cpu := nofun
  cases hcpu : st.held (.cpu c.cpu) with
  | true =>
    refine Or.inr ⟨?_, _, hcpu⟩
    simp [getCurrentProcess, acquire, hcpu, Except.bind]
  | false =>
    cases hs : st.held (.sched c.cpu) with
    | true =>
      refine Or.inr ⟨?_, _, hs⟩
      simp [getCurrentProcess, acquire, taken, hcpu, hs, Except.bind]
    | false =>
      cases ht : st.held .threadModifier with
      | true =>
        refine Or.inr ⟨?_, _, ht⟩
        simp [getCurrentProcess, acquire, taken, hcpu, hs, ht, Except.bind]
      | false =>
        refine Or.inl ?_
        have hheld : Function.update (Function.update (Function.update (Function.update
            (Function.update st.held (.cpu c.cpu) true) (.sched c.cpu) true) .threadModifier false)
            (.cpu c.cpu) false) (.sched c.cpu) false = st.held := by
          funext l
          by_cases h1 : l = .sched c.cpu
          · simp [h1, hs]
          by_cases h2 : l = .cpu c.cpu
          · simp [h2, hcpu]
          by_cases h3 : l = .threadModifier
          · simp [h3, ht]
          simp [Function.update_of_ne h1, Function.update_of_ne h2, Function.update_of_ne h3]
        simp [getCurrentProcess, acquire, taken, release, hcpu, hs, ht, Except.bind, hheld]

/-- A continuation behind `get_current_process` that ends with a result does so from the same state. -/
theorem SyscallState.getCurrentProcess_ok {f : SyscallState → Except Unfinished (CallAnswer × SyscallState)}
    (h : (st.getCurrentProcess c).bind f = .ok r) : f st = .ok r := by
  rcases getCurrentProcess_cases c st with hok | ⟨hspins, -⟩
  · rwa [hok] at h
  · rw [hspins] at h
    exact absurd h nofun

/-- A call that returns leaves the locks as they were exactly when it does not come to one of the three returns. -/
theorem LockingCall.step_held (h : call.step c st = .ok r) : r.2.held = st.held ↔ call.Releasing c st := by
  have hne : SyscallLock.threadModifier ≠ .cpu c.cpu := nofun
  cases call with
  | allocateMemory size random stale noArea =>
    obtain ⟨hcpu, hthread, h⟩ := SyscallState.acquire_pair_ok h
    refine iff_of_true ?_ True.intro
    split at h <;> cases h <;> exact update_held_nested hne hcpu hthread
  | deallocateMemory start aamount =>
    obtain ⟨hcpu, hthread, h⟩ := SyscallState.acquire_pair_ok h
    have hsearch : releaseArea start aamount (st.process c.proc).areas ≠ none ↔ _ := releaseArea_ne_none
    rw [Releasing, ← hsearch]
    cases hrelease : releaseArea start aamount (st.process c.proc).areas with
    | none =>
      have hareas : releaseArea start aamount (((st.taken (.cpu c.cpu)).taken .threadModifier).space c).areas = none := hrelease
      rw [hareas] at h
      cases h
      refine iff_of_false ?_ (by simp)
      intro heq
      have hat := congrFun heq .threadModifier
      rw [hthread] at hat
      exact absurd hat (by simp [SyscallState.taken])
    | some found =>
      have hareas : releaseArea start aamount (((st.taken (.cpu c.cpu)).taken .threadModifier).space c).areas = some found :=
        hrelease
      rw [hareas] at h
      cases h
      exact iff_of_true (update_held_nested hne hcpu hthread) nofun
  | getEmptyMessage mp fuel =>
    refine iff_of_true ?_ True.intro
    rw [step, SyscallState.getEmptyMessage] at h
    split at h
    · exact absurd h nofun
    · split at h
      · cases h
        rfl
      · obtain ⟨hob, h⟩ := SyscallState.acquire_ok (SyscallState.getCurrentProcess_ok h)
        split at h <;> cases h <;> exact update_update_held hob
  | getCtPriority =>
    obtain ⟨hcpu, hthread, h⟩ := SyscallState.acquire_pair_ok h
    cases h
    exact iff_of_true (update_held_nested hne hcpu hthread) True.intro
  | registerDaemonService process service overwriteOldServiceProvider full =>
    obtain ⟨hfree, h⟩ := SyscallState.acquire_ok h
    have htable : (st.taken .daemonRegistration).drTable = st.drTable := rfl
    rw [htable] at h
    have hkept : (Releasing c st (.registerDaemonService process service overwriteOldServiceProvider full)) ↔
        ¬ ((st.drTable service).isSome && !overwriteOldServiceProvider) = true := by
      rw [Releasing]
      cases st.drTable service <;> cases overwriteOldServiceProvider <;> simp
    rw [hkept]
    split at h
    · rename_i htaken
      cases h
      exact iff_of_false (update_held_ne hfree) (not_not_intro htaken)
    · rename_i hnot
      refine iff_of_true ?_ hnot
      split at h <;> cases h <;> exact update_update_held hfree
  | daemonRegistered service =>
    obtain ⟨hfree, h⟩ := SyscallState.acquire_ok h
    cases h
    exact iff_of_true (update_update_held hfree) True.intro
  | isDaemonProcess process service =>
    obtain ⟨hfree, h⟩ := SyscallState.acquire_ok h
    refine iff_of_true ?_ True.intro
    split at h <;> cases h <;> exact update_update_held hfree

/-- Where all locks are free no call spins. -/
theorem LockingCall.step_acquires (c : Caller) (call : LockingCall) (hall : ∀ l, st.held l = false) : call.step c st ≠ .error .spins := by
  have hpair {f : SyscallState → Except Unfinished (CallAnswer × SyscallState)}
      (h : ((st.acquire (.cpu c.cpu)).bind fun st => (st.acquire .threadModifier).bind f) = .error .spins) :
      f ((st.taken (.cpu c.cpu)).taken .threadModifier) = .error .spins := by
    have hthread : (st.taken (.cpu c.cpu)).held .threadModifier = false := by simp [SyscallState.taken, hall]
    exact SyscallState.acquire_spins hthread (SyscallState.acquire_spins (hall _) h)
  intro h
  cases call with
  | allocateMemory size random stale noArea =>
    have h := hpair h
    split at h <;> exact absurd h nofun
  | deallocateMemory start aamount =>
    have h := hpair h
    split at h <;> exact absurd h nofun
  | getEmptyMessage mp fuel =>
    rw [step, SyscallState.getEmptyMessage] at h
    split at h
    · exact absurd h nofun
    · split at h
      · exact absurd h nofun
      · dsimp only at h
        rename_i machine _ _
        rcases SyscallState.getCurrentProcess_cases c { st with machine } with hok | ⟨-, l, hl⟩
        · rw [hok] at h
          have h := SyscallState.acquire_spins (by exact hall _) h
          split at h <;> exact absurd h nofun
        · exact absurd ((hall l).symm.trans hl) nofun
  | getCtPriority => exact absurd (hpair h) nofun
  | registerDaemonService process service overwriteOldServiceProvider full =>
    have h := SyscallState.acquire_spins (hall _) h
    split at h
    · exact absurd h nofun
    · split at h <;> exact absurd h nofun
  | daemonRegistered service => exact absurd (SyscallState.acquire_spins (hall _) h) nofun
  | isDaemonProcess process service =>
    have h := SyscallState.acquire_spins (hall _) h
    split at h <;> exact absurd h nofun

/-- A call that returns leaves the locks of the paging interface free. -/
theorem LockingCall.step_paging (hfree : ∀ l, st.machine.pagingHeld l = false) (h : call.step c st = .ok r) (l : PagingLock) :
    r.2.machine.pagingHeld l = false := by
  cases call with
  | allocateMemory size random stale noArea =>
    obtain ⟨-, -, h⟩ := SyscallState.acquire_pair_ok h
    split at h <;> cases h
    · exact hfree l
    · exact Machine.allocateMem_released (m := (st.space c).machine) hfree _ _ _ _ _ l
  | deallocateMemory start aamount =>
    obtain ⟨-, -, h⟩ := SyscallState.acquire_pair_ok h
    split at h <;> cases h
    · exact hfree l
    · exact Machine.deallocate_released (m := (st.space c).machine) hfree _ _ _ l
  | getEmptyMessage mp fuel =>
    rw [step, SyscallState.getEmptyMessage] at h
    split at h
    · exact absurd h nofun
    · rename_i hvalid
      have hmachine := Machine.validateAddress_released (m := (st.space c).machine) hfree hvalid l
      split at h
      · cases h
        exact hmachine
      · obtain ⟨-, h⟩ := SyscallState.acquire_ok (SyscallState.getCurrentProcess_ok h)
        split at h <;> cases h <;> exact hmachine
  | getCtPriority =>
    obtain ⟨-, -, h⟩ := SyscallState.acquire_pair_ok h
    cases h
    exact hfree l
  | registerDaemonService process service overwriteOldServiceProvider full =>
    obtain ⟨-, h⟩ := SyscallState.acquire_ok h
    split at h
    · cases h
      exact hfree l
    · split at h <;> cases h <;> exact hfree l
  | daemonRegistered service =>
    obtain ⟨-, h⟩ := SyscallState.acquire_ok h
    cases h
    exact hfree l
  | isDaemonProcess process service =>
    obtain ⟨-, h⟩ := SyscallState.acquire_ok h
    split at h <;> cases h <;> exact hfree l

end Calls

end Cthulhu
