import Cthulhu.Memory.PageWalk
import Cthulhu.Syscalls.LockingCalls

/-!
# Sequences of system calls and their locks

A sequence of calls is judged by what it leaves after each of them: every lock as it was before, so that
no later call spins. It does so exactly when no call comes to one of the returns that leave a lock behind.
-/

namespace Cthulhu

open Lib

/-- The state after a sequence of calls. -/
def runCalls (st : SyscallState) (calls : List (Caller × LockingCall)) : Except Unfinished SyscallState :=
  calls.foldlM (fun st call => (call.2.step call.1 st).map Prod.snd) st

/-- After every call of a sequence the locks are as they were before it; those of the paging interface are free if they
were; and if all were free no call of the sequence spins. -/
structure ReleasesLocks (st : SyscallState) (calls : List (Caller × LockingCall)) : Prop where
  released : ∀ n st', runCalls st (calls.take n) = .ok st' → st'.held = st.held
  paging : (∀ l, st.machine.pagingHeld l = false) → ∀ n st', runCalls st (calls.take n) = .ok st' →
    ∀ l, st'.machine.pagingHeld l = false
  acquires : (∀ l, st.held l = false) → ∀ n, runCalls st (calls.take n) ≠ .error .spins

section Runs

variable {st : SyscallState} {calls : List (Caller × LockingCall)}

/-- A run of one more call. -/
theorem runCalls_succ {n : ℕ} {call : Caller × LockingCall} (hcall : calls[n]? = some call) :
    runCalls st (calls.take (n + 1)) = (runCalls st (calls.take n)).bind fun st' => (call.2.step call.1 st').map Prod.snd := by
  have htake : calls.take (n + 1) = calls.take n ++ [call] := by
    rw [List.take_add_one, hcall]
    rfl
  rw [htake, runCalls, List.foldlM_append]
  cases hrun : (calls.take n).foldlM (fun st call => (call.2.step call.1 st).map Prod.snd) st with
  | error stop =>
    rw [runCalls, hrun]
    rfl
  | ok st' =>
    rw [runCalls, hrun]
    exact bind_pure (m := Except Unfinished) _

/-- Behind its end a sequence does nothing more. -/
theorem runCalls_take_end {n : ℕ} (hend : calls[n]? = none) : calls.take (n + 1) = calls.take n := by
  rw [List.take_add_one, hend]
  exact List.append_nil _

/-- A run of one more call that went well is one of the others and a call that returns. -/
theorem runCalls_succ_ok {n : ℕ} {call : Caller × LockingCall} {st' : SyscallState} (hcall : calls[n]? = some call)
    (h : runCalls st (calls.take (n + 1)) = .ok st') :
    ∃ before r, runCalls st (calls.take n) = .ok before ∧ call.2.step call.1 before = .ok r ∧ r.2 = st' := by
  rw [runCalls_succ hcall] at h
  cases hrun : runCalls st (calls.take n) with
  | error stop =>
    rw [hrun] at h
    exact absurd h nofun
  | ok before =>
    rw [hrun] at h
    have hmap : (call.2.step call.1 before).map Prod.snd = .ok st' := h
    cases hstep : call.2.step call.1 before with
    | error stop =>
      rw [hstep] at hmap
      exact absurd hmap nofun
    | ok r =>
      rw [hstep] at hmap
      exact ⟨before, r, rfl, hstep, Except.ok.inj hmap⟩

/-- A run leaves the locks of the paging interface free. -/
theorem runCalls_paging (hfree : ∀ l, st.machine.pagingHeld l = false) {n : ℕ} {st' : SyscallState}
    (h : runCalls st (calls.take n) = .ok st') (l : PagingLock) : st'.machine.pagingHeld l = false := by
  induction n generalizing st' l with
  | zero =>
    obtain rfl := Except.ok.inj h
    exact hfree l
  | succ n ih =>
    cases hcall : calls[n]? with
    | none =>
      rw [runCalls_take_end hcall] at h
      exact ih h l
    | some call =>
      obtain ⟨before, r, hrun, hstep, rfl⟩ := runCalls_succ_ok hcall h
      exact LockingCall.step_paging (ih hrun) hstep l

/-- A run whose calls all release their locks leaves every lock as it was. -/
theorem runCalls_held (hkept : ∀ n st' call r, calls[n]? = some call → runCalls st (calls.take n) = .ok st' →
    call.2.step call.1 st' = .ok r → call.2.Releasing call.1 st') {n : ℕ} {st' : SyscallState}
    (h : runCalls st (calls.take n) = .ok st') : st'.held = st.held := by
  induction n generalizing st' with
  | zero =>
    obtain rfl := Except.ok.inj h
    rfl
  | succ n ih =>
    cases hcall : calls[n]? with
    | none =>
      rw [runCalls_take_end hcall] at h
      exact ih h
    | some call =>
      obtain ⟨before, r, hrun, hstep, rfl⟩ := runCalls_succ_ok hcall h
      exact ((LockingCall.step_held hstep).mpr (hkept n before call r hcall hrun hstep)).trans (ih hrun)

/-- A run that always leaves every lock free never spins. -/
theorem runCalls_acquires (hheld : ∀ n st', runCalls st (calls.take n) = .ok st' → ∀ l, st'.held l = false) (n : ℕ) :
    runCalls st (calls.take n) ≠ .error .spins := by
  induction n with
  | zero => exact nofun
  | succ n ih =>
    cases hcall : calls[n]? with
    | none =>
      rw [runCalls_take_end hcall]
      exact ih
    | some call =>
      rw [runCalls_succ hcall]
      cases hrun : runCalls st (calls.take n) with
      | error stop =>
        rw [hrun] at ih
        exact ih
      | ok before =>
        have hstep := LockingCall.step_acquires call.1 call.2 (hheld n before hrun)
        change (call.2.step call.1 before).map Prod.snd ≠ .error .spins
        cases hresult : call.2.step call.1 before with
        | error stop =>
          intro hspins
          exact hstep (hresult.trans (congrArg Except.error (Except.error.inj hspins)))
        | ok r => exact nofun

/-- A sequence of calls releases its locks exactly when no call of it comes to one of the three returns. -/
theorem runCalls_releasesLocks_iff (st : SyscallState) (calls : List (Caller × LockingCall)) : ReleasesLocks st calls ↔
    ∀ n st' call r, calls[n]? = some call → runCalls st (calls.take n) = .ok st' → call.2.step call.1 st' = .ok r →
      call.2.Releasing call.1 st' := by
  constructor
  · intro h n st' call r hcall hrun hstep
    have hnext : runCalls st (calls.take (n + 1)) = .ok r.2 := by
      rw [runCalls_succ hcall, hrun]
      exact congrArg (Except.map Prod.snd) hstep
    exact (LockingCall.step_held hstep).mp ((h.released _ _ hnext).trans (h.released _ _ hrun).symm)
  · intro hkept
    refine ⟨fun n st' hrun => runCalls_held hkept hrun, fun hfree n st' hrun => runCalls_paging hfree hrun, ?_⟩
    intro hall n
    refine runCalls_acquires (fun n st' hrun l => ?_) n
    rw [runCalls_held hkept hrun]
    exact hall l

/-- A machine, a process without areas, no service and no lock held. -/
def idleState : SyscallState where
  machine := blankMachine
  process := fun _ => ⟨[], [], 0, 0x100000⟩
  drTable := fun _ => none
  held := fun _ => false

/-- A second registration of a name leaves its lock held, and the next call that takes it spins. -/
theorem registerDaemonService_keeps_lock :
    let register := LockingCall.registerDaemonService 1 [0x61] false false
    let calls := [(⟨0, 0⟩, register), (⟨0, 0⟩, register), (⟨1, 1⟩, .daemonRegistered [0x61])]
    runCalls idleState calls = .error .spins ∧ ¬ ReleasesLocks idleState calls := by
  intro register calls
  have hspins : runCalls idleState calls = .error .spins := rfl
  refine ⟨hspins, fun h => ?_⟩
  exact h.acquires (fun _ => rfl) 3 hspins

end Runs

end Cthulhu
