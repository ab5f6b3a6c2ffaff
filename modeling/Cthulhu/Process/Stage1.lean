import Mathlib.Logic.Function.Basic
import Cthulhu.Process.Creation

/-!
# The first stage of a creation, as its caller sees it

`cp_stage_1` with the number it stores, with the table and the list that the new process is entered in,
and with all its allocations. Every failure goes to one label and returns the `error` that was set by
then. The first three tests set none, three more test another pointer than the one just made, and the
first one jumps over the initialisation of `process`. `*process_num` is cleared and never set.
-/

namespace Cthulhu

open Cthulhu.Lib

/-- What the allocators answer to one `cp_stage_1`; the last three results are those the code does not
test. `stale` says that `process` is not `NULL` where it is not initialised yet. -/
structure Stage1Allocs extends Stage1Answers where
  threads : Bool
  pqInputBuffer : Bool
  tempProcesses : Bool
  stale : Bool
deriving DecidableEq

/-- The id counter, the global `temp_processes` table and the `temp_processes` list of the creator. -/
structure Registries where
  processIdNum : ℕ
  table : ℕ → Option Proc
  list : List Proc

/-- What `cp_stage_1` returns, `none` for 0, what it stores as `*process_num`, and what it leaves. -/
structure Stage1Result where
  error : Option CreationError
  processNum : ℕ
  registries : Registries

/-- `cp_stage_1`, or `none` where it frees a pointer that was not initialised. -/
def cpStage1Call (s : Registries) (cp : Proc) (data : CpStage1) (a : Stage1Allocs) : Option Stage1Result :=
  if !a.tempProc then
    if a.stale then none else some ⟨none, 0, s⟩
  else if !a.process || !a.fds then some ⟨none, 0, s⟩
  -- what is tested behind `threads` is `fds` again
  else match stage1Priority cp data with
    | .error e => some ⟨some e, 0, s⟩
    | .ok priority =>
      -- `pq_input_buffer` and `temp_processes` are not tested either
      if !a.futexes || !a.inputBuffer || !a.blockedWaitMessages then some ⟨some .enomemInternal, 0, s⟩
      else
        let pid := add64 s.processIdNum 1
        let process := stage1Process cp data pid priority
        if !a.tableSet then some ⟨some .enomemInternal, 0, { s with processIdNum := pid }⟩
        else some ⟨none, 0, ⟨pid, Function.update s.table pid (some process), s.list ++ [process]⟩⟩

/-- `self_message`: what it returns, `none` for 0, and what it leaves. -/
def selfMessageCall (s : Registries) (cp : Proc) (command : ℕ) (data : CpStage1) (a : Stage1Allocs) :
    Option (Option CreationError × Registries) :=
  if command = 1 then
    (cpStage1Call s cp data a).map fun r =>
      match r.error with
      -- only the branch without an error returns it
      | some _ => (none, r.registries)
      | none => (r.error, r.registries)
  else some (none, s)

/-- `sys_send_message` for a message that passed or failed `validate_message`: whether the continuation is set,
what it returns, `none` for 0, and what it leaves. -/
def sysSendMessageCall (s : Registries) (cp : Proc) (valid noTarget : Bool) (gpsId : ℕ) (data : CpStage1)
    (a : Stage1Allocs) : Option (Bool × Option CreationError × Registries) :=
  if !valid then some (false, none, s)
  else
    (if noTarget then selfMessageCall s cp gpsId data a else some (none, s)).map fun r =>
      if r.1 = some .enomemInternal then (true, r.1, r.2) else (false, none, r.2)

/-- The process that a call with the record makes. -/
def MadeProcess (s : Registries) (cp : Proc) (data : CpStage1) (process : Proc) : Prop :=
  ∃ priority, stage1Priority cp data = .ok priority ∧
    process = stage1Process cp data (add64 s.processIdNum 1) priority

/-- The process is entered in the table and in the creator's list. -/
def Entered (s : Registries) (r : Stage1Result) (process : Proc) : Prop :=
  r.registries.table process.procId = some process ∧ r.registries.list = s.list ++ [process]

/-- The call is atomic and honest: it returns 0 exactly when the process it made is entered in both places, and
then it stores the id of the process; otherwise it returns an error that fits, leaves both places as they
were, and `self_message` returns the same error. -/
def HonestStage1 (s : Registries) (cp : Proc) (data : CpStage1) (a : Stage1Allocs) : Prop :=
  ∃ r, cpStage1Call s cp data a = some r ∧
    (r.error = none ↔ ∃ process, MadeProcess s cp data process ∧ Entered s r process) ∧
    (∀ process, MadeProcess s cp data process → Entered s r process → r.processNum = process.procId) ∧
    (r.error ≠ none →
      (r.error = some .einval ∧ data.priority > 4 ∨ r.error = some .enomemInternal) ∧
      r.registries.table = s.table ∧ r.registries.list = s.list ∧
      ∃ s', selfMessageCall s cp 1 data a = some (r.error, s'))

/-- Every test that the code makes passes. -/
structure Stage1Allocs.Pass (a : Stage1Allocs) (data : CpStage1) : Prop where
  tempProc : a.tempProc = true
  process : a.process = true
  fds : a.fds = true
  priority : ¬ data.priority > 4
  futexes : a.futexes = true
  inputBuffer : a.inputBuffer = true
  blockedWaitMessages : a.blockedWaitMessages = true
  tableSet : a.tableSet = true

section Stage1

variable {s : Registries} {cp : Proc} {data : CpStage1} {a : Stage1Allocs}

/-- A record whose priority is at most 4 gives one. -/
theorem stage1Priority_ok (cp : Proc) (h : ¬ data.priority > 4) : ∃ priority, stage1Priority cp data = .ok priority := by
  unfold stage1Priority
  by_cases hnegative : data.priority < 0
  · exact ⟨_, if_pos hnegative⟩
  · exact ⟨_, (if_neg hnegative).trans (if_neg h)⟩

/-- A record with a priority above 4 is refused. -/
theorem stage1Priority_error (cp : Proc) (h : data.priority > 4) : stage1Priority cp data = .error .einval := by
  have hpositive : ¬ data.priority < 0 := by
    rw [gt_iff_lt, Int8.lt_iff_toInt_lt, show (4 : Int8).toInt = 4 from rfl] at h
    rw [Int8.lt_iff_toInt_lt, show (0 : Int8).toInt = 0 from rfl]
    omega
  unfold stage1Priority
  rw [if_neg hpositive, if_pos h]

/-- A call whose tests pass enters its process in both places, and stores 0. -/
theorem cpStage1Call_pass (s : Registries) (cp : Proc) (h : a.Pass data) : ∃ process r, MadeProcess s cp data process ∧
    process.procId = add64 s.processIdNum 1 ∧ cpStage1Call s cp data a = some r ∧ r.error = none ∧ r.processNum = 0 ∧
      Entered s r process := by
  obtain ⟨priority, hpriority⟩ := stage1Priority_ok cp h.priority
  have hcall : cpStage1Call s cp data a = some ⟨none, 0, add64 s.processIdNum 1,
      Function.update s.table (add64 s.processIdNum 1) (some (stage1Process cp data (add64 s.processIdNum 1) priority)),
      s.list ++ [stage1Process cp data (add64 s.processIdNum 1) priority]⟩ := by
    unfold cpStage1Call
    rw [hpriority]
    simp [h.tempProc, h.process, h.fds, h.futexes, h.inputBuffer, h.blockedWaitMessages, h.tableSet]
  exact ⟨_, _, ⟨priority, hpriority, rfl⟩, rfl, hcall, rfl, rfl, Function.update_self _ _ _, rfl⟩

/-- A call that fails a test leaves the table and the list as they were. -/
theorem cpStage1Call_fail (h : ¬ a.Pass data) {r : Stage1Result} (hr : cpStage1Call s cp data a = some r) :
    r.registries.table = s.table ∧ r.registries.list = s.list := by
  unfold cpStage1Call at hr
  split at hr
  · split at hr
    · exact absurd hr (by simp)
    · rw [← Option.some.inj hr]
      exact ⟨rfl, rfl⟩
  split at hr
  · rw [← Option.some.inj hr]
    exact ⟨rfl, rfl⟩
  split at hr
  · rw [← Option.some.inj hr]
    exact ⟨rfl, rfl⟩
  split at hr
  · rw [← Option.some.inj hr]
    exact ⟨rfl, rfl⟩
  dsimp only at hr
  split at hr
  · rw [← Option.some.inj hr]
    exact ⟨rfl, rfl⟩
  · rename_i htemp hearly _ priority hpriority hlate hset
    refine absurd ?_ h
    have hsmall : ¬ data.priority > 4 := fun hlarge => by
      rw [stage1Priority_error cp hlarge] at hpriority
      exact absurd hpriority (by simp)
    simp only [Bool.not_eq_true', Bool.or_eq_true, not_or, Bool.not_eq_false] at htemp hearly hlate hset
    exact ⟨htemp, hearly.1, hearly.2, hsmall, hlate.1.1, hlate.1.2, hlate.2, hset⟩

/-- `self_message` returns 0 whenever it returns. -/
theorem selfMessageCall_zero {command : ℕ} {e : Option CreationError} {s' : Registries}
    (h : selfMessageCall s cp command data a = some (e, s')) : e = none := by
  unfold selfMessageCall at h
  split at h
  · obtain ⟨r, -, hr⟩ := Option.map_eq_some_iff.mp h
    cases herror : r.error with
    | none =>
      rw [herror] at hr
      exact (Prod.mk.inj hr).1.symm
    | some e' =>
      rw [herror] at hr
      exact (Prod.mk.inj hr).1.symm
  · exact (Prod.mk.inj (Option.some.inj h)).1.symm

/-- `sys_send_message` sets no continuation and returns 0 whenever it returns. -/
theorem sysSendMessageCall_zero {valid noTarget : Bool} {gpsId : ℕ} {waits : Bool} {e : Option CreationError}
    {s' : Registries} (h : sysSendMessageCall s cp valid noTarget gpsId data a = some (waits, e, s')) :
    waits = false ∧ e = none := by
  unfold sysSendMessageCall at h
  split at h
  · obtain ⟨hwaits, he, -⟩ : false = waits ∧ none = e ∧ s = s' := by simpa using h
    exact ⟨hwaits.symm, he.symm⟩
  · obtain ⟨r, hr, h⟩ := Option.map_eq_some_iff.mp h
    have hzero : r.1 = none := by
      split at hr
      · exact selfMessageCall_zero hr
      · rw [← Option.some.inj hr]
    rw [hzero, if_neg (by simp)] at h
    obtain ⟨hwaits, he, -⟩ : false = waits ∧ none = e ∧ r.2 = s' := by simpa using h
    exact ⟨hwaits.symm, he.symm⟩

/-- With a list for the table and the list of the creator together, this is the call of the process lists. -/
theorem cpStage1Call_cpStage1 {lists : ProcLists} (hcount : lists.processIdNum = s.processIdNum) {r : Stage1Result}
    (hr : cpStage1Call s cp data a = some r) :
    r.error = (cpStage1 lists cp data a.toStage1Answers).1 ∧
      r.registries.processIdNum = (cpStage1 lists cp data a.toStage1Answers).2.processIdNum ∧
      ∃ made, r.registries.list = s.list ++ made ∧
        (cpStage1 lists cp data a.toStage1Answers).2.tempProcesses = lists.tempProcesses ++ made := by
  have hkept (e : Option CreationError) (lists' : ProcLists) (htemp : lists'.tempProcesses = lists.tempProcesses)
      (hlists : cpStage1 lists cp data a.toStage1Answers = (e, lists'))
      (h : (⟨e, 0, { s with processIdNum := lists'.processIdNum }⟩ : Stage1Result) = r) :
      r.error = (cpStage1 lists cp data a.toStage1Answers).1 ∧
        r.registries.processIdNum = (cpStage1 lists cp data a.toStage1Answers).2.processIdNum ∧
        ∃ made, r.registries.list = s.list ++ made ∧
          (cpStage1 lists cp data a.toStage1Answers).2.tempProcesses = lists.tempProcesses ++ made := by
    rw [hlists, ← h]
    exact ⟨rfl, rfl, [], (List.append_nil _).symm, htemp.trans (List.append_nil _).symm⟩
  unfold cpStage1Call at hr
  split at hr
  · rename_i htemp
    split at hr
    · exact absurd hr (by simp)
    · exact hkept none lists rfl (by simp [cpStage1, htemp]) (by rw [hcount]; exact Option.some.inj hr)
  rename_i htemp
  split at hr
  · rename_i hearly
    exact hkept none lists rfl (by simp [cpStage1, hearly, Bool.or_assoc]) (by rw [hcount]; exact Option.some.inj hr)
  rename_i hearly
  have hopen : (!a.tempProc || !a.process || !a.fds) = false := by
    rw [Bool.or_assoc, (Bool.not_eq_true _).mp htemp, (Bool.not_eq_true _).mp hearly]
    rfl
  split at hr
  · rename_i e hpriority
    exact hkept (some e) lists rfl (by simp [cpStage1, hopen, hpriority]) (by rw [hcount]; exact Option.some.inj hr)
  rename_i priority hpriority
  split at hr
  · rename_i hlate
    exact hkept (some .enomemInternal) lists rfl (by simp [cpStage1, hopen, hpriority, hlate])
      (by rw [hcount]; exact Option.some.inj hr)
  rename_i hlate
  dsimp only at hr
  split at hr
  · rename_i hset
    exact hkept (some .enomemInternal) { lists with processIdNum := add64 s.processIdNum 1 } rfl
      (by simp [cpStage1, hopen, hpriority, hlate, hset, hcount]) (Option.some.inj hr)
  · rename_i hset
    rw [← Option.some.inj hr]
    simp [cpStage1, hopen, hpriority, hlate, hset, hcount]

end Stage1

/-- `cp_stage_1` is honest only where every test passes and the id counter comes round to 0. -/
theorem cpStage1_honest_iff (s : Registries) (cp : Proc) (data : CpStage1) (a : Stage1Allocs) :
    HonestStage1 s cp data a ↔ a.Pass data ∧ add64 s.processIdNum 1 = 0 := by
  constructor
  · rintro ⟨r, hr, hzero, hnumber, hfailed⟩
    by_cases hpass : a.Pass data
    · obtain ⟨process, r', hmade, hid, hr', -, hnum, hentered⟩ := cpStage1Call_pass s cp hpass
      obtain rfl : r = r' := Option.some.inj (hr.symm.trans hr')
      exact ⟨hpass, by rw [← hid, ← hnumber process hmade hentered, hnum]⟩
    · obtain ⟨-, hlist⟩ := cpStage1Call_fail hpass hr
      cases herror : r.error with
      | none =>
        obtain ⟨process, -, -, hlonger⟩ := hzero.mp herror
        rw [hlist] at hlonger
        exact absurd hlonger (by simp)
      | some e =>
        obtain ⟨-, -, -, s', hself⟩ := hfailed (by rw [herror]; simp)
        rw [selfMessageCall_zero hself] at herror
        exact absurd herror (by simp)
  · rintro ⟨hpass, hwrap⟩
    obtain ⟨process, r, hmade, hid, hr, herror, hnum, hentered⟩ := cpStage1Call_pass s cp hpass
    refine ⟨r, hr, ⟨fun _ => ⟨process, hmade, hentered⟩, fun _ => herror⟩, fun other hother hsame => ?_,
      fun hne => absurd herror hne⟩
    obtain ⟨priority, -, rfl⟩ := hother
    rw [hnum]
    exact hwrap.symm

/-- The allocation of the file descriptors fails: 0 is returned, and no process is entered. -/
theorem cpStage1_unreported :
    ¬ HonestStage1 ⟨1, fun _ => none, []⟩ ⟨1, none, true, 0, [1]⟩ ⟨true, true, 0⟩
      ⟨⟨true, true, false, true, true, true, true⟩, true, true, true, false⟩ := by
  rintro ⟨r, hr, hzero, -⟩
  obtain rfl : r = ⟨none, 0, 1, fun _ => none, []⟩ := (Option.some.inj hr).symm
  obtain ⟨process, -, -, hlist⟩ := hzero.mp rfl
  exact absurd hlist (by simp)

end Cthulhu
