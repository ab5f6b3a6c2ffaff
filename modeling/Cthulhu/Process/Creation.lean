import Cthulhu.Word
import Cthulhu.Lib.Run

/-!
# Process creation

The two ways a process comes to be after boot: `create_process_base`, reached through the
`create_process_ivfs` system call, and `cp_stage_1`, reached through a message to the kernel.
Each event names the process whose thread enters the kernel. What the allocators, the validators
and the loader answer is part of the event.

Both paths lack a test that the other one has: `create_process_base` sets `pprocess` for any creator,
and `cp_stage_1` takes any priority from 0 to 4. A creation that makes up for the missing test gains
nothing, and so does a run of such creations.
-/

namespace Cthulhu

open Cthulhu.Lib

/-- The error codes the creation paths return. -/
inductive CreationError where
  | einval
  | enoent
  | enomemInternal
deriving DecidableEq

/-- `proc_t`: the fields that decide what a process may do, with the ids of its threads. -/
structure Proc where
  procId : ℕ
  parent : Option ℕ
  pprocess : Bool
  priority : ℕ
  threads : List ℕ
deriving DecidableEq

/-- A creation that succeeded: the creator as it was, and the process it made. -/
structure Creation where
  creator : Proc
  created : Proc
deriving DecidableEq

/-- The process lists and id counters of `process.c`, with the creations made so far. -/
structure ProcLists where
  processIdNum : ℕ
  threadIdNum : ℕ
  processes : List Proc
  tempProcesses : List Proc
  creations : List Creation
deriving DecidableEq

/-- `initialize_processes` followed by `create_init_process_structure`. -/
def bootProcesses : ProcLists where
  processIdNum := 1
  threadIdNum := 1
  processes := [⟨1, none, true, 0, [1]⟩]
  tempProcesses := []
  creations := []

/-- Every process that has been created and not freed. -/
def ProcLists.all (s : ProcLists) : List Proc := s.processes ++ s.tempProcesses

/-- The process with an id, `get_current_process` for a thread of it. -/
def ProcLists.process (s : ProcLists) (pid : ℕ) : Option Proc := s.all.find? fun p => decide (p.procId = pid)

/-- What the allocators and the loader answer to one `create_process_base`, in the order asked.
The results for `threads`, `pq_input_buffer` and `temp_processes` are missing: the code tests
another pointer there. -/
structure BaseAnswers where
  cpyArgv : Bool
  cpyEnvp : Bool
  process : Bool
  fds : Bool
  pml4 : Bool
  futexes : Bool
  inputBuffer : Bool
  blockedWaitMessages : Bool
  mainThread : Bool
  continuation : Bool
  futexBlock : Bool
  elf : ℕ
  cpyArgvUser : Bool
  cpyEnvpUser : Bool
  localInfo : Bool
  messages : ℕ → Bool

/-- The return with `error` that a failed test takes. -/
def orReturn (ok : Bool) (error : CreationError) : Except CreationError Unit :=
  if ok then .ok () else .error error

/-- The tests of `create_process_base` after the priority test, in source order. -/
def BaseAnswers.accepted (a : BaseAnswers) : Except CreationError Unit := do
  orReturn a.cpyArgv .enomemInternal
  orReturn a.cpyEnvp .enomemInternal
  orReturn a.process .enomemInternal
  orReturn a.fds .enomemInternal
  orReturn a.fds .enomemInternal
  orReturn a.pml4 .enomemInternal
  orReturn a.futexes .enomemInternal
  orReturn a.inputBuffer .enomemInternal
  orReturn a.inputBuffer .enomemInternal
  orReturn a.blockedWaitMessages .enomemInternal
  orReturn a.blockedWaitMessages .enomemInternal
  orReturn a.mainThread .enomemInternal
  orReturn a.continuation .enomemInternal
  orReturn a.futexBlock .enomemInternal
  -- ELF_ERROR_ENOMEM is 11; every other loader error becomes EINVAL
  orReturn (a.elf == 0) (if a.elf = 11 then .enomemInternal else .einval)
  orReturn a.cpyArgvUser .enomemInternal
  orReturn a.cpyEnvpUser .enomemInternal
  orReturn a.localInfo .enomemInternal
  orReturn ((List.range 30).all a.messages) .enomemInternal

/-- `create_process_base`: the lists after the call and the process, which has a main thread. -/
def createProcessBase (s : ProcLists) (cp : Proc) (askedPriority : ℕ) (a : BaseAnswers) :
    Except CreationError (ProcLists × Proc) := do
  if cp.priority > askedPriority then
    throw .einval
  a.accepted
  let tid := add64 s.threadIdNum 1
  let pid := add64 s.processIdNum 1
  let process : Proc := ⟨pid, none, true, askedPriority, [tid]⟩
  return ({ s with threadIdNum := tid, processIdNum := pid, processes := s.processes ++ [process] }, process)

/-- The arguments of `create_process_ivfs` as the kernel's tests see them: whether the path, the
argument vector, its strings and the first environment slot pass validation, the string in that
slot (`none` for `NULL`) and the path element found (`some true` for a directory). -/
structure IvfsRequest where
  pathValid : Bool
  argvValid : Bool
  argsValid : List Bool
  envpValid : Bool
  env : Option Bool
  element : Option Bool

/-- The tests of `create_process_ivfs`. The environment loop never advances its index, so it goes
round forever, `none`, when the first slot holds a valid string. -/
def IvfsRequest.accepted (q : IvfsRequest) : Option (Except CreationError Unit) :=
  if !q.pathValid || !q.argvValid || !q.argsValid.all id || !q.envpValid then some (.error .einval)
  else match q.env with
    | some false => some (.error .einval)
    | some true => none
    | none => match q.element with
      | some false => some (.ok ())
      | _ => some (.error .enoent)

/-- `create_process_ivfs`: priority 0 is asked for, and the caller becomes the parent. -/
def createProcessIvfs (s : ProcLists) (cp : Proc) (q : IvfsRequest) (a : BaseAnswers) :
    Option (Except CreationError ProcLists) :=
  match q.accepted with
  | none => none
  | some (.error e) => some (.error e)
  | some (.ok ()) => match createProcessBase s cp 0 a with
    | .error e => some (.error e)
    | .ok (s', process) =>
      -- the process is already on the list; its `parent` field is set there
      let child := { process with parent := some cp.procId }
      some (.ok { s' with
        processes := s.processes ++ [child],
        creations := s'.creations ++ [⟨cp, child⟩] })

/-- `cp_stage1`, the record a user sends with the first stage of a creation. -/
structure CpStage1 where
  parent : Bool
  privilege : Bool
  priority : Int8
deriving DecidableEq

/-- What the allocators answer to one `cp_stage_1`, in the order asked. -/
structure Stage1Answers where
  tempProc : Bool
  process : Bool
  fds : Bool
  futexes : Bool
  inputBuffer : Bool
  blockedWaitMessages : Bool
  tableSet : Bool
deriving DecidableEq

/-- The priority `cp_stage_1` takes from the record: the creator's for a negative one. -/
def stage1Priority (cp : Proc) (data : CpStage1) : Except CreationError ℕ :=
  if data.priority < 0 then .ok cp.priority
  else if data.priority > 4 then .error .einval
  else .ok data.priority.toInt.toNat

/-- The process `cp_stage_1` fills in: privileged when asked for by a privileged creator, and without
a thread. -/
def stage1Process (cp : Proc) (data : CpStage1) (pid priority : ℕ) : Proc :=
  ⟨pid, if data.parent then some cp.procId else none, data.privilege && cp.pprocess, priority, []⟩

/-- `cp_stage_1`: the error returned, `none` for 0, and the lists after the call. Some failures
return 0 as well, since `error` is set only on the later ones; the process is freed there. -/
def cpStage1 (s : ProcLists) (cp : Proc) (data : CpStage1) (a : Stage1Answers) :
    Option CreationError × ProcLists :=
  if !a.tempProc || !a.process || !a.fds then (none, s)
  else match stage1Priority cp data with
    | .error e => (some e, s)
    | .ok priority =>
      if !a.futexes || !a.inputBuffer || !a.blockedWaitMessages then (some .enomemInternal, s)
      else
        let pid := add64 s.processIdNum 1
        let process := stage1Process cp data pid priority
        if !a.tableSet then (some .enomemInternal, { s with processIdNum := pid })
        else
          (none, { s with
            processIdNum := pid,
            tempProcesses := s.tempProcesses ++ [process],
            creations := s.creations ++ [⟨cp, process⟩] })

/-- `self_message`: an error of the first stage is dropped. -/
def selfMessage (s : ProcLists) (cp : Proc) (command : ℕ) (data : CpStage1) (a : Stage1Answers) :
    ProcLists :=
  if command = 1 then (cpStage1 s cp data a).2 else s

/-- `sys_send_message` for a message that passed or failed `validate_message`. -/
def sysSendMessage (s : ProcLists) (cp : Proc) (valid noTarget : Bool) (gpsId : ℕ) (data : CpStage1)
    (a : Stage1Answers) : ProcLists :=
  if valid && noTarget then selfMessage s cp gpsId data a else s

/-- What a thread asks the kernel for to create a process, with what it meets there. -/
inductive CreationRequest where
  | createProcessIvfs (request : IvfsRequest) (answers : BaseAnswers)
  | sysSendMessage (valid noTarget : Bool) (gpsId : ℕ) (data : CpStage1) (answers : Stage1Answers)

/-- A request of one process. -/
structure CreationEvent where
  creator : ℕ
  request : CreationRequest

/-- One request made by process `cp`. -/
def ProcLists.createBy (s : ProcLists) (cp : Proc) : CreationRequest → ProcLists
  | .createProcessIvfs request answers =>
    match createProcessIvfs s cp request answers with
    | some (.ok s') => s'
    | _ => s
  | .sysSendMessage valid noTarget gpsId data answers => sysSendMessage s cp valid noTarget gpsId data answers

/-- One event. A process that is not there asks for nothing. -/
def creationStep (s : ProcLists) (e : CreationEvent) : ProcLists :=
  match s.process e.creator with
  | some cp => s.createBy cp e.request
  | none => s

/-- Nothing is gained from creator to child: no privilege it lacks and no smaller priority. -/
def Creation.NoGain (c : Creation) : Prop :=
  (c.creator.pprocess = false → c.created.pprocess = false) ∧ c.creator.priority ≤ c.created.priority

/-- What one request by process `cp` can do to the lists, whoever `cp` is. -/
inductive CreationOutcome (s : ProcLists) (cp : Proc) (s' : ProcLists) : CreationRequest → Prop where
  | unchanged (e : CreationRequest) (hcreations : s'.creations = s.creations) : CreationOutcome s cp s' e
  | based (request : IvfsRequest) (answers : BaseAnswers) (child : Proc) (hcreator : cp.priority = 0)
      (hprivilege : child.pprocess = true) (hpriority : child.priority = 0)
      (hcreations : s'.creations = s.creations ++ [⟨cp, child⟩]) :
      CreationOutcome s cp s' (.createProcessIvfs request answers)
  | staged (valid noTarget : Bool) (gpsId : ℕ) (data : CpStage1) (answers : Stage1Answers) (child : Proc)
      (hprivilege : child.pprocess = (data.privilege && cp.pprocess))
      (hpriority : stage1Priority cp data = .ok child.priority)
      (hcreations : s'.creations = s.creations ++ [⟨cp, child⟩]) :
      CreationOutcome s cp s' (.sysSendMessage valid noTarget gpsId data answers)

/-- A base creation that succeeds leaves a privileged process with the priority asked for, which is
no smaller than the creator's. -/
theorem createProcessBase_ok {s s' : ProcLists} {cp process : Proc} {askedPriority : ℕ} {a : BaseAnswers}
    (h : createProcessBase s cp askedPriority a = .ok (s', process)) :
    cp.priority ≤ askedPriority ∧ process.pprocess = true ∧ process.priority = askedPriority ∧
      s'.creations = s.creations := by
  unfold createProcessBase at h
  by_cases hpriority : cp.priority > askedPriority
  · simp [hpriority, throw, throwThe, MonadExceptOf.throw, bind, Except.bind] at h
  · cases haccepted : a.accepted with
    | error e => simp [hpriority, haccepted, bind, Except.bind] at h
    | ok u =>
      simp only [hpriority, haccepted, bind, Except.bind, pure, Except.pure, if_false, Except.ok.injEq,
        Prod.mk.injEq] at h
      obtain ⟨rfl, rfl⟩ := h
      exact ⟨Nat.le_of_not_gt hpriority, rfl, rfl, rfl⟩

/-- The outcome of the system call. -/
theorem createProcessIvfs_outcome {s s' : ProcLists} {cp : Proc} {q : IvfsRequest} {a : BaseAnswers}
    (h : createProcessIvfs s cp q a = some (.ok s')) : CreationOutcome s cp s' (.createProcessIvfs q a) := by
  unfold createProcessIvfs at h
  split at h
  · cases h
  · cases h
  · split at h
    · cases h
    · rename_i base process hbase
      obtain ⟨hcreator, hprivilege, hpriority, hcreations⟩ := createProcessBase_ok hbase
      simp only [Option.some.injEq, Except.ok.injEq] at h
      subst h
      refine .based q a { process with parent := some cp.procId } (Nat.le_zero.mp hcreator) hprivilege hpriority ?_
      rw [hcreations]

/-- The outcome of any request. -/
theorem createBy_outcome (s : ProcLists) (cp : Proc) (e : CreationRequest) :
    CreationOutcome s cp (s.createBy cp e) e := by
  cases e with
  | createProcessIvfs request answers =>
    simp only [ProcLists.createBy]
    split
    · rename_i s' h
      exact createProcessIvfs_outcome h
    · exact .unchanged _ rfl
  | sysSendMessage valid noTarget gpsId data answers =>
    simp only [ProcLists.createBy, sysSendMessage, selfMessage]
    split
    · split
      · unfold cpStage1
        split
        · exact .unchanged _ rfl
        · split
          · exact .unchanged _ rfl
          · rename_i priority hpriority
            split
            · exact .unchanged _ rfl
            · split
              · exact .unchanged _ rfl
              · exact .staged valid noTarget gpsId data answers
                  (stage1Process cp data (add64 s.processIdNum 1) priority) rfl hpriority rfl
      · exact .unchanged _ rfl
    · exact .unchanged _ rfl

/-- The request makes up for the test that its path lacks: the system call comes from a privileged process, and the
record of the message asks for the sender's priority or for one that is no smaller. -/
def CreationRequest.Harmless (cp : Proc) : CreationRequest → Prop
  | .createProcessIvfs _ _ => cp.pprocess = true
  | .sysSendMessage _ _ _ data _ => data.priority < 0 ∨ cp.priority ≤ data.priority.toInt.toNat

/-- One creation gains something exactly when its request is not harmless. -/
theorem createBy_noGain_iff {s : ProcLists} {cp : Proc} {e : CreationRequest} {c : Creation}
    (hnew : (s.createBy cp e).creations = s.creations ++ [c]) : c.NoGain ↔ e.Harmless cp := by
  have hcreated {child : Proc} (h : (s.createBy cp e).creations = s.creations ++ [⟨cp, child⟩]) :
      c = ⟨cp, child⟩ := by
    simpa [h, eq_comm] using hnew
  cases createBy_outcome s cp e with
  | unchanged e hcreations => simp [hcreations] at hnew
  | based request answers child hcreator hprivilege hpriority hcreations =>
    rw [hcreated hcreations]
    simp [Creation.NoGain, CreationRequest.Harmless, hprivilege, hcreator]
  | staged valid noTarget gpsId data answers child hprivilege hpriority hcreations =>
    rw [hcreated hcreations]
    have hprivileged : cp.pprocess = false → child.pprocess = false := by
      intro hnot
      rw [hprivilege, hnot, Bool.and_false]
    unfold stage1Priority at hpriority
    simp only [Creation.NoGain, CreationRequest.Harmless]
    split at hpriority
    · rename_i hnegative
      rw [Except.ok.injEq] at hpriority
      rw [← hpriority]
      exact ⟨fun _ => Or.inl hnegative, fun _ => ⟨hprivileged, Nat.le_refl _⟩⟩
    · rename_i hnegative
      split at hpriority
      · cases hpriority
      · rw [Except.ok.injEq] at hpriority
        rw [← hpriority]
        exact ⟨fun h => Or.inr h.2, fun h => ⟨hprivileged, h.resolve_left hnegative⟩⟩

/-- A request makes no process or one. -/
theorem createBy_creations (s : ProcLists) (cp : Proc) (e : CreationRequest) :
    (s.createBy cp e).creations = s.creations ∨ ∃ c, (s.createBy cp e).creations = s.creations ++ [c] := by
  cases createBy_outcome s cp e with
  | unchanged e hcreations => exact Or.inl hcreations
  | based request answers child hcreator hprivilege hpriority hcreations => exact Or.inr ⟨_, hcreations⟩
  | staged valid noTarget gpsId data answers child hprivilege hpriority hcreations => exact Or.inr ⟨_, hcreations⟩

/-- The event's request is harmless for the process that makes it. -/
def CreationEvent.Harmless (s : ProcLists) (e : CreationEvent) : Prop :=
  ∀ cp, s.process e.creator = some cp → e.request.Harmless cp

/-- A harmless event adds no creation that gains something. -/
theorem creationStep_noGain {s : ProcLists} {e : CreationEvent} (hs : ∀ c ∈ s.creations, c.NoGain) (he : e.Harmless s) :
    ∀ c ∈ (creationStep s e).creations, c.NoGain := by
  unfold creationStep
  cases hcreator : s.process e.creator with
  | none => exact hs
  | some cp =>
    dsimp only
    rcases createBy_creations s cp e.request with hsame | ⟨c, hnew⟩
    · rw [hsame]
      exact hs
    · have hgain := (createBy_noGain_iff hnew).mpr (he cp hcreator)
      rw [hnew]
      intro d hd
      rcases List.mem_append.mp hd with hold | hlast
      · exact hs d hold
      · obtain rfl := List.mem_singleton.mp hlast
        exact hgain

/-- Privilege and priority along a run. From any processes on, a run whose requests are all harmless creates no
privileged process from an unprivileged one and none with a smaller priority than its creator's; and a request that
creates a process gains something exactly when it is not harmless, whoever makes it. -/
theorem creations_noGain (s : ProcLists) (hs : ∀ c ∈ s.creations, c.NoGain) (events : List CreationEvent) :
    (Guarded creationStep (fun s e => e.Harmless s) s events →
      ∀ c ∈ (run creationStep s events).creations,
        (c.creator.pprocess = false → c.created.pprocess = false) ∧ c.creator.priority ≤ c.created.priority) ∧
    ∀ before cp e c, (ProcLists.createBy before cp e).creations = before.creations ++ [c] →
      ((c.creator.pprocess = false → c.created.pprocess = false) ∧ c.creator.priority ≤ c.created.priority ↔
        e.Harmless cp) :=
  ⟨fun hguard => hguard.invariant (fun s : ProcLists => ∀ c ∈ s.creations, c.NoGain)
    (fun _ _ hs he => creationStep_noGain hs he) hs, fun _ _ _ _ hnew => createBy_noGain_iff hnew⟩

/-- The boot process has an unprivileged process of priority 3 made, which has one of its own priority made. -/
def stagedEvents : List CreationEvent :=
  [⟨1, .sysSendMessage true true 1 ⟨true, false, 3⟩ ⟨true, true, true, true, true, true, true⟩⟩,
    ⟨2, .sysSendMessage true true 1 ⟨true, true, -1⟩ ⟨true, true, true, true, true, true, true⟩⟩]

/-- The second one is unprivileged although its creator asks for privilege. -/
theorem creations_noGain_staged :
    (⟨⟨2, some 1, false, 3, []⟩, ⟨3, some 2, false, 3, []⟩⟩ : Creation) ∈ (run creationStep bootProcesses stagedEvents).creations ∧
      (⟨3, some 2, false, 3, []⟩ : Proc).pprocess = false := by
  have hmem : (⟨⟨2, some 1, false, 3, []⟩, ⟨3, some 2, false, 3, []⟩⟩ : Creation) ∈
      (run creationStep bootProcesses stagedEvents).creations := by
    decide
  have hguard : Guarded creationStep (fun s e => e.Harmless s) bootProcesses stagedEvents := by
    refine ⟨fun cp hcp => ?_, fun cp hcp => ?_, True.intro⟩
    · obtain rfl : (⟨1, none, true, 0, [1]⟩ : Proc) = cp := Option.some.inj hcp
      exact Or.inr (by decide)
    · exact Or.inl (by decide)
  exact ⟨hmem, ((creations_noGain bootProcesses (fun _ hc => absurd hc List.not_mem_nil) stagedEvents).1 hguard _ hmem).1 rfl⟩

/-- Answers with which everything succeeds. -/
def goodAnswers : BaseAnswers := ⟨true, true, true, true, true, true, true, true, true, true, true, 0, true, true, true, fun _ => true⟩

/-- An unprivileged process, made by the boot process with priority 0, creates a privileged one; and an unprivileged process of
priority 3 has one of priority 0 made. -/
theorem creations_escalate :
    (⟨⟨2, some 1, false, 0, []⟩, ⟨3, some 2, true, 0, [2]⟩⟩ : Creation) ∈ (run creationStep bootProcesses
        [⟨1, .sysSendMessage true true 1 ⟨true, false, 0⟩ ⟨true, true, true, true, true, true, true⟩⟩,
          ⟨2, .createProcessIvfs ⟨true, true, [], true, none, some false⟩ goodAnswers⟩]).creations ∧
      (⟨⟨2, some 1, false, 3, []⟩, ⟨3, some 2, false, 0, []⟩⟩ : Creation) ∈ (run creationStep bootProcesses
        [⟨1, .sysSendMessage true true 1 ⟨true, false, 3⟩ ⟨true, true, true, true, true, true, true⟩⟩,
          ⟨2, .sysSendMessage true true 1 ⟨true, false, 0⟩ ⟨true, true, true, true, true, true, true⟩⟩]).creations ∧
      ¬ (∀ events, ∀ c ∈ (run creationStep bootProcesses events).creations,
        (c.creator.pprocess = false → c.created.pprocess = false) ∧ c.creator.priority ≤ c.created.priority) := by
  have hprivileged : (⟨⟨2, some 1, false, 0, []⟩, ⟨3, some 2, true, 0, [2]⟩⟩ : Creation) ∈ (run creationStep bootProcesses
      [⟨1, .sysSendMessage true true 1 ⟨true, false, 0⟩ ⟨true, true, true, true, true, true, true⟩⟩,
        ⟨2, .createProcessIvfs ⟨true, true, [], true, none, some false⟩ goodAnswers⟩]).creations := by
    decide
  refine ⟨hprivileged, by decide, fun hall => ?_⟩
  exact Bool.noConfusion ((hall _ _ hprivileged).1 rfl)

end Cthulhu
