import Cthulhu.Process.Stage1

/-!
# Message buffers

A process has thirty buffers for outgoing messages. `get_empty_message` marks the first unused one and
hands out its message, and `sys_send_message` passes the message on. Neither it nor anything else clears the
mark, so a process can obtain thirty messages in all, however many of them it has sent.
-/

namespace Cthulhu

open Lib

/-- `MESSAGE_BUFFER_CNT`. -/
def messageBufferCnt : ℕ := 30

/-- `_message_t`: the mark, and the address of the message. -/
structure MessageBuffer where
  used : Bool
  message : ℕ
deriving DecidableEq

/-- What `get_empty_message` answers; a message comes with the index of its buffer. -/
inductive MessageAnswer
  | einval
  | etryagain
  | given (index message : ℕ)
deriving DecidableEq

/-- The loop of `get_empty_message`: the index and the message of the first unused buffer, and the buffers with
it marked. -/
def takeUnused : List MessageBuffer → Option (ℕ × ℕ × List MessageBuffer)
  | [] => none
  | m :: rest =>
    if !m.used then some (0, m.message, { m with used := true } :: rest)
    else (takeUnused rest).map fun r => (r.1 + 1, r.2.1, m :: r.2.2)

/-- `get_empty_message`; `valid` is what `validate_address` returns. -/
def getEmptyMessage (valid : Bool) (outputBuffer : List MessageBuffer) : MessageAnswer × List MessageBuffer :=
  if !valid then (.einval, outputBuffer)
  else
    match takeUnused outputBuffer with
    | some (index, message, buffers) => (.given index message, buffers)
    | none => (.etryagain, outputBuffer)

/-- `get_free_message` of the library, which asks again after `ETRYAGAIN`. -/
def getFreeMessage (valid : Bool) : ℕ → List MessageBuffer → Option (Option ℕ × List MessageBuffer)
  | 0, _ => none
  | fuel + 1, outputBuffer =>
    match getEmptyMessage valid outputBuffer with
    | (.etryagain, buffers) => getFreeMessage valid fuel buffers
    | (.einval, buffers) => some (none, buffers)
    | (.given _ message, buffers) => some (some message, buffers)

/-- The buffers that `create_process_base` sets up, with the addresses that `proc_alloc_direct` gave. -/
def createOutputBuffer (address : ℕ → ℕ) : List MessageBuffer :=
  (List.range messageBufferCnt).map fun i => ⟨false, address i⟩

/-- A process that sends messages: its buffers, the registries that a sent message can change, and the buffers of
the messages it has obtained and not sent yet. -/
structure MessageSender where
  outputBuffer : List MessageBuffer
  registries : Registries
  outstanding : List ℕ

/-- A call that obtains a message, or one that sends the message of a buffer. -/
inductive MessageOp
  | get (valid : Bool)
  | send (index : ℕ) (valid noTarget : Bool) (gpsId : ℕ) (data : CpStage1) (answers : Stage1Allocs)

namespace MessageOp

/-- The call sends a message. -/
def isSend : MessageOp → Bool
  | .get _ => false
  | .send .. => true

/-- The system call of a message operation, made by a process. -/
def step (cp : Proc) (st : MessageSender) : MessageOp → MessageSender
  | .get valid =>
    match getEmptyMessage valid st.outputBuffer with
    | (.given index _, buffers) => { st with outputBuffer := buffers, outstanding := st.outstanding ++ [index] }
    | (_, buffers) => { st with outputBuffer := buffers }
  | .send index valid noTarget gpsId data answers =>
    match sysSendMessageCall st.registries cp valid noTarget gpsId data answers with
    | some (_, _, registries) => { st with registries, outstanding := st.outstanding.erase index }
    | none => { st with outstanding := st.outstanding.erase index }

/-- A message is obtained while fewer than thirty are outstanding, and only outstanding ones are sent. -/
def Allowed (st : MessageSender) : MessageOp → Prop
  | .get _ => st.outstanding.length < messageBufferCnt
  | .send index .. => index ∈ st.outstanding

instance (st : MessageSender) (op : MessageOp) : Decidable (Allowed st op) :=
  match op with
  | .get _ => inferInstanceAs (Decidable (_ < _))
  | .send .. => inferInstanceAs (Decidable (_ ∈ _))

end MessageOp

/-- The number of marked buffers. -/
def usedCount (outputBuffer : List MessageBuffer) : ℕ := outputBuffer.countP (·.used)

/-- Buffers are recycled: no more are marked than messages are outstanding, these have different buffers, and
as long as fewer than thirty are outstanding the next one is obtained. -/
structure Recycled (st : MessageSender) : Prop where
  count : usedCount st.outputBuffer ≤ st.outstanding.length
  distinct : st.outstanding.Nodup
  answered : st.outstanding.length < messageBufferCnt → (getEmptyMessage true st.outputBuffer).1 ≠ .etryagain

section Take

variable {outputBuffer : List MessageBuffer}

/-- The first unused buffer is marked. -/
theorem takeUnused_some {r : ℕ × ℕ × List MessageBuffer} (h : takeUnused outputBuffer = some r) :
    ∃ before m after, outputBuffer = before ++ m :: after ∧ m.used = false ∧ r.1 = before.length ∧ r.2.1 = m.message ∧
      r.2.2 = before ++ { m with used := true } :: after := by
  induction outputBuffer generalizing r with
  | nil => exact absurd h (by simp [takeUnused])
  | cons m rest ih =>
    unfold takeUnused at h
    split at h
    · rename_i hunused
      rw [← Option.some.inj h]
      exact ⟨[], m, rest, rfl, by simpa using hunused, rfl, rfl, rfl⟩
    · obtain ⟨r', hr', rfl⟩ := Option.map_eq_some_iff.mp h
      obtain ⟨before, m', after, hrest, hunused, hindex, hmessage, hmarked⟩ := ih hr'
      exact ⟨m :: before, m', after, by rw [hrest]; rfl, hunused, by rw [hindex]; rfl, hmessage, by rw [hmarked]; rfl⟩

/-- No buffer is unused. -/
theorem takeUnused_none (h : takeUnused outputBuffer = none) : ∀ m ∈ outputBuffer, m.used = true := by
  induction outputBuffer with
  | nil => simp
  | cons m rest ih =>
    unfold takeUnused at h
    split at h
    · exact absurd h (by simp)
    · rename_i hused
      rw [List.forall_mem_cons]
      exact ⟨by simpa using hused, ih (Option.map_eq_none_iff.mp h)⟩

/-- `get_empty_message` marks an unused buffer and gives its message, refuses the pointer, or finds every buffer
marked. -/
theorem getEmptyMessage_cases (valid : Bool) (outputBuffer : List MessageBuffer) :
    (∃ before m after, outputBuffer = before ++ m :: after ∧ m.used = false ∧
        getEmptyMessage valid outputBuffer =
          (.given before.length m.message, before ++ { m with used := true } :: after)) ∨
      getEmptyMessage valid outputBuffer = (.einval, outputBuffer) ∨
      getEmptyMessage valid outputBuffer = (.etryagain, outputBuffer) ∧ ∀ m ∈ outputBuffer, m.used = true := by
  unfold getEmptyMessage
  split
  · exact Or.inr (Or.inl rfl)
  · cases htake : takeUnused outputBuffer with
    | none => exact Or.inr (Or.inr ⟨rfl, takeUnused_none htake⟩)
    | some r =>
      obtain ⟨before, m, after, hsplit, hunused, hindex, hmessage, hmarked⟩ := takeUnused_some htake
      obtain ⟨index, message, buffers⟩ := r
      exact Or.inl ⟨before, m, after, hsplit, hunused, by rw [← hindex, ← hmarked, ← hmessage]⟩

/-- Once every buffer is marked, the library asks for ever. -/
theorem getFreeMessage_full (h : ∀ m ∈ outputBuffer, m.used = true) (fuel : ℕ) :
    getFreeMessage true fuel outputBuffer = none := by
  have hget : getEmptyMessage true outputBuffer = (.etryagain, outputBuffer) := by
    rcases getEmptyMessage_cases true outputBuffer with ⟨before, m, after, hsplit, hunused, -⟩ | hinvalid | ⟨hfull, -⟩
    · rw [h m (by rw [hsplit]; simp)] at hunused
      exact absurd hunused (by decide)
    · unfold getEmptyMessage at hinvalid
      rw [if_neg (by decide)] at hinvalid
      split at hinvalid
      · exact absurd (Prod.mk.inj hinvalid).1 (by simp)
      · exact absurd (Prod.mk.inj hinvalid).1 (by simp)
    · exact hfull
  induction fuel with
  | zero => rfl
  | succ fuel ih =>
    unfold getFreeMessage
    rw [hget]
    exact ih

end Take

/-- The outstanding messages are in different buffers, which are marked. -/
structure Outstanding (st : MessageSender) : Prop where
  length : st.outputBuffer.length = messageBufferCnt
  distinct : st.outstanding.Nodup
  marked : ∀ i ∈ st.outstanding, ∃ m, st.outputBuffer[i]? = some m ∧ m.used = true

section Step

variable {cp : Proc} {st : MessageSender}

/-- Obtaining a message marks one more buffer for one more outstanding message, or changes nothing. -/
theorem Outstanding.get (h : Outstanding st) (valid : Bool) :
    Outstanding (MessageOp.step cp st (.get valid)) ∧
      usedCount (MessageOp.step cp st (.get valid)).outputBuffer + st.outstanding.length =
        usedCount st.outputBuffer + (MessageOp.step cp st (.get valid)).outstanding.length := by
  unfold MessageOp.step
  dsimp only
  rcases getEmptyMessage_cases valid st.outputBuffer with ⟨before, m, after, hsplit, hunused, hget⟩ | hget | ⟨hget, -⟩
  · rw [hget]
    obtain ⟨hlength, hdistinct, hmarked⟩ := h
    rw [hsplit] at hlength hmarked
    have hfresh : before.length ∉ st.outstanding := by
      intro hmem
      obtain ⟨m', hm', hused⟩ := hmarked _ hmem
      rw [List.getElem?_append_right (Nat.le_refl _), Nat.sub_self, List.getElem?_cons_zero] at hm'
      rw [← Option.some.inj hm', hunused] at hused
      exact absurd hused (by decide)
    refine ⟨⟨?_, ?_, fun i hi => ?_⟩, ?_⟩
    · simpa using hlength
    · dsimp only
      rw [List.nodup_append]
      refine ⟨hdistinct, by simp, fun i hi j hj hij => hfresh ?_⟩
      rw [← List.mem_singleton.mp hj, ← hij]
      exact hi
    · dsimp only at hi ⊢
      rcases List.mem_append.mp hi with hold | hnew
      · obtain ⟨m', hm', hused⟩ := hmarked i hold
        have hne : i ≠ before.length := fun heq => hfresh (heq ▸ hold)
        refine ⟨m', ?_, hused⟩
        rcases Nat.lt_or_gt_of_ne hne with hlt | hgt
        · rwa [List.getElem?_append_left hlt] at hm' ⊢
        · rw [List.getElem?_append_right (Nat.le_of_lt hgt)] at hm' ⊢
          obtain ⟨k, hk⟩ : ∃ k, i - before.length = k + 1 := ⟨i - before.length - 1, by omega⟩
          rw [hk, List.getElem?_cons_succ] at hm' ⊢
          exact hm'
      · rw [List.mem_singleton.mp hnew, List.getElem?_append_right (Nat.le_refl _), Nat.sub_self, List.getElem?_cons_zero]
        exact ⟨_, rfl, rfl⟩
    · unfold usedCount
      rw [hsplit]
      simp only [List.countP_append, List.countP_cons, hunused, List.length_append, List.length_singleton]
      simp
      omega
  · rw [hget]
    exact ⟨h, rfl⟩
  · rw [hget]
    exact ⟨h, rfl⟩

/-- Sending a message leaves the buffers as they are. -/
theorem Outstanding.send (h : Outstanding st) {index : ℕ} (hindex : index ∈ st.outstanding) (valid noTarget : Bool)
    (gpsId : ℕ) (data : CpStage1) (answers : Stage1Allocs) :
    Outstanding (MessageOp.step cp st (.send index valid noTarget gpsId data answers)) ∧
      (MessageOp.step cp st (.send index valid noTarget gpsId data answers)).outputBuffer = st.outputBuffer ∧
      (MessageOp.step cp st (.send index valid noTarget gpsId data answers)).outstanding.length + 1 =
        st.outstanding.length := by
  have hsent (registries : Registries) : Outstanding ⟨st.outputBuffer, registries, st.outstanding.erase index⟩ :=
    ⟨h.length, h.distinct.erase index, fun i hi => h.marked i (List.mem_of_mem_erase hi)⟩
  have hlength : (st.outstanding.erase index).length + 1 = st.outstanding.length := by
    rw [List.length_erase_of_mem hindex]
    have hpositive := List.length_pos_of_mem hindex
    omega
  unfold MessageOp.step
  dsimp only
  split
  · exact ⟨hsent _, rfl, hlength⟩
  · exact ⟨hsent _, rfl, hlength⟩

/-- Along a run, as many buffers are marked as messages are outstanding or sent. -/
theorem Outstanding.run (h : Outstanding st) {ops : List MessageOp}
    (hops : Guarded (MessageOp.step cp) MessageOp.Allowed st ops) :
    Outstanding (run (MessageOp.step cp) st ops) ∧
      usedCount (Lib.run (MessageOp.step cp) st ops).outputBuffer + st.outstanding.length =
        usedCount st.outputBuffer + (Lib.run (MessageOp.step cp) st ops).outstanding.length + ops.countP (·.isSend) := by
  induction ops generalizing st with
  | nil => exact ⟨h, rfl⟩
  | cons op ops ih =>
    obtain ⟨hallowed, hrest⟩ := hops
    have hrun : Lib.run (MessageOp.step cp) st (op :: ops) =
        Lib.run (MessageOp.step cp) (MessageOp.step cp st op) ops := rfl
    rw [hrun]
    cases op with
    | get valid =>
      obtain ⟨hnext, hcount⟩ := @Outstanding.get cp st h valid
      obtain ⟨hend, htotal⟩ := ih hnext hrest
      refine ⟨hend, ?_⟩
      rw [List.countP_cons_of_neg (by simp [MessageOp.isSend])]
      omega
    | send index valid noTarget gpsId data answers =>
      obtain ⟨hnext, hbuffers, hcount⟩ := @Outstanding.send cp st h index hallowed valid noTarget gpsId data answers
      obtain ⟨hend, htotal⟩ := ih hnext hrest
      rw [hbuffers] at htotal
      refine ⟨hend, ?_⟩
      rw [List.countP_cons_of_pos (by simp [MessageOp.isSend])]
      omega

end Step

/-- A process that has just been created. -/
def newSender (address : ℕ → ℕ) (registries : Registries) : MessageSender where
  outputBuffer := createOutputBuffer address
  registries := registries
  outstanding := []

/-- In every run of obtaining and sending messages, the buffers are recycled exactly as long as no message has been
sent. -/
theorem messages_recycled_iff (address : ℕ → ℕ) (registries : Registries) (cp : Proc) (ops : List MessageOp)
    (hops : Guarded (MessageOp.step cp) MessageOp.Allowed (newSender address registries) ops) :
    Recycled (run (MessageOp.step cp) (newSender address registries) ops) ↔ ∀ op ∈ ops, op.isSend = false := by
  have hstart : Outstanding (newSender address registries) :=
    ⟨by simp [newSender, createOutputBuffer], List.nodup_nil, fun i hi => absurd hi List.not_mem_nil⟩
  have hnone : usedCount (newSender address registries).outputBuffer = 0 := by
    simp [usedCount, newSender, createOutputBuffer, List.countP_eq_zero]
  obtain ⟨hend, hcount⟩ := hstart.run hops
  rw [hnone, show (newSender address registries).outstanding.length = 0 from rfl, Nat.add_zero, Nat.zero_add] at hcount
  have hsends : (∀ op ∈ ops, op.isSend = false) ↔ ops.countP (·.isSend) = 0 := by
    simp [List.countP_eq_zero]
  rw [hsends]
  constructor
  · intro hrecycled
    have hle := hrecycled.count
    omega
  · intro hzero
    refine ⟨by omega, hend.distinct, fun hfew hanswer => ?_⟩
    rcases getEmptyMessage_cases true (run (MessageOp.step cp) (newSender address registries) ops).outputBuffer with
      ⟨before, m, after, -, -, hget⟩ | hget | ⟨-, hall⟩
    · rw [hget] at hanswer
      exact absurd hanswer (by simp)
    · rw [hget] at hanswer
      exact absurd hanswer (by simp)
    · have hfull : usedCount (run (MessageOp.step cp) (newSender address registries) ops).outputBuffer =
          (run (MessageOp.step cp) (newSender address registries) ops).outputBuffer.length :=
        List.countP_eq_length.mpr hall
      have hlength := hend.length
      omega

/-- A run that obtains two messages. -/
theorem messages_recycled_iff_two :
    Recycled (run (MessageOp.step ⟨1, none, true, 0, [1]⟩) (newSender (fun i => 0x200000 * i) ⟨1, fun _ => none, []⟩)
        [.get true, .get true]) ↔ ∀ op ∈ [MessageOp.get true, .get true], op.isSend = false :=
  messages_recycled_iff (fun i => 0x200000 * i) ⟨1, fun _ => none, []⟩ ⟨1, none, true, 0, [1]⟩ [.get true, .get true]
    ⟨show (0 : ℕ) < 30 by decide, show (1 : ℕ) < 30 by decide, True.intro⟩

/-- Thirty rounds of obtaining a message and sending it. -/
def thirtyRounds : List MessageOp :=
  (List.range messageBufferCnt).flatMap fun i =>
    [.get true, .send i true false 0 ⟨false, false, 0⟩ ⟨⟨true, true, true, true, true, true, true⟩, true, true, true, false⟩]

/-- Afterwards no message is outstanding, and the next one is refused. -/
theorem messages_run_out :
    Guarded (MessageOp.step ⟨1, none, true, 0, [1]⟩) MessageOp.Allowed
        (newSender (fun i => 0x200000 * i) ⟨1, fun _ => none, []⟩) thirtyRounds ∧
      (run (MessageOp.step ⟨1, none, true, 0, [1]⟩) (newSender (fun i => 0x200000 * i) ⟨1, fun _ => none, []⟩)
        thirtyRounds).outstanding = [] ∧
      (getEmptyMessage true (run (MessageOp.step ⟨1, none, true, 0, [1]⟩)
        (newSender (fun i => 0x200000 * i) ⟨1, fun _ => none, []⟩) thirtyRounds).outputBuffer).1 = .etryagain ∧
      ¬ Recycled (run (MessageOp.step ⟨1, none, true, 0, [1]⟩) (newSender (fun i => 0x200000 * i) ⟨1, fun _ => none, []⟩)
        thirtyRounds) := by
  have hempty : (run (MessageOp.step ⟨1, none, true, 0, [1]⟩) (newSender (fun i => 0x200000 * i) ⟨1, fun _ => none, []⟩)
      thirtyRounds).outstanding = [] := by decide +kernel
  have hanswer : (getEmptyMessage true (run (MessageOp.step ⟨1, none, true, 0, [1]⟩)
      (newSender (fun i => 0x200000 * i) ⟨1, fun _ => none, []⟩) thirtyRounds).outputBuffer).1 = .etryagain := by
    decide +kernel
  refine ⟨by decide +kernel, hempty, hanswer, fun hrecycled => hrecycled.answered ?_ hanswer⟩
  rw [hempty]
  decide

end Cthulhu
