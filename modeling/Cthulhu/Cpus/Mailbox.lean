import Cthulhu.Lib.Run
import Cthulhu.Cpus.Ipi

/-!
# The message fields as a mailbox

Every CPU has one set of message fields, which `send_ipi_message` and `send_ipi_nowait` write under
the CPU's `__ipi_lock` before they raise the interrupt. The first waits until `ipi_received` has
cleared `apic_message_handled`; the second neither sets the flag nor waits. A message to the
sender's own CPU is handled by a direct call.

Any number of calls may be under way, each at its own place, and they are interleaved step by step
with the acceptance of interrupts and the steps of the handlers. The local interrupt controller
keeps at most one interrupt pending, and accepts it when no handler runs. A read or write of the
flag under `__message_clear_lock` is one step. The identity of the call that filled the fields and
the messages handled on behalf of a call are kept for the statements.
-/

namespace Cthulhu

open Lib

/-- Where a CPU is in `ipi_received`; the type has been read at `act`. -/
inductive HandlerPc
  | entry
  | act (messageType : MessageType)
  | clear
  | halted
  deriving DecidableEq, Repr

/-- Where a call is in `send_ipi_message` or `send_ipi_nowait`. -/
inductive SendPc
  | check
  | lock
  | flag
  | writeType
  | write1
  | write2
  | write3
  | fire
  | receive (pc : HandlerPc)
  | poll
  | unlock
  | returned
  | refused
  deriving DecidableEq, Repr

/-- A call: `wait` is set for `send_ipi_message`. The messages handled on its behalf are kept. -/
structure SendCall (n : ℕ) where
  sender : Fin n
  target : Fin n
  wait : Bool
  msg : Message
  pc : SendPc
  receipts : List Message
  deriving DecidableEq, Repr

/-- The message fields of `cpu_t`, with the call that holds the lock and the call that wrote last. -/
structure IpiCpu where
  started : Bool
  ipiLock : Option ℕ
  handled : Bool
  mailbox : Message
  content : Option ℕ
  pending : Bool
  irq : Option HandlerPc
  deriving DecidableEq, Repr

/-- The CPUs, and the calls by their numbers. -/
structure Ipi (n : ℕ) where
  cpu : Fin n → IpiCpu
  call : ℕ → Option (SendCall n)

/-- What can happen next: a call is made, a call goes on, an interrupt is accepted, a handler goes on,
a CPU is started. -/
inductive IpiMove (n : ℕ)
  | start (id : ℕ) (sender target : Fin n) (wait : Bool) (msg : Message)
  | send (id : ℕ)
  | deliver (d : Fin n)
  | irq (d : Fin n)
  | boot (d : Fin n)

namespace Ipi

variable {n : ℕ}

/-- A state with one CPU replaced. -/
def setCpu (s : Ipi n) (d : Fin n) (v : IpiCpu) : Ipi n := { s with cpu := Function.update s.cpu d v }

/-- A state with one call replaced. -/
def setCall (s : Ipi n) (id : ℕ) (st : SendCall n) : Ipi n := { s with call := Function.update s.call id (some st) }

/-- The message is handled on behalf of the call that wrote it. -/
def receipt (s : Ipi n) (d : Fin n) (msg : Message) : Ipi n :=
  match (s.cpu d).content with
  | none => s
  | some id =>
    match s.call id with
    | none => s
    | some st => s.setCall id { st with receipts := st.receipts ++ [msg] }

/-- One step of `ipi_received`; no next place once it has returned. The cases of its switch differ in
what they do with the message, and only a halt does not come to the clearing of the flag. -/
def handlerStep (s : Ipi n) (d : Fin n) : HandlerPc → Ipi n × Option HandlerPc
  | .entry => (s, some (.act (s.cpu d).mailbox.messageType))
  | .act messageType =>
    let s := s.receipt d { (s.cpu d).mailbox with messageType := messageType }
    if messageType = .haltImmediately then (s.setCpu d { s.cpu d with handled := false }, some .halted)
    else (s, some .clear)
  | .clear => (s.setCpu d { s.cpu d with handled := false }, none)
  | .halted => (s, some .halted)

/-- The call goes to another place. -/
def goto (s : Ipi n) (id : ℕ) (pc : SendPc) : Ipi n :=
  match s.call id with
  | none => s
  | some st => s.setCall id { st with pc := pc }

/-- One step of a call from a place of its code. -/
def sendStep (s : Ipi n) (id : ℕ) (st : SendCall n) : SendPc → Ipi n
  | .check =>
    if st.target = st.sender ∨ (s.cpu st.target).started then s.goto id .lock else s.goto id .refused
  | .lock =>
    if (s.cpu st.target).ipiLock = none then
      (s.setCpu st.target { s.cpu st.target with ipiLock := some id }).goto id
        (if st.wait ∨ st.target = st.sender then .flag else .writeType)
    else s
  | .flag => (s.setCpu st.target { s.cpu st.target with handled := true }).goto id .writeType
  | .writeType =>
    (s.setCpu st.target { s.cpu st.target with
      content := some id
      mailbox := { (s.cpu st.target).mailbox with messageType := st.msg.messageType } }).goto id .write1
  | .write1 =>
    (s.setCpu st.target { s.cpu st.target with
      mailbox := { (s.cpu st.target).mailbox with message := st.msg.message } }).goto id .write2
  | .write2 =>
    (s.setCpu st.target { s.cpu st.target with
      mailbox := { (s.cpu st.target).mailbox with message2 := st.msg.message2 } }).goto id .write3
  | .write3 =>
    (s.setCpu st.target { s.cpu st.target with
      mailbox := { (s.cpu st.target).mailbox with message3 := st.msg.message3 } }).goto id
        (if st.target = st.sender then .receive .entry else .fire)
  | .fire =>
    (s.setCpu st.target { s.cpu st.target with pending := true }).goto id (if st.wait then .poll else .unlock)
  | .receive pc =>
    let r := s.handlerStep st.target pc
    match r.2 with
    | some pc => r.1.goto id (.receive pc)
    | none => r.1.goto id .unlock
  | .poll => if (s.cpu st.target).handled then s else s.goto id .unlock
  | .unlock => (s.setCpu st.target { s.cpu st.target with ipiLock := none }).goto id .returned
  | .returned => s
  | .refused => s

/-- One move. -/
def step (s : Ipi n) : IpiMove n → Ipi n
  | .start id sender target wait msg =>
    if s.call id = none then s.setCall id ⟨sender, target, wait, msg, .check, []⟩ else s
  | .send id =>
    match s.call id with
    | none => s
    | some st => s.sendStep id st st.pc
  | .deliver d =>
    if (s.cpu d).pending ∧ (s.cpu d).irq = none then
      s.setCpu d { s.cpu d with pending := false, irq := some .entry }
    else s
  | .irq d =>
    match (s.cpu d).irq with
    | none => s
    | some pc =>
      let r := s.handlerStep d pc
      r.1.setCpu d { r.1.cpu d with irq := r.2 }
  | .boot d => s.setCpu d { s.cpu d with started := true }

end Ipi

/-- No message is on its way to the CPU: no interrupt is pending, and no handler is at work before it
has cleared the flag. -/
def IpiCpu.Free (v : IpiCpu) : Prop := v.pending = false ∧ (v.irq = none ∨ v.irq = some .halted)

instance (v : IpiCpu) : Decidable v.Free := inferInstanceAs (Decidable (_ ∧ _))

/-- The call's message is in the fields, complete, and its interrupt is pending or its handler about to
act on it. -/
structure IpiCpu.Holds {n : ℕ} (v : IpiCpu) (id : ℕ) (st : SendCall n) : Prop where
  content : v.content = some id
  mailbox : v.mailbox = st.msg
  phase : (v.pending = true ∧ (v.irq = none ∨ v.irq = some .halted)) ∨
    (v.pending = false ∧ (v.irq = some .entry ∨ v.irq = some (.act st.msg.messageType)))

namespace Ipi

variable {n : ℕ}

/-- No call was made, and no message is on its way. -/
def Quiet (s : Ipi n) : Prop := (∀ id, s.call id = none) ∧ ∀ d, (s.cpu d).ipiLock = none ∧ (s.cpu d).Free

/-- What the mailbox promises of every call: its message is handled at most once and unchanged; once the
interrupt is raised or the direct call made, it was handled or is still there to be handled; and
`send_ipi_message` returns only after it was handled. -/
structure Delivered (s : Ipi n) : Prop where
  once : ∀ id st, s.call id = some st → st.receipts = [] ∨ st.receipts = [st.msg]
  kept : ∀ id st, s.call id = some st → st.pc = .poll ∨ st.pc = .unlock ∨ st.pc = .returned →
    st.receipts = [] → (s.cpu st.target).Holds id st
  waited : ∀ id st, s.call id = some st → st.wait = true → st.pc = .unlock ∨ st.pc = .returned →
    st.receipts = [st.msg]

/-- A call takes the lock of a CPU only when no message is on its way to it. -/
def Undisturbed (s : Ipi n) : IpiMove n → Prop
  | .send id => ∀ st, s.call id = some st → st.pc = .lock → (s.cpu st.target).ipiLock = none →
      (s.cpu st.target).Free
  | _ => True

instance (s : Ipi n) : ∀ move : IpiMove n, Decidable (s.Undisturbed move)
  | .send id =>
    match h : s.call id with
    | none => isTrue fun _ hcall => absurd (h.symm.trans hcall) (Option.some_ne_none _).symm
    | some st =>
      decidable_of_iff (st.pc = .lock → (s.cpu st.target).ipiLock = none → (s.cpu st.target).Free)
        ⟨fun hguard _ hcall => Option.some.inj (h.symm.trans hcall) ▸ hguard, fun hguard => hguard st h⟩
  | .start .. | .deliver _ | .irq _ | .boot _ => inferInstanceAs (Decidable True)

end Ipi

end Cthulhu
