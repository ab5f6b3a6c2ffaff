import Mathlib.Data.Fintype.Basic
import Cthulhu.Lib.Literals

/-!
# Messages between CPUs

The message fields of `cpu_t`, of which every CPU has one set, and the message types of `ipi.h`.
A CPU is named by its place in the array `cpus`.
-/

namespace Cthulhu

/-- The message types of `ipi.h`; every other value is ignored by `ipi_received`. -/
inductive MessageType
  | haltImmediately
  | wakeUpFromWua
  | invalidatePage
  | invldPml
  | runScheduler
  | other (value : ℕ)
  deriving DecidableEq, Repr

/-- The arguments of `send_ipi_message` and `send_ipi_nowait` that reach the receiver. -/
structure Message where
  messageType : MessageType
  message : ℕ
  message2 : ℕ
  message3 : ℕ
  deriving DecidableEq, Repr

end Cthulhu
