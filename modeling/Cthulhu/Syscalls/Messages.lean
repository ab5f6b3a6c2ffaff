import Mathlib.Algebra.BigOperators.Group.Finset.Piecewise
import Cthulhu.Lib.Bytes
import Cthulhu.Lib.Run
import Cthulhu.Word

/-!
# The checksum of messages

`send_message` of the user library fills in the sender and a checksum before it calls the kernel,
and `validate_message` of the kernel accepts a message whose bytes add up to a multiple of 16. The
checksum is computed over all bytes of the message, those of the old checksum among them.

The sizes of `pid_t` and `tid_t` come from the C library and are parameters; the other fields of
the header are 64-bit words.
-/

namespace Cthulhu

open Lib

/-- `sizeof(message_t)`. -/
def messageSize : ℕ := 0x19980

/-- The bytes of a `message_t`. -/
abbrev UserMessage := ℕ → UInt8

/-- The loop over the bytes of a message that the library and the kernel both have. -/
def addBytes (mbytes : ℕ → ℕ) : ℕ := run (fun cm i => add64 cm (mbytes i)) 0 (List.range messageSize)

/-- The sum of the bytes of a message. -/
def byteSum (message : UserMessage) : ℕ := addBytes fun i => (message i).toNat

/-- `compute_message_checksum`. -/
def computeMessageChecksum (message : UserMessage) : ℕ := 16 - byteSum message % 16

/-- The sizes of the two identifier types. -/
structure IdSizes where
  pid : ℕ
  tid : ℕ
  pid_le : pid ≤ 8
  tid_le : tid ≤ 8

namespace IdSizes

variable (sizes : IdSizes)

/-- The offset of a field behind `used` bytes that is aligned to its size. -/
def fieldOffset (used size : ℕ) : ℕ := (used + size - 1) / size * size

/-- The offset of `sender_process`, behind `target_process`. -/
def senderProcess : ℕ := sizes.pid

/-- The offset of `sender_thread`. -/
def senderThread : ℕ := fieldOffset (2 * sizes.pid) sizes.tid

/-- The offset of `flags`. -/
def flags : ℕ := fieldOffset (sizes.senderThread + sizes.tid) 8

/-- The offset of `checksum`, behind `flags`, `target_thread` and `magic`. -/
def checksum : ℕ := sizes.flags + 24

/-- The thread's identifier starts at most seven bytes behind the processes'. -/
theorem senderThread_le : sizes.senderThread ≤ 2 * sizes.pid + 7 := by
  have hle := Nat.div_mul_le_self (2 * sizes.pid + sizes.tid - 1) sizes.tid
  have htid := sizes.tid_le
  unfold senderThread fieldOffset
  omega

/-- The two fields of the sender end before the checksum. -/
theorem sender_before : sizes.senderProcess + sizes.pid ≤ sizes.checksum ∧
    sizes.senderThread + sizes.tid ≤ sizes.checksum := by
  have hflags : sizes.senderThread + sizes.tid ≤ sizes.flags := by
    unfold flags fieldOffset
    omega
  have hpid := sizes.pid_le
  unfold checksum senderProcess
  omega

/-- The checksum is a part of the message. -/
theorem checksum_inside : sizes.checksum + 8 ≤ messageSize := by
  have hthread := sizes.senderThread_le
  have hpid := sizes.pid_le
  have htid := sizes.tid_le
  unfold checksum flags fieldOffset messageSize
  omega

end IdSizes

namespace UserMessage

variable (message : UserMessage)

/-- A message with an integer stored in one of its fields. -/
def setField (offs size value : ℕ) : UserMessage := fun i =>
  if offs ≤ i ∧ i < offs + size then UInt8.ofNat (byteOf value (i - offs)) else message i

/-- The sum of the eight bytes of a word in a message. -/
def wordSum (offs : ℕ) : ℕ := ∑ k ∈ Finset.range 8, (message (offs + k)).toNat

/-- A message with the identifiers of the sending thread. -/
def fillSender (sizes : IdSizes) (pid tid : ℕ) : UserMessage :=
  (message.setField sizes.senderProcess sizes.pid pid).setField sizes.senderThread sizes.tid tid

/-- The message that `send_message` passes to the kernel, for the thread with the given identifiers. -/
def sendMessage (sizes : IdSizes) (pid tid : ℕ) : UserMessage :=
  (message.fillSender sizes pid tid).setField sizes.checksum 8
    (computeMessageChecksum (message.fillSender sizes pid tid))

/-- The rule that `validate_message` applies to the bytes of a message. -/
def Accepted : Prop := byteSum message % 16 = 0

end UserMessage

/-- The loop adds the bytes up modulo the word size. -/
theorem addBytes_eq (mbytes : ℕ → ℕ) : addBytes mbytes = (∑ i ∈ Finset.range messageSize, mbytes i) % 2 ^ 64 := by
  unfold addBytes run
  generalize messageSize = n
  induction n with
  | zero => rfl
  | succ n ih =>
    rw [List.range_succ, List.foldl_append, ih, Finset.sum_range_succ]
    exact Nat.mod_add_mod _ _ _

/-- Sixteen divides the word size, so that the sum wraps without harm. -/
theorem byteSum_mod (message : UserMessage) :
    byteSum message % 16 = (∑ i ∈ Finset.range messageSize, (message i).toNat) % 16 := by
  unfold byteSum
  rw [addBytes_eq, Nat.mod_mod_of_dvd _ (by decide)]

namespace UserMessage

variable {message : UserMessage}

/-- A word at a field that is written later or elsewhere. -/
theorem wordSum_setField {offs size value at' : ℕ} (h : offs + size ≤ at') :
    (message.setField offs size value).wordSum at' = message.wordSum at' := by
  unfold wordSum
  refine Finset.sum_congr rfl fun k _ => ?_
  have hout : ¬ (offs ≤ at' + k ∧ at' + k < offs + size) := by omega
  unfold setField
  rw [if_neg hout]

/-- The word that was written. -/
theorem wordSum_setField_self {offs value : ℕ} :
    (message.setField offs 8 value).wordSum offs = ∑ k ∈ Finset.range 8, byteOf value k := by
  unfold wordSum
  refine Finset.sum_congr rfl fun k hk => ?_
  have hin : offs ≤ offs + k ∧ offs + k < offs + 8 := by
    have := Finset.mem_range.mp hk
    omega
  have hbyte : byteOf value k < 2 ^ 8 := byteOf_lt value k
  unfold setField
  rw [if_pos hin, Nat.add_sub_cancel_left, UInt8.toNat_ofNat_of_lt' hbyte]

/-- Storing a word exchanges its bytes in the sum. -/
theorem sum_setField (message : UserMessage) (value : ℕ) {offs : ℕ} (h : offs + 8 ≤ messageSize) :
    (∑ i ∈ Finset.range messageSize, (message.setField offs 8 value i).toNat) + message.wordSum offs =
      (∑ i ∈ Finset.range messageSize, (message i).toNat) + (message.setField offs 8 value).wordSum offs := by
  obtain ⟨rest, hrest⟩ : ∃ rest, messageSize = offs + (8 + rest) := ⟨messageSize - offs - 8, by omega⟩
  have hbefore : ∀ i ∈ Finset.range offs, (message.setField offs 8 value i).toNat = (message i).toNat := by
    intro i hi
    have hout : ¬ (offs ≤ i ∧ i < offs + 8) := by
      have := Finset.mem_range.mp hi
      omega
    unfold setField
    rw [if_neg hout]
  have hafter : ∀ i ∈ Finset.range rest,
      (message.setField offs 8 value (offs + (8 + i))).toNat = (message (offs + (8 + i))).toNat := by
    intro i _
    have hout : ¬ (offs ≤ offs + (8 + i) ∧ offs + (8 + i) < offs + 8) := by omega
    unfold setField
    rw [if_neg hout]
  rw [hrest]
  simp only [Finset.sum_range_add]
  rw [Finset.sum_congr rfl hbefore, Finset.sum_congr rfl hafter]
  unfold wordSum
  omega

/-- The bytes of a number below 256 add up to it. -/
theorem sum_byteOf {value : ℕ} (h : value < 256) : ∑ k ∈ Finset.range 8, byteOf value k = value := by
  simp only [Finset.sum_range_succ, Finset.sum_range_zero, byteOf]
  omega

/-- The sender's fields are not in the checksum. -/
theorem wordSum_fillSender (message : UserMessage) (sizes : IdSizes) (pid tid : ℕ) :
    (message.fillSender sizes pid tid).wordSum sizes.checksum = message.wordSum sizes.checksum := by
  obtain ⟨hprocess, hthread⟩ := sizes.sender_before
  unfold fillSender
  rw [wordSum_setField hthread, wordSum_setField hprocess]

/-- The checksum field of a message that was sent holds the checksum. -/
theorem wordSum_sendMessage (message : UserMessage) (sizes : IdSizes) (pid tid : ℕ) :
    (message.sendMessage sizes pid tid).wordSum sizes.checksum =
      computeMessageChecksum (message.fillSender sizes pid tid) := by
  unfold sendMessage
  rw [wordSum_setField_self, sum_byteOf]
  unfold computeMessageChecksum
  omega

/-- The sum of a message that is sent, with the bytes of the old checksum added, is a multiple of 16. -/
theorem byteSum_sendMessage (message : UserMessage) (sizes : IdSizes) (pid tid : ℕ) :
    (byteSum (message.sendMessage sizes pid tid) + message.wordSum sizes.checksum) % 16 = 0 := by
  have hword := wordSum_fillSender message sizes pid tid
  have hchecksum := wordSum_sendMessage message sizes pid tid
  have hmod := byteSum_mod (message.sendMessage sizes pid tid)
  have hfilled := byteSum_mod (message.fillSender sizes pid tid)
  unfold computeMessageChecksum at hchecksum
  unfold sendMessage at hchecksum hmod ⊢
  have hsum := sum_setField (message.fillSender sizes pid tid)
    (computeMessageChecksum (message.fillSender sizes pid tid)) sizes.checksum_inside
  omega

/-- When a message that is sent satisfies the kernel's rule: exactly when the eight bytes that were
in its checksum field before add up to a multiple of 16. -/
theorem sendMessage_accepted_iff (message : UserMessage) (sizes : IdSizes) (pid tid : ℕ) :
    (message.sendMessage sizes pid tid).Accepted ↔ message.wordSum sizes.checksum % 16 = 0 := by
  have hsum := byteSum_sendMessage message sizes pid tid
  unfold Accepted
  omega

/-- The sizes of a 64-bit library. -/
def wideIds : IdSizes := ⟨8, 8, by decide, by decide⟩

/-- A fresh buffer with a one in the first byte of its body. -/
def freshMessage : UserMessage := fun i => if i = 64 then 1 else 0

/-- A fresh buffer has no sender yet. -/
theorem freshMessage_fillSender : freshMessage.fillSender wideIds 0 0 = freshMessage := by
  have hempty (offs : ℕ) (hoffs : offs + 8 ≤ 64) : freshMessage.setField offs 8 0 = freshMessage := by
    funext i
    unfold setField
    split
    · have hne : i ≠ 64 := by omega
      rw [byteOf, Nat.zero_div, freshMessage, if_neg hne]
      rfl
    · rfl
  exact (congrArg (fun message => setField message 16 8 0) (hempty 8 (by decide))).trans (hempty 16 (by decide))

/-- The bytes of a buffer with a single one add up to one. -/
theorem byteSum_single {message : UserMessage} (h : ∀ i, (message i).toNat = if i = 64 then 1 else 0) :
    byteSum message % 16 = 1 := by
  -- for every length, so that the sum is not computed
  have hsum (n : ℕ) (hn : 64 < n) : ∑ i ∈ Finset.range n, (message i).toNat = 1 := by
    rw [Finset.sum_congr rfl fun i _ => h i, Finset.sum_ite_eq' _ _ _, if_pos (Finset.mem_range.mpr hn)]
  rw [byteSum_mod, hsum messageSize (by decide)]

/-- A message that was sent from a fresh buffer is accepted, and the same message is refused when it
is sent again. -/
theorem resent_refused : (freshMessage.sendMessage wideIds 0 0).Accepted ∧
    ¬ ((freshMessage.sendMessage wideIds 0 0).sendMessage wideIds 0 0).Accepted := by
  have hfirst := byteSum_sendMessage freshMessage wideIds 0 0
  have hsecond := byteSum_sendMessage (freshMessage.sendMessage wideIds 0 0) wideIds 0 0
  have hfresh : freshMessage.wordSum wideIds.checksum = 0 := by decide
  have hsum : byteSum freshMessage % 16 = 1 := by
    refine byteSum_single fun i => ?_
    unfold freshMessage
    split
    · rfl
    · rfl
  have hstamp := wordSum_sendMessage freshMessage wideIds 0 0
  rw [freshMessage_fillSender, computeMessageChecksum, hsum] at hstamp
  unfold Accepted
  omega

end UserMessage

end Cthulhu
