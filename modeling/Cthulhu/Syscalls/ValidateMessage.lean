import Cthulhu.Loader.Copy
import Cthulhu.Syscalls.Messages
import Cthulhu.Syscalls.Validate

/-!
# Acceptance of messages

`validate_message` checks the pointer and then the sum of the bytes. It returns as soon as the
pointer is valid, so that the sum is computed only for a pointer that was refused.
-/

namespace Cthulhu

open Lib

/-- What `validate_message` does: the value it returns, or `none` for a page fault in its loop; whether
the continuation is set; whether it reads the message; and the kernel after it. -/
structure MessageCheck where
  value : Option Bool
  waits : Bool
  reads : Bool
  kernel : Kernel

namespace Kernel

variable (s : Kernel) (message : ℕ)

/-- The sum that the loop of `validate_message` computes, or `none` for a page fault. -/
def messageSum : Option ℕ :=
  if ∀ i < messageSize, (s.load (.address message) i).isSome then
    some (addBytes fun i => (s.load (.address message) i).getD 0)
  else none

/-- `validate_message`; no value while the check of the pointer has not finished. -/
def validateMessage (fuel : ℕ) : Option MessageCheck :=
  (s.machine.validateAddress fuel message messageSize).map fun test =>
    let s := { s with machine := test.2.2 }
    -- the source returns here when the pointer is valid
    if test.1 then ⟨some test.1, test.2.1, false, s⟩
    else ⟨(s.messageSum message).map fun cm => cm % 16 = 0, test.2.1, true, s⟩

/-- The bytes of the message are accessible and add up to a multiple of 16. -/
def WellFormedMessage : Prop :=
  s.machine.Accessible message messageSize ∧ ∃ cm, s.messageSum message = some cm ∧ cm % 16 = 0

/-- Exactly the well-formed messages are accepted, and only accessible ones are read. -/
def ValidatesMessage : Prop :=
  ((∃ fuel r, s.validateMessage message fuel = some r ∧ r.value = some true) ↔ s.WellFormedMessage message) ∧
    ∀ fuel r, s.validateMessage message fuel = some r → r.reads = true → s.machine.Accessible message messageSize

variable {s : Kernel} {message : ℕ}

/-- A valid pointer is accepted at once. -/
theorem validateMessage_valid {fuel : ℕ} {waits : Bool} {m : Machine}
    (h : s.machine.validateAddress fuel message messageSize = some (true, waits, m)) :
    s.validateMessage message fuel = some ⟨some true, waits, false, { s with machine := m }⟩ := by
  rw [validateMessage, h]
  rfl

/-- A message behind a refused pointer is read. -/
theorem validateMessage_refused {fuel : ℕ} {waits : Bool} {m : Machine}
    (h : s.machine.validateAddress fuel message messageSize = some (false, waits, m)) :
    s.validateMessage message fuel =
      some ⟨(messageSum { s with machine := m } message).map fun cm => cm % 16 = 0, waits, true,
        { s with machine := m }⟩ := by
  rw [validateMessage, h]
  rfl

/-- A check of the pointer that goes on forever accepts nothing and reads nothing. -/
theorem validatesMessage_of_endless (h : Endless s.machine message messageSize) : s.ValidatesMessage message := by
  have hnone (fuel : ℕ) : s.validateMessage message fuel = none := by
    rw [validateMessage, Machine.validateAddress, checkMemState_short (h fuel) (Nat.le_refl fuel)]
    rfl
  refine ⟨⟨?_, ?_⟩, ?_⟩
  · rintro ⟨fuel, r, hr, _⟩
    rw [hnone fuel] at hr
    cases hr
  · rintro ⟨haccessible, _⟩
    obtain ⟨n, _, hend⟩ := finished_of_accessible haccessible
    exact absurd (h (n + 1) n (Nat.lt_succ_self n)).1 hend
  · intro fuel r hr
    rw [hnone fuel] at hr
    cases hr

/-- A well-formed message is accepted and not read. -/
theorem validatesMessage_of_wellFormed (h : s.WellFormedMessage message) : s.ValidatesMessage message := by
  obtain ⟨n, hpassed, hend⟩ := finished_of_accessible h.1
  refine ⟨⟨fun _ => h, fun _ => ?_⟩, fun _ _ _ _ => h.1⟩
  exact ⟨n + 1, _, validateMessage_valid (validateAddress_finished hpassed hend 0), rfl⟩

/-- When `validate_message` decides what it should, for every page-table state, memory and pointer:
exactly when the message is well formed, or the check of the pointer never ends. -/
theorem validatesMessage_iff (s : Kernel) (message : ℕ) :
    s.ValidatesMessage message ↔ s.WellFormedMessage message ∨ Endless s.machine message messageSize := by
  constructor
  · rintro ⟨haccepts, hreads⟩
    rcases endless_or_returns s.machine message messageSize with hendless | ⟨fuel, ⟨value, waits, m⟩, htest⟩
    · exact Or.inr hendless
    · left
      cases value with
      | true => exact haccepts.mp ⟨fuel, _, validateMessage_valid htest, rfl⟩
      | false =>
        -- the refused pointer is read, so it would be accessible, and the check would have accepted it
        obtain ⟨n, hpassed, hend⟩ := finished_of_accessible (hreads fuel _ (validateMessage_refused htest) rfl)
        exact absurd (validateAddress_eq_of_finished hpassed hend htest) (by simp)
  · rintro (hformed | hendless)
    · exact validatesMessage_of_wellFormed hformed
    · exact validatesMessage_of_endless hendless

/-- A pointer that nothing maps is refused by the check, and then the message is read. -/
theorem validateMessage_unmapped : ¬ Kernel.ValidatesMessage ⟨unmappedMachine, fun _ => 0⟩ 0x400000 := by
  rintro ⟨_, hreads⟩
  have hrefused : unmappedMachine.validateAddress 1 0x400000 messageSize = some (false, false, unmappedMachine) := rfl
  have haccessible := hreads 1 _ (validateMessage_refused hrefused) rfl
  obtain ⟨_, p, hpage, hpresent, _⟩ := haccessible.2 0x400000 (Nat.le_refl _) (by decide)
  have hnone : (unmappedMachine.getPage 0x400000 unmappedMachine.activePage false false).1 = none := by decide
  exact absurd (hnone.symm.trans hpage) (by simp)

end Kernel

end Cthulhu
