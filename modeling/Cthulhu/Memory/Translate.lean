import Cthulhu.Memory.PageWalk
import Cthulhu.Memory.Paging

/-!
# The second translator

`virtual_to_physical` walks the tables on its own. It masks an entry before it tests the presence
bit, and the mask clears that bit, so that no address is ever valid. The pointers it computes are
kept as numbers here, since one branch uses a pointer as a number.
-/

namespace Cthulhu

/-- `ADDRESS_OFFSET(offset)`. -/
def addressOffset (offset : ℕ) : ℕ := 0xFFFF000000000000 + 2 ^ 39 * offset

/-- `RESERVED_KBLOCK_RAM_MAPPINGS`, the slot of the mirror of physical memory. -/
def reservedRamMappings : ℕ := 510

namespace Machine

variable (m : Machine)

/-- `physical_to_virtual`. -/
def physicalToVirtual (paddress : ℕ) : ℕ :=
  if !m.memMirrorPresent then paddress
  else if paddress = 0 then 0
  else add64 paddress (addressOffset reservedRamMappings)

/-- The words behind a pointer to a frame. -/
def wordsAt (address : ℕ) : ℕ → ℕ :=
  m.memory (if m.memMirrorPresent ∧ address ≠ 0 then sub64 address (addressOffset reservedRamMappings) else address)

/-- The pointer to the table of an entry, masked. -/
def tablePointer (address index : ℕ) : ℕ := align (m.physicalToVirtual (m.wordsAt address index))

/-- `virtual_to_physical`: the address it returns, and whether it is valid. The flag says that the
processor supports pages of 1 GB. -/
def virtualToPhysical (is1GBPagingSupported : Bool) (vaddress cr3 : ℕ) : ℕ × Bool :=
  let address := m.tablePointer (align (m.physicalToVirtual cr3)) (pmlIndex vaddress)
  if !present address then (0, false)
  else if addressOffset reservedRamMappings < vaddress ∧ vaddress < addressOffset (reservedRamMappings + 1) ∧
      is1GBPagingSupported then
    (address / 2 ^ 30 % 2 ^ 24 + vaddress % 2 ^ 30, true)
  else
    let address := m.tablePointer address (directoryPtrIndex vaddress)
    if !present address then (0, false)
    else
      let address := m.tablePointer address (directoryIndex vaddress)
      if !present address then (0, false)
      -- the source reads the first entry of the table whatever the address
      else if !present (m.wordsAt address 0) then (0, false)
      else (align (m.wordsAt address 0) + vaddress % 0x1000, true)

/-- `__get_page` finds a present entry for the address. -/
def Finds (vaddress cr3 : ℕ) (user : Bool) (p : Slot) : Prop :=
  (m.getPage vaddress cr3 false user).1 = some p ∧ present (m.load p) = true

/-- The address lies in the mirror and the mirror is made of pages of 1 GB. -/
def InLargeMirror (is1GBPagingSupported : Bool) (vaddress : ℕ) : Prop :=
  addressOffset reservedRamMappings ≤ vaddress ∧ vaddress < addressOffset (reservedRamMappings + 1) ∧
    is1GBPagingSupported = true

/-- The two translators agree on an address: both find a page, and the same one, or neither does; and
in a mirror of large pages the result is the distance from its base. -/
def TranslatorsAgree (is1GBPagingSupported : Bool) (vaddress cr3 : ℕ) (user : Bool) : Prop :=
  let r := m.virtualToPhysical is1GBPagingSupported vaddress cr3
  (¬ InLargeMirror is1GBPagingSupported vaddress →
      (r.2 = true ↔ ∃ p, m.Finds vaddress cr3 user p) ∧
        ∀ p, m.Finds vaddress cr3 user p → r.1 = align (m.load p) + vaddress % 0x1000) ∧
    (InLargeMirror is1GBPagingSupported vaddress → r.1 = vaddress - addressOffset reservedRamMappings)

/-- A masked pointer has no presence bit. -/
theorem present_align (w : ℕ) : present (align w) = false := by
  unfold present bit align
  rw [decide_eq_false_iff_not]
  omega

/-- No address is valid for `virtual_to_physical`. -/
theorem virtualToPhysical_invalid (is1GBPagingSupported : Bool) (vaddress cr3 : ℕ) :
    m.virtualToPhysical is1GBPagingSupported vaddress cr3 = (0, false) := by
  have habsent : present (m.tablePointer (align (m.physicalToVirtual cr3)) (pmlIndex vaddress)) = false :=
    present_align _
  simp only [virtualToPhysical, habsent, Bool.not_false, if_true]

/-- When the two translators agree, for every page-table state and address: outside a mirror of large
pages exactly where `__get_page` finds no present entry, and in it exactly at its base. -/
theorem translatorsAgree_iff (is1GBPagingSupported : Bool) (vaddress cr3 : ℕ) (user : Bool) :
    m.TranslatorsAgree is1GBPagingSupported vaddress cr3 user ↔
      (¬ InLargeMirror is1GBPagingSupported vaddress → ∀ p, ¬ m.Finds vaddress cr3 user p) ∧
        (InLargeMirror is1GBPagingSupported vaddress → vaddress = addressOffset reservedRamMappings) := by
  unfold TranslatorsAgree
  rw [m.virtualToPhysical_invalid]
  constructor
  · rintro ⟨houtside, hinside⟩
    refine ⟨fun hout p hp => ?_, fun hin => ?_⟩
    · exact absurd ((houtside hout).1.mpr ⟨p, hp⟩) (by decide)
    · have hdistance := hinside hin
      have hbase := hin.1
      omega
  · rintro ⟨houtside, hinside⟩
    refine ⟨fun hout => ⟨⟨fun hvalid => absurd hvalid (by decide), ?_⟩, ?_⟩, fun hin => ?_⟩
    · rintro ⟨p, hp⟩
      exact absurd hp (houtside hout p)
    · intro p hp
      exact absurd hp (houtside hout p)
    · rw [hinside hin, Nat.sub_self]

/-- A page that was just allocated is found by `__get_page` and not by `virtual_to_physical`. -/
theorem virtualToPhysical_allocated : ¬ TranslatorsAgree
    (blankMachine.allocate 0x400000 0x1000 false false 0x100000).2 false 0x400123 0x100000 false := by
  intro hagree
  have hout : ¬ InLargeMirror false 0x400123 := fun hin => absurd hin.2.2 (by decide)
  have hfinds : ∃ p, Finds (blankMachine.allocate 0x400000 0x1000 false false 0x100000).2 0x400123 0x100000 false p := by
    refine ⟨⟨0x203000, 0⟩, ?_, ?_⟩
    · decide +kernel
    · decide +kernel
  have hvalid := (hagree.1 hout).1.mpr hfinds
  rw [virtualToPhysical_invalid] at hvalid
  cases hvalid

end Machine

end Cthulhu
