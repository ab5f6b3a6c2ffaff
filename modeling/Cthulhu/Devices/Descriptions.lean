import Cthulhu.Devices.Enumeration
import Cthulhu.Lib.Blocks

/-!
# Descriptions of devices

`load_pci_info` fills the table of descriptions for numbers below 128 only, under an index that takes them for digits
below 128. A device with a larger number reads the description of another one, or what was in memory before.
-/

namespace Cthulhu

open Lib

/-- What a rule asks of the programming interface. -/
inductive ProgIfTest where
  | any
  | positive
  | exactly (p : ℕ)
  deriving DecidableEq, Repr

/-- The test of a rule. -/
def ProgIfTest.holds (p : ℕ) : ProgIfTest → Bool
  | any => true
  | positive => p > 0
  | exactly q => p = q

/-- A condition of `load_pci_info` with the text behind it. -/
structure DescriptionRule where
  cc : ℕ
  sc : ℕ
  p : ProgIfTest
  text : String
  deriving DecidableEq, Repr

/-- The conditions in their order. -/
def descriptionRules : List DescriptionRule :=
  [⟨0, 0, .exactly 0, "Any device except for VGA-Compatible devices"⟩,
    ⟨0, 0, .exactly 1, "VGA-Compatible Device"⟩,
    ⟨1, 0, .exactly 0, "SCSI Bus Controller"⟩,
    ⟨1, 1, .any, "IDE Controller"⟩,
    ⟨1, 2, .exactly 0, "Floppy Disk Controller"⟩,
    ⟨1, 3, .exactly 0, "IPI Bus Controller"⟩,
    ⟨1, 4, .exactly 0, "RAID Controller"⟩,
    ⟨1, 5, .exactly 0x20, "ATA Controller (Single DMA)"⟩,
    ⟨1, 5, .exactly 0x30, "ATA Controller (Chained DMA)"⟩,
    ⟨1, 6, .exactly 0, "Serial ATA (Vendor Specific Interface)"⟩,
    ⟨1, 6, .exactly 1, "Serial ATA (AHCI 1.0)"⟩,
    ⟨1, 7, .exactly 0, "Serial Attached SCSI (SAS)"⟩,
    ⟨1, 0x80, .exactly 0, "Other Mass Storage Controller "⟩,
    ⟨2, 0, .exactly 0, "Ethernet Controller"⟩,
    ⟨2, 1, .exactly 0, "Token Ring Controller"⟩,
    ⟨2, 2, .exactly 0, "FDDI Controller"⟩,
    ⟨2, 3, .exactly 0, "ATM Controller"⟩,
    ⟨2, 4, .exactly 0, "ISDN Controller"⟩,
    ⟨2, 5, .exactly 0, "WorldFip Controller"⟩,
    ⟨2, 6, .any, "PICMG 2.14 Multi Computing"⟩,
    ⟨2, 0x80, .exactly 0, "Other Network Controller"⟩,
    ⟨3, 0, .exactly 0, "VGA-Compatible Controller"⟩,
    ⟨3, 0, .exactly 1, "8512-Compatible Controller"⟩,
    ⟨3, 1, .exactly 0, "XGA Controller"⟩,
    ⟨3, 2, .exactly 0, "3D Controller (Not VGA-Compatible)"⟩,
    ⟨3, 0x80, .exactly 0, "Other Display Controller"⟩,
    ⟨4, 0, .exactly 0, "Video Device"⟩,
    ⟨4, 1, .exactly 0, "Audio Device"⟩,
    ⟨4, 2, .exactly 0, "Computer Telephony Device"⟩,
    ⟨4, 0x80, .exactly 0, "Other Multimedia Device"⟩,
    ⟨5, 0, .exactly 0, "RAM Controller"⟩,
    ⟨5, 1, .exactly 0, "Flash Controller"⟩,
    ⟨5, 0x80, .exactly 0, "Other Memory Controller"⟩,
    ⟨6, 0, .exactly 0, "Host Bridge"⟩,
    ⟨6, 1, .exactly 0, "ISA Bridge"⟩,
    ⟨6, 2, .exactly 0, "EISA Bridge"⟩,
    ⟨6, 3, .exactly 0, "MCA Bridge"⟩,
    ⟨6, 4, .exactly 0, "PCI-to-PCI Bridge"⟩,
    ⟨6, 4, .exactly 1, "PCI-to-PCI Bridge (Subtractive Decode)"⟩,
    ⟨6, 5, .exactly 0, "PCMCIA Bridge"⟩,
    ⟨6, 6, .exactly 0, "NuBus Bridge"⟩,
    ⟨6, 7, .exactly 0, "CardBus Bridge"⟩,
    ⟨6, 8, .any, "RACEway Bridge"⟩,
    ⟨6, 9, .exactly 0x40, "PCI-to-PCI Bridge (Semi-Transparent, Primary)"⟩,
    ⟨6, 9, .exactly 0x80, "PCI-to-PCI Bridge (Semi-Transparent, Secondary)"⟩,
    ⟨6, 0xA, .exactly 0, "InfiniBrand-to-PCI Host Bridge"⟩,
    ⟨6, 0x80, .exactly 0, "Other Bridge Device"⟩,
    ⟨7, 0, .exactly 0, "Generic XT-Compatible Serial Controller"⟩,
    ⟨7, 0, .exactly 1, "16450-Compatible Serial Controller"⟩,
    ⟨7, 0, .exactly 2, "16550-Compatible Serial Controller"⟩,
    ⟨7, 0, .exactly 3, "16650-Compatible Serial Controller"⟩,
    ⟨7, 0, .exactly 4, "16750-Compatible Serial Controller"⟩,
    ⟨7, 0, .exactly 5, "16850-Compatible Serial Controller"⟩,
    ⟨7, 0, .exactly 6, "16950-Compatible Serial Controller"⟩,
    ⟨7, 1, .exactly 0, "Parallel Port"⟩,
    ⟨7, 1, .exactly 1, "Bi-Directional Parallel Port"⟩,
    ⟨7, 1, .exactly 2, "ECP 1.X Compliant Parallel Port"⟩,
    ⟨7, 1, .exactly 3, "IEEE 1284 Controller"⟩,
    ⟨7, 1, .exactly 0xFE, "IEEE 1284 Target Device"⟩,
    ⟨7, 2, .exactly 0, "Multiport Serial Controller"⟩,
    ⟨7, 3, .exactly 0, "Generic Modem"⟩,
    ⟨7, 3, .exactly 1, "Hayes Compatible Modem (16450-Compatible Interface)"⟩,
    ⟨7, 3, .exactly 2, "Hayes Compatible Modem (16550-Compatible Interface)"⟩,
    ⟨7, 3, .exactly 3, "Hayes Compatible Modem (16650-Compatible Interface)"⟩,
    ⟨7, 3, .exactly 4, "Hayes Compatible Modem (16750-Compatible Interface)"⟩,
    ⟨7, 4, .exactly 0, "IEEE 488.1/2 (GPIB) Controller"⟩,
    ⟨7, 5, .exactly 0, "Smart Card"⟩,
    ⟨7, 0x80, .exactly 0, "Other Communications Device"⟩,
    ⟨8, 0, .exactly 0, "Generic 8259 PIC"⟩,
    ⟨8, 0, .exactly 1, "ISA PIC"⟩,
    ⟨8, 0, .exactly 2, "EISA PIC"⟩,
    ⟨8, 0, .exactly 0x10, "I/O APIC Interrupt Controller"⟩,
    ⟨8, 0, .exactly 0x20, "I/O(x) APIC Interrupt Controller"⟩,
    ⟨8, 1, .exactly 0, "Generic 8237 DMA Controller"⟩,
    ⟨8, 1, .exactly 1, "ISA DMA Controller"⟩,
    ⟨8, 1, .exactly 2, "EISA DMA Controller"⟩,
    ⟨8, 2, .exactly 0, "Generic 8254 System Timer"⟩,
    ⟨8, 2, .exactly 1, "ISA System Timer"⟩,
    ⟨8, 2, .exactly 2, "EISA System Timer"⟩,
    ⟨8, 3, .exactly 0, "Generic RTC Controller"⟩,
    ⟨8, 3, .exactly 1, "ISA RTC Controller"⟩,
    ⟨8, 4, .exactly 0, "Generic PCI Hot-Plug Controller"⟩,
    ⟨8, 0x80, .exactly 0, "Other System Peripheral"⟩,
    ⟨9, 0x0, .exactly 0, "Keyboard Controller"⟩,
    ⟨9, 0x1, .exactly 0, "Digitizer"⟩,
    ⟨9, 0x2, .exactly 0, "Mouse Controller"⟩,
    ⟨9, 0x3, .exactly 0, "Scanner Controller"⟩,
    ⟨9, 0x4, .exactly 0, "Gameport Controller (Generic)"⟩,
    ⟨9, 0x4, .exactly 0x10, "Gameport Contrlller (Legacy)"⟩,
    ⟨9, 0x80, .exactly 0, "Other Input Controller"⟩,
    ⟨0xA, 0x0, .exactly 0, "Generic Docking Station"⟩,
    ⟨0xA, 0x80, .exactly 0, "Other Docking Station"⟩,
    ⟨0xB, 0x0, .exactly 0, "386 Processor"⟩,
    ⟨0xB, 0x1, .exactly 0, "486 Processor"⟩,
    ⟨0xB, 0x2, .exactly 0, "Pentium Processor"⟩,
    ⟨0xB, 0x10, .exactly 0, "Alpha Processor"⟩,
    ⟨0xB, 0x20, .exactly 0, "PowerPC Processor"⟩,
    ⟨0xB, 0x30, .exactly 0, "MIPS Processor"⟩,
    ⟨0xB, 0x40, .exactly 0, "Co-Processor"⟩,
    ⟨0xC, 0x0, .exactly 0, "IEEE 1394 Controller (FireWire)"⟩,
    ⟨0xC, 0x0, .exactly 0x10, "IEEE 1394 Controller (1394 OpenHCI Spec)"⟩,
    ⟨0xC, 0x1, .exactly 0, "ACCESS.bus"⟩,
    ⟨0xC, 0x2, .exactly 0, "SSA"⟩,
    ⟨0xC, 0x3, .exactly 0, "USB (Universal Host Controller Spec)"⟩,
    ⟨0xC, 0x3, .exactly 0x10, "USB (Open Host Controller Spec)"⟩,
    ⟨0xC, 0x3, .exactly 0x20, "USB2 Host Controller (Intel Enhanced Host Controller Interface)"⟩,
    ⟨0xC, 0x3, .exactly 0x30, "USB3 XHCI Controller"⟩,
    ⟨0xC, 0x3, .exactly 0x80, "Unspecified USB Controller"⟩,
    ⟨0xC, 0xFE, .any, "USB (Not Host Controller)"⟩,
    ⟨0xC, 0x4, .exactly 0, "Fibre Channel"⟩,
    ⟨0xC, 0x5, .exactly 0, "SMBus"⟩,
    ⟨0xC, 0x6, .exactly 0, "InfiniBand"⟩,
    ⟨0xC, 0x7, .exactly 0, "IPMI SMIC Interface"⟩,
    ⟨0xC, 0x7, .exactly 1, "IPMI Kybd Controller Style Interface"⟩,
    ⟨0xC, 0x7, .exactly 2, "IPMI Block Transfer Interface"⟩,
    ⟨0xC, 0x8, .exactly 0, "SERCOS Interface Standard (IEC 61491)"⟩,
    ⟨0xC, 0x9, .exactly 0, "CANbus"⟩,
    ⟨0xD, 0x0, .exactly 0, "iRDA Compatible Controller"⟩,
    ⟨0xD, 0x1, .exactly 0, "Consumer IR Controller"⟩,
    ⟨0xD, 0x10, .exactly 0, "RF Controller"⟩,
    ⟨0xD, 0x11, .exactly 0, "Bluetooth Controller"⟩,
    ⟨0xD, 0x12, .exactly 0, "Broadband Controller"⟩,
    ⟨0xD, 0x20, .exactly 0, "Ethernet Controller (802.11a)"⟩,
    ⟨0xD, 0x21, .exactly 0, "Ethernet Controller (802.11b)"⟩,
    ⟨0xD, 0x80, .exactly 0, "Other Wireless Controller"⟩,
    ⟨0xE, 0x0, .exactly 0, "I20 Architecture"⟩,
    ⟨0xE, 0x0, .positive, "Message FIFO"⟩,
    ⟨0xF, 0x1, .exactly 0, "TV Controller"⟩,
    ⟨0xF, 0x2, .exactly 0, "Audio Controller"⟩,
    ⟨0xF, 0x3, .exactly 0, "Voice Controller"⟩,
    ⟨0xF, 0x4, .exactly 0, "Data Controller"⟩,
    ⟨0x10, 0x0, .exactly 0, "Network and Computing Encryption/Decryption"⟩,
    ⟨0x10, 0x10, .exactly 0, "Entertainment Encryption/Decryption"⟩,
    ⟨0x10, 0x80, .exactly 0, "Other Encryption/Decryption"⟩,
    ⟨0x11, 0x0, .exactly 0, "DPIO Modules"⟩,
    ⟨0x11, 0x1, .exactly 0, "Performance Counters"⟩,
    ⟨0x11, 0x10, .exactly 0, "Communications Synchronization Plus Time and Frequency Test/Measurement"⟩,
    ⟨0x11, 0x20, .exactly 0, "Management Card"⟩,
    ⟨0x11, 0x80, .exactly 0, "Other Data Acquisition/Signal Processing Controller"⟩]

/-- The text for a class, a subclass and a programming interface: that of the first condition that holds. -/
def describe (cc sc p : ℕ) : String :=
  match descriptionRules.find? fun rule => cc = rule.cc && sc = rule.sc && rule.p.holds p with
  | some rule => rule.text
  | none => "not specified"

/-- The loops of `load_pci_info` over the table of descriptions. -/
def fillDescriptions (descriptions : ℕ → Option String) : ℕ → Option String :=
  run (fun t cc =>
    run (fun t sc =>
      run (fun t p => Function.update t (descriptionIndex cc sc p) (some (describe cc sc p))) t (List.range 128))
    t (List.range 128))
  descriptions (List.range 128)

/-- `load_disk_drives`: the drivers that are loaded, found by the description of each device. -/
def loadDiskDrives (drivers : String → Option String) (pcieEntries : List PcieInfo) : List String :=
  pcieEntries.filterMap fun info => if info.classId = 1 then info.ddescription.bind drivers else none

/-- One row of the table. -/
theorem fillRow (cc sc : ℕ) (t : ℕ → Option String) :
    run (fun t p => Function.update t (descriptionIndex cc sc p) (some (describe cc sc p))) t (List.range 128) =
      fillBlock (descriptionIndex cc sc 0) 128 (fun p => some (describe cc sc p)) t := by
  have hstep : (fun t p => Function.update t (descriptionIndex cc sc p) (some (describe cc sc p))) =
      fun t p => fillBlock (descriptionIndex cc sc 0 + 1 * p) 1 (fun _ => some (describe cc sc p)) t := by
    funext t p
    rw [fillBlock_one, Nat.one_mul]
    rfl
  rw [hstep, run_fillBlock Nat.one_pos]
  simp only [Nat.one_mul, Nat.div_one]

/-- The rows of a class. -/
theorem fillClass (cc : ℕ) (t : ℕ → Option String) :
    run (fun t sc => fillBlock (descriptionIndex cc sc 0) 128 (fun p => some (describe cc sc p)) t) t (List.range 128) =
      fillBlock (descriptionIndex cc 0 0) (128 * 128) (fun o => some (describe cc (o / 128) (o % 128))) t :=
  run_fillBlock (by decide) (descriptionIndex cc 0 0) 128 (fun sc p => some (describe cc sc p)) t

/-- The whole table. -/
theorem fillDescriptions_eq (t : ℕ → Option String) : fillDescriptions t =
    fillBlock 0 (128 * 128 * 128) (fun o => some (describe (o / (128 * 128)) (o % (128 * 128) / 128) (o % (128 * 128) % 128))) t := by
  have hclass (cc : ℕ) : descriptionIndex cc 0 0 = 0 + 128 * 128 * cc := by
    unfold descriptionIndex
    omega
  unfold fillDescriptions
  simp only [fillRow, fillClass, hclass]
  exact run_fillBlock (by decide) 0 128 (fun cc o => some (describe cc (o / 128) (o % 128))) t

/-- What a device with these numbers reads from the table. -/
theorem fillDescriptions_index (c s p : ℕ) : fillDescriptions (fun _ => none) (descriptionIndex c s p) =
    if descriptionIndex c s p < 128 * 128 * 128 then
      some (describe (descriptionIndex c s p / (128 * 128)) (descriptionIndex c s p % (128 * 128) / 128)
        (descriptionIndex c s p % 128))
    else none := by
  have hdigit : descriptionIndex c s p % (128 * 128) % 128 = descriptionIndex c s p % 128 := Nat.mod_mul_left_mod _ 128 128
  rw [fillDescriptions_eq]
  unfold fillBlock
  simp only [Nat.zero_le, true_and, Nat.zero_add, Nat.sub_zero, hdigit]

/-- The entry that a device with these numbers reads has been filled, with the text for them. -/
def Described (c s p : ℕ) : Prop := fillDescriptions (fun _ => none) (descriptionIndex c s p) = some (describe c s p)

/-- No device with other numbers reads the same entry. -/
def Unshared (c s p : ℕ) : Prop :=
  ∀ c' s' p', c' < 256 → s' < 256 → p' < 256 → descriptionIndex c' s' p' = descriptionIndex c s p → c' = c ∧ s' = s ∧ p' = p

/-- The index lies in the part of the table that is filled, and the conditions give its digits the text of these numbers. -/
def SameText (c s p : ℕ) : Prop :=
  descriptionIndex c s p < 128 * 128 * 128 ∧
    describe (descriptionIndex c s p / (128 * 128)) (descriptionIndex c s p % (128 * 128) / 128)
      (descriptionIndex c s p % 128) = describe c s p

/-- Where the right entry is read. -/
theorem described_iff_sameText (c s p : ℕ) : Described c s p ↔ SameText c s p := by
  unfold Described SameText
  rw [fillDescriptions_index]
  split
  case isTrue hin => exact ⟨fun h => ⟨hin, Option.some.inj h⟩, fun h => congrArg some h.2⟩
  case isFalse hout => exact ⟨fun h => absurd h (Option.some_ne_none _).symm, fun h => absurd h.1 hout⟩

/-- Only the first and the last half of a row have indices of their own. -/
theorem unshared_iff {c s p : ℕ} (hc : c < 256) (hs : s < 256) (hp : p < 256) :
    Unshared c s p ↔ c = 0 ∧ s = 0 ∧ p < 128 ∨ c = 255 ∧ s = 255 ∧ 128 ≤ p := by
  unfold Unshared descriptionIndex
  constructor
  · intro h
    by_cases hlow : p < 128
    · by_cases hzero : s = 0
      · left
        by_cases hclass : c = 0
        · exact ⟨hclass, hzero, hlow⟩
        · have hsame := h (c - 1) 128 p (by omega) (by decide) hp (by omega)
          omega
      · have hsame := h c (s - 1) (p + 128) hc (by omega) (by omega) (by omega)
        omega
    · right
      by_cases hlast : s = 255
      · by_cases hclass : c = 255
        · exact ⟨hclass, hlast, by omega⟩
        · have hsame := h (c + 1) 128 (p - 128) (by omega) (by decide) (by omega) (by omega)
          omega
      · have hsame := h c (s + 1) (p - 128) hc (by omega) (by omega) (by omega)
        omega
  · intro h c' s' p' hc' hs' hp' hsame
    omega

/-- A record has the text of its index. -/
theorem ddescription_eq {bi : PciBus} {space : ℕ → ℕ} {descriptions : ℕ → Option String} {mapped : Option ℕ} {room : ℕ}
    {info : PcieInfo} (hinfo : info ∈ loadPcieEntryInfo bi space descriptions mapped room []) :
    info.ddescription = descriptions (descriptionIndex info.classId info.subclass info.progIf) := by
  obtain ⟨base, i, j, k, rfl⟩ := mem_loadPcieEntryInfo hinfo
  rfl

/-- `load_disk_drives` picks the driver of a disk by the text for its numbers. -/
def PicksByText (info : PcieInfo) : Prop :=
  ∀ drivers, loadDiskDrives drivers [info] = (drivers (describe info.classId info.subclass info.progIf)).toList

/-- It does where the record has this text. -/
theorem picksByText_iff {info : PcieInfo} (hdisk : info.classId = 1) :
    PicksByText info ↔ info.ddescription = some (describe info.classId info.subclass info.progIf) := by
  have hload (drivers : String → Option String) :
      loadDiskDrives drivers [info] = (info.ddescription.bind drivers).toList := by
    unfold loadDiskDrives
    rw [List.filterMap_cons, if_pos hdisk]
    cases info.ddescription.bind drivers <;> rfl
  constructor
  · intro h
    have hone := h fun text => if text = describe info.classId info.subclass info.progIf then some text else none
    rw [hload, if_pos rfl] at hone
    cases htext : info.ddescription with
    | none =>
      rw [htext] at hone
      exact absurd hone (by simp)
    | some text =>
      rw [htext, Option.bind_some] at hone
      split at hone
      case isTrue hsame => exact congrArg some hsame
      case isFalse => exact absurd hone (by simp)
  · intro h drivers
    rw [hload, h, Option.bind_some]

/-- The description that a device reads is filled and its own exactly when the conditions have the same text for the digits
of the index; the index is its own in two half rows only, so that both hold for the first of them; and the driver of a disk
is found by its own description exactly when that is read. -/
theorem described_iff (c s p : ℕ) (hc : c < 256) (hs : s < 256) (hp : p < 256) :
    (Described c s p ↔ SameText c s p) ∧
      (Unshared c s p ↔ c = 0 ∧ s = 0 ∧ p < 128 ∨ c = 255 ∧ s = 255 ∧ 128 ≤ p) ∧
      (Described c s p ∧ Unshared c s p ↔ c = 0 ∧ s = 0 ∧ p < 128) ∧
      ∀ bi space mapped room,
        ∀ info ∈ loadPcieEntryInfo bi space (fillDescriptions fun _ => none) mapped room [],
          info.classId = c → info.subclass = s → info.progIf = p → c = 1 → (PicksByText info ↔ SameText c s p) := by
  refine ⟨described_iff_sameText c s p, unshared_iff hc hs hp, ?_, ?_⟩
  · rw [described_iff_sameText, unshared_iff hc hs hp]
    constructor
    · intro h
      cases h.2 with
      | inl hfirst => exact hfirst
      | inr hlast =>
        have hindex := h.1.1
        unfold descriptionIndex at hindex
        omega
    · intro h
      refine ⟨?_, Or.inl h⟩
      obtain ⟨rfl, rfl, hlow⟩ := h
      have hindex : descriptionIndex 0 0 p = p := by
        unfold descriptionIndex
        omega
      unfold SameText
      rw [hindex, Nat.div_eq_of_lt (by omega), Nat.mod_eq_of_lt (by omega), Nat.div_eq_of_lt hlow, Nat.mod_eq_of_lt hlow]
      exact ⟨by omega, rfl⟩
  · rintro bi space mapped room info hinfo rfl rfl rfl hdisk
    rw [picksByText_iff hdisk, ddescription_eq hinfo]
    exact described_iff_sameText _ _ _

/-- The second text of the table. -/
theorem described_vga : Described 0 0 1 ∧ Unshared 0 0 1 :=
  (described_iff 0 0 1 (by decide) (by decide) (by decide)).2.2.1.mpr (by decide)

/-- A storage controller of no kind in particular shares its entry with an Ethernet controller and reads the text of it. -/
theorem described_storage : ¬ Described 1 0x80 0 ∧ ¬ Unshared 1 0x80 0 ∧
    fillDescriptions (fun _ => none) (descriptionIndex 1 0x80 0) = some "Ethernet Controller" := by
  have hread : fillDescriptions (fun _ => none) (descriptionIndex 1 0x80 0) = some "Ethernet Controller" := by
    rw [fillDescriptions_index]
    decide +kernel
  refine ⟨?_, ?_, hread⟩
  · intro h
    have hsame : "Ethernet Controller" = describe 1 0x80 0 := Option.some.inj (hread.symm.trans h)
    exact absurd hsame (by decide +kernel)
  · intro h
    exact absurd (h 2 0 0 (by decide) (by decide) (by decide) rfl).1 (by decide)

end Cthulhu
