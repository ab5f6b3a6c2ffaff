import Cthulhu.Boot.TableWalks
import Cthulhu.Lib.BitFields
import Cthulhu.Lib.BoundedLog

/-!
# PCI configuration headers

`load_pcie_entry_info` walks the functions of a bus range and stores, of each one that answers, the fields of its
configuration header. Most accesses number the bytes of a register from its most significant end; those of the
subsystem swap their two words, and the capability pointer and the four bytes of the interrupt line and its
neighbours are read from other places.
-/

namespace Cthulhu

open Lib

/-- The number of a `busaddr` with its fields assigned in turn. -/
def busaddr (busnum devicenum funcnum ereg reg : ℕ) : ℕ :=
  let number := setField 20 8 busnum 0
  let number := setField 15 5 devicenum number
  let number := setField 8 4 ereg number
  let number := setField 12 3 funcnum number
  let number := setField 2 6 reg number
  setField 0 2 0 number

/-- `config_dword`: the address of a register. The numbers are cut off to bytes. -/
def configDword (address busnum devicenum funcnum ereg reg : ℕ) : ℕ :=
  busaddr (busnum % 256) (devicenum % 256) (funcnum % 256) (ereg % 256) (reg % 256) + address

/-- The mask of `RREG32`, which leaves one bit more than the width. -/
def rreg32 (w startbit width : ℕ) : ℕ := w &&& ((2 ^ (startbit + width + 1) - 1) &&& (2 ^ 64 - 1 - (2 ^ startbit - 1)))

section Accessors

variable (mem : ℕ → ℕ) (address busnum devicenum funcnum ereg reg : ℕ)

/-- A load of 32 bits. -/
def load32 (a : ℕ) : ℕ := leWord (fun k => mem (a + k)) 4

/-- `config_read_byte`. -/
def configReadByte (offset : ℕ) : ℕ :=
  let offset := if offset = 0 then 3 else if offset = 1 then 2 else if offset = 2 then 1 else 0
  rreg32 (load32 mem (configDword address busnum devicenum funcnum ereg reg)) (8 * offset) 8 / 2 ^ (8 * offset) % 2 ^ 8

/-- `config_read_word`. -/
def configReadWord (offset : ℕ) : ℕ :=
  let offset := if offset = 0 then 2 else if offset = 2 then 0 else offset
  rreg32 (load32 mem (configDword address busnum devicenum funcnum ereg reg)) (8 * offset) 16 / 2 ^ (8 * offset) % 2 ^ 16

/-- `config_read_dword`. -/
def configReadDword : ℕ := load32 mem (configDword address busnum devicenum funcnum ereg reg)

end Accessors

/-- The `header_0` of a `pcie_info_t`. -/
structure Header0 where
  bar0 : ℕ
  bar1 : ℕ
  bar2 : ℕ
  bar3 : ℕ
  bar4 : ℕ
  bar5 : ℕ
  cardbusCisPtr : ℕ
  subsystemId : ℕ
  subsystemVId : ℕ
  expRomBaseAddress : ℕ
  capPtr : ℕ
  maxlat : ℕ
  mingrant : ℕ
  ipin : ℕ
  iline : ℕ
  deriving DecidableEq, Repr

/-- A `pcie_info_t`. The texts are read from tables, of which the second one may not have been filled where it is read. -/
structure PcieInfo where
  baseAddress : ℕ
  exactAddress : ℕ
  bus : ℕ
  device : ℕ
  function : ℕ
  deviceId : ℕ
  vendorId : ℕ
  status : ℕ
  command : ℕ
  classId : ℕ
  subclass : ℕ
  progIf : ℕ
  revId : ℕ
  bist : ℕ
  htype : ℕ
  latTimer : ℕ
  cache : ℕ
  header0 : Header0
  cdescription : Option String
  ddescription : Option String
  deriving DecidableEq, Repr

/-- The table `description`. -/
def classDescriptions : List String :=
  ["Device was built prior definition of the class code field", "Mass Storage Controller", "Network Controller",
    "Display Controller", "Multimedia Controller", "Memory Controller", "Bridge Device",
    "Simple Communication Controllers", "Base System Peripherals", "Input Devices", "Docking Stations", "Processors",
    "Serial Bus Controllers", "Wireless Controllers", "Intelligent I/O Controllers",
    "Satellite Communication Controllers", "Encryption/Decryption Controllers",
    "Data Acquisition and Signal Processing Controllers"] ++
  List.replicate 237 "reserved" ++ ["Device does not fit any defined class."]

/-- The index into `descriptions`. -/
def descriptionIndex (classId subclass progIf : ℕ) : ℕ := 128 * 128 * classId + 128 * subclass + progIf

section Reading

variable (mem : ℕ → ℕ) (base : ℕ) (descriptions : ℕ → Option String)

/-- The fields of `header_0` of a header of type 0, at a function given by bytes. -/
def readHeader0 (bus device function : ℕ) : Header0 where
  bar0 := configReadDword mem base bus device function 0 4
  bar1 := configReadDword mem base bus device function 0 5
  bar2 := configReadDword mem base bus device function 0 6
  bar3 := configReadDword mem base bus device function 0 7
  bar4 := configReadDword mem base bus device function 0 8
  bar5 := configReadDword mem base bus device function 0 9
  cardbusCisPtr := configReadDword mem base bus device function 0 10
  subsystemId := configReadWord mem base bus device function 0 11 2
  subsystemVId := configReadWord mem base bus device function 0 11 0
  expRomBaseAddress := configReadDword mem base bus device function 0 12
  capPtr := configReadWord mem base bus device function 0 13 0 % 2 ^ 8
  maxlat := configReadWord mem base bus device function 0 14 3 % 2 ^ 8
  mingrant := configReadWord mem base bus device function 0 14 2 % 2 ^ 8
  ipin := configReadWord mem base bus device function 0 14 1 % 2 ^ 8
  iline := configReadWord mem base bus device function 0 14 0 % 2 ^ 8

/-- The record that is made of the function `k` of device `j` on the `i`th bus of the range. -/
def readInfo (i j k : ℕ) : PcieInfo :=
  let bus := i % 256
  let device := j % 256
  let function := k % 256
  let classId := configReadByte mem base bus device function 0 2 0
  let subclass := configReadByte mem base bus device function 0 2 1
  let progIf := configReadByte mem base bus device function 0 2 2
  let htype := configReadByte mem base bus device function 0 3 1
  { baseAddress := base
    exactAddress := configDword base i j k 0 0
    bus := bus
    device := device
    function := function
    deviceId := configReadWord mem base bus device function 0 0 0
    vendorId := configReadWord mem base i j k 0 0 2
    status := configDword base bus device function 0 1
    command := configDword base bus device function 0 1
    classId := classId
    subclass := subclass
    progIf := progIf
    revId := configReadByte mem base bus device function 0 2 3
    bist := configDword base bus device function 0 3
    htype := htype
    latTimer := configReadByte mem base bus device function 0 3 2
    cache := configReadByte mem base bus device function 0 3 3
    header0 :=
      if htype &&& 0x7F = 0 then readHeader0 mem base bus device function
      else ⟨0, 0, 0, 0, 0, 0, 0, 0, 0, 0, 0, 0, 0, 0, 0⟩
    cdescription := classDescriptions[classId]?
    ddescription := descriptions (descriptionIndex classId subclass progIf) }

/-- `pcie_entries` during the walk, with how many more records there is memory for. The call returns where a record finds
no memory. -/
abbrev Enumeration := BoundedLog PcieInfo

/-- The loop over the functions of a device. -/
def loadFunctions (i j : ℕ) : Enumeration → List ℕ → Enumeration
  | e, [] => e
  | e, k :: rest =>
    if e.full then e
    else if configReadWord mem base i j k 0 0 2 = 0xFFFF then loadFunctions i j e rest
    else if e.room = 0 then { e with full := true }
    else
      let info := readInfo mem base descriptions i j k
      let e := { e with entries := e.entries ++ [info], room := e.room - 1 }
      -- `k = 7` ends the loop
      if info.htype &&& 0x80 = 0 then e else loadFunctions i j e rest

/-- The loop over the devices of a bus. -/
def loadBus (e : Enumeration) (i : ℕ) : Enumeration :=
  run (fun e j => loadFunctions mem base descriptions i j e (List.range 7)) e (List.range 32)

end Reading

/-- `numentries`: the difference as a `size_t`. -/
def PciBus.numentries (bi : PciBus) : ℕ := (((bi.endPciBusnum : ℤ) - bi.startPciBusnum) % 2 ^ 64).toNat

/-- `load_pcie_entry_info`: the records of `pcie_entries` after it. The configuration space is given by its bytes from
the first bus on; `mapped` is where it has been mapped, if it has. -/
def loadPcieEntryInfo (bi : PciBus) (space : ℕ → ℕ) (descriptions : ℕ → Option String) (mapped : Option ℕ) (room : ℕ)
    (pcieEntries : List PcieInfo) : List PcieInfo :=
  match mapped with
  | none => pcieEntries
  | some base =>
    (run (loadBus (fun a => space (a - base)) base descriptions) ⟨pcieEntries, room, false⟩
      (List.range bi.numentries)).entries

/-- In a range of buses it is the difference. -/
theorem PciBus.numentries_eq {bi : PciBus} (hrange : bi.startPciBusnum ≤ bi.endPciBusnum) (hend : bi.endPciBusnum < 256) :
    bi.numentries = bi.endPciBusnum - bi.startPciBusnum := by
  unfold PciBus.numentries
  omega

/-- The number of an address has its fields side by side. -/
theorem busaddr_eq (busnum devicenum funcnum ereg reg : ℕ) : busaddr busnum devicenum funcnum ereg reg =
    2 ^ 20 * (busnum % 2 ^ 8) + 2 ^ 15 * (devicenum % 2 ^ 5) + 2 ^ 8 * (ereg % 2 ^ 4) + 2 ^ 12 * (funcnum % 2 ^ 3) +
      2 ^ 2 * (reg % 2 ^ 6) := by
  unfold busaddr
  dsimp only
  rw [@setField_of_clear 0 2, @setField_of_clear 2 6, @setField_of_clear 12 3, @setField_of_clear 8 4,
    @setField_of_clear 15 5, @setField_of_clear 20 8]
  all_goals simp [field_setField_of_apart]

/-- What a mask leaves, moved down and cut to the width of the access, is the field. -/
theorem rreg32_shift {w startbit width cut : ℕ} (hmask : startbit + width + 1 ≤ 64) (hcut : cut ≤ width) :
    rreg32 w startbit width / 2 ^ startbit % 2 ^ cut = field startbit cut w := by
  have hlow : 2 ^ startbit - 1 < 2 ^ 64 := by
    have hpow : 2 ^ startbit ≤ 2 ^ 64 := Nat.pow_le_pow_right (by decide) (by omega)
    omega
  apply Nat.eq_of_testBit_eq
  intro i
  rw [testBit_field, Nat.testBit_mod_two_pow, Nat.testBit_div_two_pow, rreg32, Nat.testBit_and, Nat.testBit_and,
    Nat.testBit_two_pow_sub_one, Nat.sub_sub, Nat.add_comm 1, Nat.testBit_two_pow_sub_succ hlow,
    Nat.testBit_two_pow_sub_one]
  by_cases hi : i < cut
  · have hbelow : i + startbit < startbit + width + 1 := by omega
    have hword : i + startbit < 64 := by omega
    have hno : ¬ i + startbit < startbit := by omega
    simp only [hi, hbelow, hword, hno, decide_true, decide_false, Bool.not_false, Bool.and_true]
  · simp only [hi, decide_false, Bool.false_and]

section Accessors

variable {mem : ℕ → ℕ} {address busnum devicenum funcnum ereg reg : ℕ}

/-- Bytes of a word from an offset on, as a field of it. -/
theorem field_load32 (a : ℕ) {k n : ℕ} (h : k + n ≤ 4) :
    field (8 * k) (8 * n) (load32 mem a) = leWord (fun o => mem (a + (k + o))) n := by
  rw [field, Nat.pow_mul, Nat.pow_mul]
  exact leWord_slice _ h

/-- `config_read_byte` numbers the bytes of a register from its end. -/
theorem configReadByte_eq {offset : ℕ} (h : offset < 4) : configReadByte mem address busnum devicenum funcnum ereg reg offset =
    mem (configDword address busnum devicenum funcnum ereg reg + (3 - offset)) % 256 := by
  have hplace : (if offset = 0 then 3 else if offset = 1 then 2 else if offset = 2 then 1 else 0) = 3 - offset := by
    split
    · omega
    · split
      · omega
      · split <;> omega
  unfold configReadByte
  dsimp only
  rw [hplace, rreg32_shift (by omega) (Nat.le_refl 8), field_load32 (n := 1) _ (by omega)]
  rfl

/-- `config_read_word` numbers the words of a register from its end; at an odd offset it reads that byte, and the next
one. -/
theorem configReadWord_eq {offset cut : ℕ} (hoffset : offset < 4) (hcut : cut ≤ 2)
    (h : (if offset = 0 then 2 else if offset = 2 then 0 else offset) + cut ≤ 4) :
    configReadWord mem address busnum devicenum funcnum ereg reg offset % 2 ^ (8 * cut) =
      leWord (fun o => mem (configDword address busnum devicenum funcnum ereg reg +
        ((if offset = 0 then 2 else if offset = 2 then 0 else offset) + o))) cut := by
  have hplace : (if offset = 0 then 2 else if offset = 2 then 0 else offset) < 4 := by
    split
    · decide
    · split <;> omega
  unfold configReadWord
  dsimp only
  rw [Nat.mod_mod_of_dvd _ (Nat.pow_dvd_pow 2 (by omega)), rreg32_shift (by omega) (by omega), field_load32 _ h]

/-- `config_read_dword` reads the register. -/
theorem configReadDword_eq : configReadDword mem address busnum devicenum funcnum ereg reg =
    leWord (fun o => mem (configDword address busnum devicenum funcnum ereg reg + o)) 4 := rfl

end Accessors

/-- A number of `n` bytes of a header. -/
def headerBytes (header : ℕ → ℕ) (o n : ℕ) : ℕ := leWord (fun k => header (o + k)) n

/-- The header of the function that a record was made of. -/
def PcieInfo.header (space : ℕ → ℕ) (info : PcieInfo) (o : ℕ) : ℕ :=
  space (busaddr info.bus info.device info.function 0 0 + o)

/-- The record holds what the layout of a header of type 0 places at its offsets. -/
structure Decodes (header : ℕ → ℕ) (info : PcieInfo) : Prop where
  vendorId : info.vendorId = headerBytes header 0x00 2
  deviceId : info.deviceId = headerBytes header 0x02 2
  revId : info.revId = header 0x08 % 256
  progIf : info.progIf = header 0x09 % 256
  subclass : info.subclass = header 0x0A % 256
  classId : info.classId = header 0x0B % 256
  cache : info.cache = header 0x0C % 256
  latTimer : info.latTimer = header 0x0D % 256
  htype : info.htype = header 0x0E % 256
  bar0 : info.header0.bar0 = headerBytes header 0x10 4
  bar1 : info.header0.bar1 = headerBytes header 0x14 4
  bar2 : info.header0.bar2 = headerBytes header 0x18 4
  bar3 : info.header0.bar3 = headerBytes header 0x1C 4
  bar4 : info.header0.bar4 = headerBytes header 0x20 4
  bar5 : info.header0.bar5 = headerBytes header 0x24 4
  cardbusCisPtr : info.header0.cardbusCisPtr = headerBytes header 0x28 4
  subsystemVId : info.header0.subsystemVId = headerBytes header 0x2C 2
  subsystemId : info.header0.subsystemId = headerBytes header 0x2E 2
  expRomBaseAddress : info.header0.expRomBaseAddress = headerBytes header 0x30 4
  capPtr : info.header0.capPtr = header 0x34 % 256
  iline : info.header0.iline = header 0x3C % 256
  ipin : info.header0.ipin = header 0x3D % 256
  mingrant : info.header0.mingrant = header 0x3E % 256
  maxlat : info.header0.maxlat = header 0x3F % 256

/-- The places that are mistaken for each other hold the same. -/
structure SameAtMistaken (header : ℕ → ℕ) : Prop where
  subsystem : headerBytes header 0x2C 2 = headerBytes header 0x2E 2
  capPtr : header 0x36 % 256 = header 0x34 % 256
  iline : header 0x3A % 256 = header 0x3C % 256
  ipin : header 0x39 % 256 = header 0x3D % 256
  mingrant : header 0x38 % 256 = header 0x3E % 256
  maxlat : header 0x3B % 256 = header 0x3F % 256

section Records

variable {mem : ℕ → ℕ} {base : ℕ} {descriptions : ℕ → Option String} {i j k : ℕ}

/-- The registers of a header follow each other. -/
theorem configDword_reg {address busnum devicenum funcnum reg : ℕ} (h : reg < 16) :
    configDword address busnum devicenum funcnum 0 reg = busaddr (busnum % 256) (devicenum % 256) (funcnum % 256) 0 0 + 4 * reg + address := by
  rw [configDword, busaddr_eq, busaddr_eq]
  omega

/-- A register of a function, from its bytes. -/
theorem configReadDword_header {header : ℕ → ℕ} (hheader : ∀ o, mem (configDword base i j k 0 0 + o) = header o) {reg : ℕ}
    (h : reg < 16) : configReadDword mem base i j k 0 reg = headerBytes header (4 * reg) 4 := by
  rw [configReadDword_eq]
  apply leWord_congr
  intro o _
  rw [← hheader, configDword_reg h, configDword_reg (Nat.succ_pos 15)]
  congr 1
  omega

/-- A byte of a function. -/
theorem configReadByte_header {header : ℕ → ℕ} (hheader : ∀ o, mem (configDword base i j k 0 0 + o) = header o)
    {reg offset : ℕ} (h : reg < 16) (hoffset : offset < 4) :
    configReadByte mem base i j k 0 reg offset = header (4 * reg + (3 - offset)) % 256 := by
  rw [configReadByte_eq hoffset, ← hheader, configDword_reg h, configDword_reg (Nat.succ_pos 15)]
  congr 2
  omega

/-- A word of a function, or its lower byte. -/
theorem configReadWord_header {header : ℕ → ℕ} (hheader : ∀ o, mem (configDword base i j k 0 0 + o) = header o)
    {reg offset cut : ℕ} (h : reg < 16) (hoffset : offset < 4) (hcut : cut ≤ 2)
    (hin : (if offset = 0 then 2 else if offset = 2 then 0 else offset) + cut ≤ 4) :
    configReadWord mem base i j k 0 reg offset % 2 ^ (8 * cut) =
      headerBytes header (4 * reg + if offset = 0 then 2 else if offset = 2 then 0 else offset) cut := by
  rw [configReadWord_eq hoffset hcut hin]
  apply leWord_congr
  intro o _
  rw [← hheader, configDword_reg h, configDword_reg (Nat.succ_pos 15)]
  congr 1
  omega

/-- A whole word of a function. -/
theorem configReadWord_header_two {header : ℕ → ℕ} (hheader : ∀ o, mem (configDword base i j k 0 0 + o) = header o)
    {reg offset : ℕ} (h : reg < 16) (hoffset : offset = 0 ∨ offset = 2) :
    configReadWord mem base i j k 0 reg offset = headerBytes header (4 * reg + (2 - offset)) 2 := by
  have hword : configReadWord mem base i j k 0 reg offset = configReadWord mem base i j k 0 reg offset % 2 ^ (8 * 2) :=
    (Nat.mod_eq_of_lt (Nat.mod_lt _ (by decide))).symm
  cases hoffset with
  | inl hzero =>
    subst hzero
    exact hword.trans (configReadWord_header hheader h (by decide) (Nat.le_refl 2) (by decide))
  | inr htwo =>
    subst htwo
    exact hword.trans (configReadWord_header hheader h (by decide) (Nat.le_refl 2) (by decide))

/-- What is stored of a header of type 0, by the places it is read from. -/
theorem readHeader0_eq {header : ℕ → ℕ} (hheader : ∀ o, mem (configDword base i j k 0 0 + o) = header o) :
    readHeader0 mem base i j k =
      { bar0 := headerBytes header 0x10 4
        bar1 := headerBytes header 0x14 4
        bar2 := headerBytes header 0x18 4
        bar3 := headerBytes header 0x1C 4
        bar4 := headerBytes header 0x20 4
        bar5 := headerBytes header 0x24 4
        cardbusCisPtr := headerBytes header 0x28 4
        subsystemId := headerBytes header 0x2C 2
        subsystemVId := headerBytes header 0x2E 2
        expRomBaseAddress := headerBytes header 0x30 4
        capPtr := header 0x36 % 256
        maxlat := header 0x3B % 256
        mingrant := header 0x38 % 256
        ipin := header 0x39 % 256
        iline := header 0x3A % 256 } := by
  have hdword {reg : ℕ} (h : reg < 16) : configReadDword mem base i j k 0 reg = headerBytes header (4 * reg) 4 :=
    configReadDword_header hheader h
  have hword {offset : ℕ} (h : offset = 0 ∨ offset = 2) :
      configReadWord mem base i j k 0 11 offset = headerBytes header (4 * 11 + (2 - offset)) 2 :=
    configReadWord_header_two hheader (by decide) h
  have hbyte {reg offset : ℕ} (h : reg < 16) (hoffset : offset < 4)
      (hin : (if offset = 0 then 2 else if offset = 2 then 0 else offset) + 1 ≤ 4) :
      configReadWord mem base i j k 0 reg offset % 2 ^ 8 =
        headerBytes header (4 * reg + if offset = 0 then 2 else if offset = 2 then 0 else offset) 1 :=
    configReadWord_header hheader h hoffset (by decide) hin
  unfold readHeader0
  rw [hdword (by decide), hdword (by decide), hdword (by decide), hdword (by decide), hdword (by decide),
    hdword (by decide), hdword (by decide), hdword (by decide), hword (Or.inr rfl), hword (Or.inl rfl),
    hbyte (by decide) (by decide) (by decide), hbyte (by decide) (by decide) (by decide),
    hbyte (by decide) (by decide) (by decide), hbyte (by decide) (by decide) (by decide),
    hbyte (by decide) (by decide) (by decide)]
  rfl

/-- The record of a function decodes its header of type 0 exactly when the mistaken places make no difference. -/
theorem readInfo_decodes_iff {header : ℕ → ℕ} (hheader : ∀ o, mem (configDword base i j k 0 0 + o) = header o)
    (htype : header 0x0E % 256 &&& 0x7F = 0) :
    Decodes header (readInfo mem base descriptions i j k) ↔ SameAtMistaken header := by
  have hbytes (o : ℕ) : mem (configDword base (i % 256) (j % 256) (k % 256) 0 0 + o) = header o := by
    rw [← hheader, configDword, configDword, Nat.mod_mod, Nat.mod_mod, Nat.mod_mod]
  have hheader0 : (readInfo mem base descriptions i j k).header0 = readHeader0 mem base (i % 256) (j % 256) (k % 256) := by
    unfold readInfo
    dsimp only
    rw [configReadByte_header hbytes (by decide) (by decide), if_pos htype]
  rw [readHeader0_eq hbytes] at hheader0
  constructor
  · intro h
    have hsubsystem := h.subsystemVId
    have hcapPtr := h.capPtr
    have hiline := h.iline
    have hipin := h.ipin
    have hmingrant := h.mingrant
    have hmaxlat := h.maxlat
    rw [hheader0] at hsubsystem hcapPtr hiline hipin hmingrant hmaxlat
    exact ⟨hsubsystem.symm, hcapPtr, hiline, hipin, hmingrant, hmaxlat⟩
  · intro h
    have hbyte {reg offset : ℕ} (hreg : reg < 16) (hoffset : offset < 4) :
        configReadByte mem base (i % 256) (j % 256) (k % 256) 0 reg offset = header (4 * reg + (3 - offset)) % 256 :=
      configReadByte_header hbytes hreg hoffset
    constructor
    case vendorId => exact configReadWord_header_two hheader (by decide) (Or.inr rfl)
    case deviceId => exact configReadWord_header_two hbytes (by decide) (Or.inl rfl)
    case revId => exact hbyte (by decide) (by decide)
    case progIf => exact hbyte (by decide) (by decide)
    case subclass => exact hbyte (by decide) (by decide)
    case classId => exact hbyte (by decide) (by decide)
    case cache => exact hbyte (by decide) (by decide)
    case latTimer => exact hbyte (by decide) (by decide)
    case htype => exact hbyte (by decide) (by decide)
    case subsystemVId => rw [hheader0, h.subsystem]
    case subsystemId => rw [hheader0, h.subsystem]
    case capPtr => rw [hheader0, ← h.capPtr]
    case iline => rw [hheader0, ← h.iline]
    case ipin => rw [hheader0, ← h.ipin]
    case mingrant => rw [hheader0, ← h.mingrant]
    case maxlat => rw [hheader0, ← h.maxlat]
    all_goals rw [hheader0]

/-- A function answers. -/
def answers (mem : ℕ → ℕ) (base i j k : ℕ) : Bool := configReadWord mem base i j k 0 0 2 ≠ 0xFFFF

/-- The walk goes on behind a function. -/
def goesOn (mem : ℕ → ℕ) (base : ℕ) (descriptions : ℕ → Option String) (i j k : ℕ) : Bool :=
  (readInfo mem base descriptions i j k).htype &&& 0x80 ≠ 0

/-- The records that are made of a device. -/
def deviceRecords (mem : ℕ → ℕ) (base : ℕ) (descriptions : ℕ → Option String) (i j : ℕ) (ks : List ℕ) : List PcieInfo :=
  (takeThrough (goesOn mem base descriptions i j) (ks.filter (answers mem base i j))).map
    (readInfo mem base descriptions i j)

/-- The records that are made of all devices on the first buses of the range. -/
def allRecords (mem : ℕ → ℕ) (base : ℕ) (descriptions : ℕ → Option String) (numentries : ℕ) : List PcieInfo :=
  (List.range numentries).flatMap fun i =>
    (List.range 32).flatMap fun j => deviceRecords mem base descriptions i j (List.range 7)

/-- The loop over the functions of a device pushes its records. -/
theorem loadFunctions_eq {e : Enumeration} (h : e.Stopped) (ks : List ℕ) :
    loadFunctions mem base descriptions i j e ks = e.push (deviceRecords mem base descriptions i j ks) := by
  induction ks generalizing e with
  | nil => exact BoundedLog.push_nil.symm
  | cons k rest ih =>
    unfold loadFunctions
    split
    case isTrue hfull => exact (BoundedLog.push_of_full h hfull _).symm
    case isFalse hfull =>
      split
      case isTrue habsent =>
        have hno : answers mem base i j k = false := decide_eq_false (not_not_intro habsent)
        rw [ih h, deviceRecords, deviceRecords, List.filter_cons_of_neg (by rw [hno]; decide)]
      case isFalse hpresent =>
        have hyes : answers mem base i j k = true := decide_eq_true hpresent
        rw [deviceRecords, List.filter_cons_of_pos hyes]
        unfold takeThrough
        split
        case isTrue hroom =>
          split
          · exact (BoundedLog.push_of_no_room hroom _ _).symm
          · exact (BoundedLog.push_of_no_room hroom _ _).symm
        case isFalse hroom =>
          have hpush := BoundedLog.push_singleton hroom (readInfo mem base descriptions i j k)
          dsimp only
          rw [← hpush]
          split
          case isTrue hsingle =>
            have hstop : goesOn mem base descriptions i j k = false := decide_eq_false (not_not_intro hsingle)
            rw [if_neg (by rw [hstop]; decide)]
            rfl
          case isFalse hmulti =>
            have hon : goesOn mem base descriptions i j k = true := decide_eq_true hmulti
            rw [if_pos hon, ih (h.push _), ← BoundedLog.push_append]
            rfl

/-- The loop over the devices of a bus. -/
theorem loadBus_eq {e : Enumeration} (h : e.Stopped) : loadBus mem base descriptions e i =
    e.push ((List.range 32).flatMap fun j => deviceRecords mem base descriptions i j (List.range 7)) := by
  unfold loadBus
  apply BoundedLog.run_push _ h
  intro e j he
  exact loadFunctions_eq he (List.range 7)

/-- `load_pcie_entry_info` appends the first records that there is memory for. -/
theorem loadPcieEntryInfo_some (bi : PciBus) (space : ℕ → ℕ) (room : ℕ) (pcieEntries : List PcieInfo) :
    loadPcieEntryInfo bi space descriptions (some base) room pcieEntries =
      pcieEntries ++ (allRecords (fun a => space (a - base)) base descriptions bi.numentries).take room := by
  have hstart : BoundedLog.Stopped (⟨pcieEntries, room, false⟩ : Enumeration) := by
    intro hno
    exact absurd hno Bool.false_ne_true
  have hround (e : Enumeration) (i : ℕ) (he : e.Stopped) : loadBus (fun a => space (a - base)) base descriptions e i =
      e.push ((List.range 32).flatMap fun j => deviceRecords (fun a => space (a - base)) base descriptions i j (List.range 7)) :=
    loadBus_eq he
  unfold loadPcieEntryInfo
  dsimp only
  rw [BoundedLog.run_push hround hstart, BoundedLog.push_entries, allRecords]

/-- Every record that `load_pcie_entry_info` appends is made of a function. -/
theorem mem_loadPcieEntryInfo {bi : PciBus} {space : ℕ → ℕ} {mapped : Option ℕ} {room : ℕ} {info : PcieInfo}
    (hinfo : info ∈ loadPcieEntryInfo bi space descriptions mapped room []) :
    ∃ base i j k, info = readInfo (fun a => space (a - base)) base descriptions i j k := by
  cases mapped with
  | none => exact absurd hinfo (List.not_mem_nil)
  | some base =>
    rw [loadPcieEntryInfo_some, List.nil_append] at hinfo
    obtain ⟨i, -, hbus⟩ := List.mem_flatMap.mp (List.mem_of_mem_take hinfo)
    obtain ⟨j, -, hdevice⟩ := List.mem_flatMap.mp hbus
    obtain ⟨k, -, hrecord⟩ := List.mem_map.mp hdevice
    exact ⟨base, i, j, k, hrecord.symm⟩

/-- The first function of all has the first record, where it answers and there is memory for it. -/
theorem first_mem_loadPcieEntryInfo {bi : PciBus} {space : ℕ → ℕ} {room : ℕ} (hbuses : 0 < bi.numentries) (hroom : 0 < room)
    (hanswers : answers (fun a => space (a - base)) base 0 0 0 = true) :
    readInfo (fun a => space (a - base)) base descriptions 0 0 0 ∈
      loadPcieEntryInfo bi space descriptions (some base) room [] := by
  obtain ⟨n, hn⟩ := Nat.exists_eq_succ_of_ne_zero (Nat.pos_iff_ne_zero.mp hbuses)
  obtain ⟨m, rfl⟩ := Nat.exists_eq_succ_of_ne_zero (Nat.pos_iff_ne_zero.mp hroom)
  have hfirst : ∃ rest, takeThrough (goesOn (fun a => space (a - base)) base descriptions 0 0)
      ((List.range 7).filter (answers (fun a => space (a - base)) base 0 0)) = 0 :: rest := by
    rw [List.range_succ_eq_map, List.filter_cons_of_pos hanswers, takeThrough]
    split
    · exact ⟨_, rfl⟩
    · exact ⟨[], rfl⟩
  obtain ⟨rest, hrest⟩ := hfirst
  rw [loadPcieEntryInfo_some, List.nil_append, allRecords, hn, List.range_succ_eq_map (n := n), List.flatMap_cons,
    List.range_succ_eq_map (n := 31), List.flatMap_cons, deviceRecords, hrest, List.map_cons, List.cons_append,
    List.cons_append, List.take_succ_cons]
  exact List.mem_cons_self

end Records

/-- A record that `load_pcie_entry_info` appends of a function with a header of type 0 decodes it exactly when the two
words of the subsystem are the same and the five bytes read from wrong places are those of the right ones. -/
theorem decodes_iff (bi : PciBus) (space : ℕ → ℕ) (descriptions : ℕ → Option String) (mapped : Option ℕ) (room : ℕ)
    (info : PcieInfo) (hinfo : info ∈ loadPcieEntryInfo bi space descriptions mapped room [])
    (htype : info.header space 0x0E % 256 &&& 0x7F = 0) :
    Decodes (info.header space) info ↔ SameAtMistaken (info.header space) := by
  obtain ⟨base, i, j, k, rfl⟩ := mem_loadPcieEntryInfo hinfo
  apply readInfo_decodes_iff _ htype
  intro o
  change space (busaddr (i % 256) (j % 256) (k % 256) 0 0 + base + o - base) =
    space (busaddr (i % 256) (j % 256) (k % 256) 0 0 + o)
  congr 1
  omega

/-- The first function of all lies at the start. -/
theorem configDword_zero (address : ℕ) : configDword address 0 0 0 0 0 = address := by
  rw [configDword_reg (Nat.succ_pos 15), busaddr_eq]
  omega

/-- The bus of the examples: a configuration space is the header of its first function, which starts it. -/
theorem first_header {space : ℕ → ℕ} (hvendor : headerBytes space 0 2 ≠ 0xFFFF) :
    ∃ info ∈ loadPcieEntryInfo ⟨0, 0, 0, 1⟩ space (fun _ => none) (some 4096) 1 [], info.header space = space ∧
      (space 0x0E % 256 &&& 0x7F = 0 → (Decodes space info ↔ SameAtMistaken space)) := by
  have hheader (o : ℕ) : (fun a => space (a - 4096)) (configDword 4096 0 0 0 0 0 + o) = space o := by
    dsimp only
    rw [configDword_zero, Nat.add_sub_cancel_left]
  have hbuses : 0 < (⟨0, 0, 0, 1⟩ : PciBus).numentries := by
    rw [PciBus.numentries_eq (by decide) (by decide)]
    decide
  have hanswers : answers (fun a => space (a - 4096)) 4096 0 0 0 = true := by
    apply decide_eq_true
    have hword := @configReadWord_header_two (fun a => space (a - 4096)) 4096 0 0 0 space hheader 0 2 (by decide) (Or.inr rfl)
    rw [hword]
    exact hvendor
  refine ⟨readInfo (fun a => space (a - 4096)) 4096 (fun _ => none) 0 0 0, ?_, ?_, readInfo_decodes_iff hheader⟩
  · exact first_mem_loadPcieEntryInfo hbuses Nat.one_pos hanswers
  · funext o
    have hzero : busaddr 0 0 0 0 0 = 0 := configDword_zero 0
    rw [PcieInfo.header, readInfo]
    dsimp only
    rw [Nat.zero_mod, hzero, Nat.zero_add]

/-- A header of type 0 whose bytes differ, but for those that are read from wrong places. -/
def distinctHeader (a : ℕ) : ℕ :=
  if a = 0x0E then 0
  else if a = 0x2E ∨ a = 0x2F then a - 2
  else if a = 0x36 then 0x34
  else if a = 0x38 then 0x3E
  else if a = 0x39 then 0x3D
  else if a = 0x3A then 0x3C
  else if a = 0x3B then 0x3F
  else a

/-- Such a device. -/
theorem decodes_distinct : ∃ info ∈ loadPcieEntryInfo ⟨0, 0, 0, 1⟩ distinctHeader (fun _ => none) (some 4096) 1 [],
    Decodes (info.header distinctHeader) info := by
  obtain ⟨info, hinfo, hheader, -⟩ := @first_header distinctHeader (by decide)
  have hsame : SameAtMistaken (info.header distinctHeader) := by
    rw [hheader]
    exact ⟨by decide, rfl, rfl, rfl, rfl, rfl⟩
  have htype : info.header distinctHeader 0x0E % 256 &&& 0x7F = 0 := by
    rw [hheader]
    decide
  exact ⟨info, hinfo, (decodes_iff _ _ _ _ _ info hinfo htype).mpr hsame⟩

/-- A device whose subsystem has an id of its own, which is stored as the vendor. -/
theorem decodes_subsystem : ∃ info ∈ loadPcieEntryInfo ⟨0, 0, 0, 1⟩ (fun a => if a = 0x2E then 1 else 0) (fun _ => none) (some 4096) 1 [],
    info.header (fun a => if a = 0x2E then 1 else 0) 0x0E % 256 &&& 0x7F = 0 ∧
      ¬ Decodes (info.header fun a => if a = 0x2E then 1 else 0) info := by
  obtain ⟨info, hinfo, hheader, hiff⟩ := @first_header (fun a => if a = 0x2E then 1 else 0) (by decide)
  refine ⟨info, hinfo, ?_, ?_⟩
  · rw [hheader]
    decide
  · rw [hheader]
    intro hdecodes
    exact absurd ((hiff (by decide)).mp hdecodes).subsystem (by decide)

end Cthulhu
