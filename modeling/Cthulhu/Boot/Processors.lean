import Cthulhu.Boot.TableWalks
import Cthulhu.Lib.BitFields
import Cthulhu.Memory.Translate

/-!
# The processors of the MADT

`initialize_cpus` makes a `cpu_t` for every enabled processor of the MADT and records its place under the ACPI processor
id. A processor that starts looks itself up under the id that its local APIC reports. The two numberings are
assigned by the firmware and need not agree. The address at which `ap_entry_64` reads the id lies in slot 509, that
of the kernel heap, and not in the mirror of physical memory.
-/

namespace Cthulhu

open Lib TableWalk

/-- What `malloc` returns for a `cpu_t` and its stacks. -/
structure CpuBlocks where
  cpu : ℕ
  syscallStack : ℕ
  stack : ℕ
  handlerStack : ℕ
  pfStack : ℕ
  dfStack : ℕ
  ipiStack : ℕ

/-- `cpu_t`, without its locks, queues and messages. -/
structure CpuT where
  self : ℕ
  syscallStack : ℕ
  stack : ℕ
  handlerStack : ℕ
  pfStack : ℕ
  dfStack : ℕ
  ipiStack : ℕ
  insertId : ℕ
  processorId : ℕ
  apicId : ℕ
  started : Bool
  deriving DecidableEq, Repr

/-- `MADT_LOCAL_APIC`, without its header. -/
structure MadtLocalApic where
  processorId : ℕ
  id : ℕ
  lapicFlags : ℕ

/-- The top of a stack in a block, aligned. -/
def stackTop (block size : ℕ) : ℕ := align (add64 block size)

/-- `make_cpu`; no local APIC stands for `NULL`. -/
def makeCpu (blocks : CpuBlocks) (apic : Option MadtLocalApic) (insertid : ℕ) : CpuT where
  self := blocks.cpu
  syscallStack := stackTop blocks.syscallStack 0x10000
  stack := stackTop blocks.stack 0x2000
  handlerStack := stackTop blocks.handlerStack 0x8000
  pfStack := stackTop blocks.pfStack 0x3000
  dfStack := stackTop blocks.dfStack 0x2000
  ipiStack := stackTop blocks.ipiStack 0x3000
  insertId := insertid
  processorId := (apic.map MadtLocalApic.processorId).getD 0
  apicId := (apic.map MadtLocalApic.id).getD 0
  started := apic.isNone

/-- `cpus` and `cpuid_to_cputord`. -/
structure Processors where
  cpus : List CpuT
  cpuidToCputord : ℕ → ℕ

/-- Where `ap_entry_64` reads the id register of its local APIC. -/
def apIdAddress : ℕ := 0xFEE00020 + addressOffset 509

namespace Processors

/-- No processor, and a cleared table. -/
def none : Processors := ⟨[], fun _ => 0⟩

/-- One more enabled processor. -/
def push (blocks : ℕ → CpuBlocks) (lapic : MadtLocalApic) (p : Processors) : Processors :=
  let cpus := p.cpus ++ [makeCpu (blocks p.cpus.length) (some lapic) p.cpus.length]
  { cpus := cpus
    cpuidToCputord := Function.update p.cpuidToCputord lapic.processorId ((cpus.length - 1) % 2 ^ 32) }

/-- The id that `ap_entry_64` reads, and the element of `cpus` it looks up. Pages are mapped to frames by `mapped`,
and the registers of the local APIC are read like memory; without a frame the read faults. -/
def apEntry64 (p : Processors) (mapped : ℕ → Option ℕ) (read : ℕ → ℕ) : Option (ℕ × Option CpuT) :=
  (mapped (align apIdAddress)).map fun frame =>
    let id := field 24 8 (read (frame + apIdAddress % 0x1000))
    (id, p.cpus[p.cpuidToCputord id]?)

/-- The element of `cpus` that `ap_main` goes on with. -/
def apMain (p : Processors) (procId : ℕ) : Option CpuT := p.cpus[p.cpuidToCputord procId]?

end Processors

namespace Acpi

variable (acpi : Acpi) (blocks : ℕ → CpuBlocks)

/-- `"APIC"`. -/
def madtName : List ℕ := [65, 80, 73, 67]

/-- `sizeof(MADT_HEADER)`. -/
def madtHeaderSize : ℕ := 44

/-- `ACPI_MADT_TYPE_LOCAL_APIC`. -/
def madtTypeLocalApic : ℕ := 0

/-- The `MADT_LOCAL_APIC` at an address. -/
def madtLocalApic (addr : ℕ) : MadtLocalApic := ⟨acpi.byte (addr + 2), acpi.byte (addr + 3), acpi.number (addr + 4) 4⟩

/-- A round of `initialize_cpus`. -/
def madtPart (addr : ℕ) : TablePart Processors :=
  let lapic := acpi.madtLocalApic addr
  if acpi.byte addr = madtTypeLocalApic then
    if lapic.lapicFlags = 1 then ⟨acpi.byte (addr + 1), [0, 1, 4, 5, 6, 7, 2, 3], Processors.push blocks lapic⟩
    else ⟨acpi.byte (addr + 1), [0, 1, 4, 5, 6, 7], id⟩
  else ⟨acpi.byte (addr + 1), [0, 1], id⟩

/-- The loop of `initialize_cpus`. -/
def madtWalk (madt : ℕ) : TableWalk Processors := start madt (acpi.length madt) madtHeaderSize Processors.none

/-- `initialize_cpus`, given rounds enough: `apicaddr` and the processors. -/
def initializeCpus (rounds : ℕ) : Option (ℕ × Processors) :=
  (acpi.findTableGeneral madtName).bind fun madt =>
    if madt = 0 then some (0xFEE00000, ⟨[makeCpu (blocks 0) none 0], Function.update (fun _ => 0) 0 0⟩)
    else (result (acpi.madtPart blocks) (acpi.madtWalk madt) rounds).map fun p => (acpi.number (madt + 36) 4, p)

/-- The walks over the MADT and the MCFG end and read inside their tables, and as many entries are written as were
counted. -/
structure BoundedWalks (madt mcfg : ℕ) : Prop where
  madtWalk : Ends (acpi.madtPart blocks) (acpi.madtWalk madt) ∧
    ReadsInside (acpi.madtPart blocks) madt (acpi.length madt) (acpi.madtWalk madt)
  mcfgWalks : Ends numcountPart (acpi.numcountWalk mcfg) ∧ Ends acpi.pcieInfoPart (acpi.pcieInfoWalk mcfg) ∧
    ReadsInside acpi.pcieInfoPart mcfg (acpi.length mcfg) (acpi.pcieInfoWalk mcfg)
  counted : ∀ m n num entries, result numcountPart (acpi.numcountWalk mcfg) m = some num →
    result acpi.pcieInfoPart (acpi.pcieInfoWalk mcfg) n = some entries → num = entries.length

variable {acpi blocks} {madt mcfg addr : ℕ}

/-- Every round reads the header of its sub-table. -/
theorem madtPart_first : 0 ∈ (acpi.madtPart blocks addr).fields := by
  unfold madtPart
  dsimp only
  split
  · split <;> exact List.mem_cons_self
  · exact List.mem_cons_self

/-- The length of a sub-table is a byte. -/
theorem madtPart_length : (acpi.madtPart blocks addr).length = acpi.byte (addr + 1) := by
  unfold madtPart
  dsimp only
  split
  · split <;> rfl
  · rfl

/-- A round reads no further than the fields of a `MADT_LOCAL_APIC`. -/
theorem madtPart_fields {k : ℕ} (hk : k ∈ (acpi.madtPart blocks addr).fields) : k < 8 := by
  have hall : ∀ k ∈ [0, 1, 4, 5, 6, 7, 2, 3], k < 8 := by decide
  unfold madtPart at hk
  dsimp only at hk
  apply hall
  split at hk
  · split at hk
    · exact hk
    · exact List.mem_of_mem_take (i := 6) hk
  · exact List.mem_of_mem_take (i := 2) hk

/-- The walk over the MADT ends and reads inside the table exactly when its sub-tables tile it. -/
theorem madtWalk_iff (hmadt : madt < 2 ^ 64) :
    Ends (acpi.madtPart blocks) (acpi.madtWalk madt) ∧
        ReadsInside (acpi.madtPart blocks) madt (acpi.length madt) (acpi.madtWalk madt) ↔
      madtHeaderSize ≤ acpi.length madt ∧ Tiled (acpi.madtPart blocks) madt (acpi.length madt) madtHeaderSize := by
  apply start_iff hmadt
  · exact fun _ => madtPart_first
  · intro a
    rw [madtPart_length]
    exact Nat.lt_trans (Nat.mod_lt _ (by decide)) (by decide : (256 : ℕ) < 2 ^ 32)
  · exact fun _ _ hk => Nat.lt_trans (madtPart_fields hk) (by decide)
  · exact number_lt _ _
  · decide

end Acpi

/-- The table walks are bounded exactly when the sub-tables of the MADT tile it, and the MCFG is a header and whole
allocations. -/
theorem boundedWalks_iff (acpi : Acpi) (blocks : ℕ → CpuBlocks) (madt mcfg : ℕ) (hmadt : madt < 2 ^ 64)
    (hmcfg : mcfg < 2 ^ 64) :
    acpi.BoundedWalks blocks madt mcfg ↔
      (Acpi.madtHeaderSize ≤ acpi.length madt ∧
        Tiled (acpi.madtPart blocks) madt (acpi.length madt) Acpi.madtHeaderSize) ∧
      mcfgSize ≤ acpi.length mcfg ∧ (acpi.length mcfg - mcfgSize) % mcfgAllocationSize = 0 := by
  rw [← Acpi.madtWalk_iff hmadt, ← Acpi.mcfgWalks_iff hmcfg]
  constructor
  · intro h
    exact ⟨h.madtWalk, h.mcfgWalks⟩
  · rintro ⟨hwalk, hmcfg⟩
    exact ⟨hwalk, hmcfg, fun _ _ _ _ hnum hentries => Acpi.pcieInfo_length hnum hentries⟩

/-- No blocks, for tables of which only the walks matter. -/
def noBlocks (_n : ℕ) : CpuBlocks := ⟨0, 0, 0, 0, 0, 0, 0⟩

/-- The first three pages. -/
def lowMapped (a : ℕ) : Bool := decide (a < 0x3000)

/-- They are canonical. -/
theorem lowMapped_canonical (a : ℕ) (h : lowMapped a = true) : a < 2 ^ 47 ∨ 2 ^ 64 - 2 ^ 47 ≤ a :=
  Or.inl (Nat.lt_trans (of_decide_eq_true h) (by decide))

/-- A MADT with one enabled processor and an MCFG with one allocation. -/
def wholeTables : Acpi where
  memory := fun a => ([(0x1004, 52), (0x102D, 8), (0x102F, 1), (0x1030, 1), (0x2004, 60), (0x2037, 255)].lookup a).getD 0
  mapped := lowMapped
  acpiVersion := 1
  rsdt := 0
  xsdt := 0
  canonical := lowMapped_canonical

/-- Their walks are bounded. -/
theorem boundedWalks_wholeTables : wholeTables.BoundedWalks noBlocks 0x1000 0x2000 := by
  apply (boundedWalks_iff wholeTables noBlocks 0x1000 0x2000 (by decide) (by decide)).mpr
  have hpart : (wholeTables.madtPart noBlocks (add64 0x1000 44)).length = 8 := by decide +kernel
  have hrest : Tiled (wholeTables.madtPart noBlocks) 0x1000 (wholeTables.length 0x1000)
      (44 + (wholeTables.madtPart noBlocks (add64 0x1000 44)).length) := by
    have hend : wholeTables.length 0x1000 = 44 + (wholeTables.madtPart noBlocks (add64 0x1000 44)).length := by
      decide +kernel
    rw [← hend]
    exact .stop
  refine ⟨⟨by decide +kernel, .part (hpart ▸ by decide) (by decide +kernel) ?_ hrest⟩, by decide +kernel,
    by decide +kernel⟩
  intro k hk
  have hlong : wholeTables.length 0x1000 = 52 := by decide +kernel
  have hfield := Acpi.madtPart_fields hk
  change 44 + k < _
  omega

/-- A MADT with a sub-table of length zero. -/
def emptySubTable : Acpi where
  memory := fun a => ([(0x1004, 46), (0x102C, 1), (0x2004, 44)].lookup a).getD 0
  mapped := lowMapped
  acpiVersion := 1
  rsdt := 0
  xsdt := 0
  canonical := lowMapped_canonical

/-- The walk over it does not end. -/
theorem boundedWalks_empty_subtable : Acpi.madtHeaderSize ≤ emptySubTable.length 0x1000 ∧
    mcfgSize ≤ emptySubTable.length 0x2000 ∧ ¬ emptySubTable.BoundedWalks noBlocks 0x1000 0x2000 := by
  refine ⟨by decide +kernel, by decide +kernel, fun h => ?_⟩
  have htiled := ((Acpi.madtWalk_iff (by decide)).mp h.madtWalk).2
  have hlength := htiled.length_pos (by decide +kernel)
  exact absurd hlength (by decide +kernel)

namespace Processors

/-- The ids are bytes, and the table leads from a processor id to a processor that has it, or to the first place. -/
structure Recorded (p : Processors) : Prop where
  ids : ∀ c ∈ p.cpus, c.processorId < 256 ∧ c.apicId < 256
  place : ∀ x, (∀ c ∈ p.cpus, c.processorId ≠ x) ∧ p.cpuidToCputord x = 0 ∨
    ∃ i, ∃ hi : i < p.cpus.length, p.cpus[i].processorId = x ∧ p.cpuidToCputord x = i % 2 ^ 32

/-- Every processor that starts is given its own `cpu_t`, in `ap_entry_64` and in `ap_main`. -/
def FindOwn (p : Processors) (apicaddr : ℕ) (mapped : ℕ → Option ℕ) : Prop :=
  ∀ c ∈ p.cpus, ∀ read : ℕ → ℕ, field 24 8 (read (apicaddr + 0x20)) = c.apicId →
    ∃ id, p.apEntry64 mapped read = some (id, some c) ∧ p.apMain id = some c

variable {p : Processors}

/-- Without processors the table is cleared. -/
theorem Recorded.none : Recorded none where
  ids := by simp [Processors.none]
  place := by simp [Processors.none]

/-- One more processor is recorded at its place. -/
theorem Recorded.push (h : p.Recorded) (blocks : ℕ → CpuBlocks) {lapic : MadtLocalApic}
    (hid : lapic.processorId < 256 ∧ lapic.id < 256) : (p.push blocks lapic).Recorded := by
  constructor
  · intro c hc
    rcases List.mem_append.mp hc with hold | hnew
    · exact h.ids c hold
    · rw [List.mem_singleton.mp hnew]
      exact hid
  · intro x
    have hlast : p.cpus.length < (p.push blocks lapic).cpus.length := by simp [Processors.push]
    by_cases hx : x = lapic.processorId
    · right
      refine ⟨p.cpus.length, hlast, ?_, ?_⟩
      · simp [Processors.push, makeCpu, hx]
      · simp [Processors.push, hx]
    · have hsame : (p.push blocks lapic).cpuidToCputord x = p.cpuidToCputord x := Function.update_of_ne hx _ _
      rw [hsame]
      rcases h.place x with ⟨hnone, hzero⟩ | ⟨i, hi, hsome, hplace⟩
      · refine Or.inl ⟨fun c hc => ?_, hzero⟩
        rcases List.mem_append.mp hc with hold | hnew
        · exact hnone c hold
        · rw [List.mem_singleton.mp hnew]
          exact Ne.symm hx
      · refine Or.inr ⟨i, Nat.lt_trans hi hlast, ?_, hplace⟩
        simp only [Processors.push, List.getElem_append_left hi]
        exact hsome

/-- What `initialize_cpus` leaves is recorded. -/
theorem Recorded.initializeCpus {acpi : Acpi} {blocks : ℕ → CpuBlocks} {rounds apicaddr : ℕ}
    (hp : acpi.initializeCpus blocks rounds = some (apicaddr, p)) : p.Recorded := by
  obtain ⟨madt, -, hp⟩ := Option.bind_eq_some_iff.mp hp
  split at hp
  case isTrue =>
    obtain ⟨-, rfl⟩ := Prod.mk.inj (Option.some.inj hp)
    constructor
    · intro c hc
      rw [List.mem_singleton.mp hc]
      exact ⟨Nat.succ_pos 255, Nat.succ_pos 255⟩
    · intro x
      by_cases hx : x = 0
      · exact Or.inr ⟨0, Nat.one_pos, hx.symm, by simp [hx]⟩
      · refine Or.inl ⟨fun c hc => ?_, by simp [hx]⟩
        rw [List.mem_singleton.mp hc]
        exact Ne.symm hx
  case isFalse =>
    obtain ⟨p', hresult, hpair⟩ := Option.map_eq_some_iff.mp hp
    obtain ⟨-, rfl⟩ := Prod.mk.inj hpair
    apply result_invariant Recorded _ Recorded.none hresult
    intro addr q hq
    unfold Acpi.madtPart
    dsimp only
    split
    · split
      · exact hq.push blocks ⟨Nat.mod_lt _ (by decide), Nat.mod_lt _ (by decide)⟩
      · exact hq
    · exact hq

/-- Processors with different ids are at most 256. -/
theorem Recorded.length_le (h : p.Recorded) (hids : (p.cpus.map CpuT.processorId).Nodup) : p.cpus.length ≤ 256 := by
  have hsub : p.cpus.map CpuT.processorId ⊆ List.range 256 := by
    intro x hx
    obtain ⟨c, hc, rfl⟩ := List.mem_map.mp hx
    exact List.mem_range.mpr (h.ids c hc).1
  have hle := (hids.subperm hsub).length_le
  rwa [List.length_map, List.length_range] at hle

/-- Elements with the same value stand at one place of a list without duplicate values. -/
theorem index_of_nodup_map {α β : Type*} {f : α → β} {l : List α} (h : (l.map f).Nodup) {i j : ℕ} (hi : i < l.length)
    (hj : j < l.length) (heq : f l[i] = f l[j]) : i = j := by
  have hi' : i < (l.map f).length := by rwa [List.length_map]
  have hj' : j < (l.map f).length := by rwa [List.length_map]
  have hvalues : (l.map f)[i] = (l.map f)[j] := by rw [List.getElem_map, List.getElem_map, heq]
  exact h.getElem_inj_iff.mp hvalues

/-- The place at which the table finds a processor under an id. -/
theorem Recorded.lookup (h : p.Recorded) (hids : (p.cpus.map CpuT.processorId).Nodup)
    (hapics : (p.cpus.map CpuT.apicId).Nodup) {i : ℕ} (hi : i < p.cpus.length) (x : ℕ) :
    p.cpus[p.cpuidToCputord x]? = some p.cpus[i] ↔
      p.cpus[i].processorId = x ∨ i = 0 ∧ ∀ c ∈ p.cpus, c.processorId ≠ x := by
  have hsame {j : ℕ} (hj : j < p.cpus.length) : p.cpus[j]? = some p.cpus[i] ↔ j = i := by
    rw [List.getElem?_eq_getElem hj, Option.some_inj]
    constructor
    · intro heq
      exact index_of_nodup_map hapics hj hi (congrArg CpuT.apicId heq)
    · rintro rfl
      rfl
  rcases h.place x with ⟨hnone, hzero⟩ | ⟨j, hj, hsome, hplace⟩
  · rw [hzero, hsame (by omega)]
    constructor
    · intro heq
      exact Or.inr ⟨heq.symm, hnone⟩
    · rintro (heq | ⟨heq, -⟩)
      · exact absurd heq (hnone _ (List.getElem_mem hi))
      · exact heq.symm
  · have hsmall := h.length_le hids
    rw [hplace, Nat.mod_eq_of_lt (by omega), hsame hj]
    constructor
    · rintro rfl
      exact Or.inl hsome
    · rintro (heq | ⟨-, hnone⟩)
      · exact index_of_nodup_map hids hj hi (hsome.trans heq.symm)
      · exact absurd hsome (hnone _ (List.getElem_mem hj))

/-- A single processor is found under every id. -/
theorem Recorded.lookup_single (h : p.Recorded) {i : ℕ} (hi : i < p.cpus.length) (hsingle : p.cpus.length = 1) (x : ℕ) :
    p.cpus[p.cpuidToCputord x]? = some p.cpus[i] := by
  obtain rfl : i = 0 := by omega
  have hzero : p.cpuidToCputord x = 0 := by
    rcases h.place x with ⟨-, hzero⟩ | ⟨j, hj, -, hplace⟩
    · exact hzero
    · rw [hplace]
      omega
  rw [hzero, List.getElem?_eq_getElem hi]

/-- What `ap_entry_64` finds when the page is mapped. -/
theorem apEntry64_of_mapped {mapped : ℕ → Option ℕ} {frame : ℕ} (hframe : mapped (align apIdAddress) = some frame)
    (read : ℕ → ℕ) : p.apEntry64 mapped read =
      some (field 24 8 (read (frame + 0x20)), p.cpus[p.cpuidToCputord (field 24 8 (read (frame + 0x20)))]?) := by
  rw [apEntry64, hframe]
  rfl

/-- A byte moved up to its place is read there. -/
theorem field_byte {x : ℕ} (hx : x < 256) : field 24 8 (2 ^ 24 * x) = x := by
  rw [field_mul]
  exact Nat.mod_eq_of_lt hx

end Processors

/-- Every processor finds its own `cpu_t` exactly when, for each processor, the page from which `ap_entry_64` reads the
id is that of its local APIC (or any other, with one processor), and its two ids agree, except that the
first may have any processor id while its APIC id is the processor id of none. -/
theorem findOwn_iff (acpi : Acpi) (blocks : ℕ → CpuBlocks) (rounds apicaddr : ℕ) (p : Processors)
    (hp : acpi.initializeCpus blocks rounds = some (apicaddr, p)) (hids : (p.cpus.map CpuT.processorId).Nodup)
    (hapics : (p.cpus.map CpuT.apicId).Nodup) (mapped : ℕ → Option ℕ) :
    p.FindOwn apicaddr mapped ↔ ∀ i, ∀ hi : i < p.cpus.length,
      (∃ frame, mapped (align apIdAddress) = some frame ∧ (frame = apicaddr ∨ p.cpus.length = 1)) ∧
      (p.cpus[i].processorId = p.cpus[i].apicId ∨ i = 0 ∧ ∀ c ∈ p.cpus, c.processorId ≠ p.cpus[i].apicId) := by
  have hrecorded := Processors.Recorded.initializeCpus hp
  constructor
  · intro hfind i hi
    have hmem := List.getElem_mem hi
    have hapic := (hrecorded.ids _ hmem).2
    cases hframe : mapped (align apIdAddress) with
    | none =>
      obtain ⟨id, hentry, -⟩ := hfind _ hmem (fun _ => 2 ^ 24 * p.cpus[i].apicId) (Processors.field_byte hapic)
      rw [Processors.apEntry64, hframe] at hentry
      exact absurd hentry (by simp)
    | some frame =>
      by_cases hsingle : p.cpus.length = 1
      · refine ⟨⟨frame, rfl, Or.inr hsingle⟩, ?_⟩
        by_cases hagree : p.cpus[i].processorId = p.cpus[i].apicId
        · exact Or.inl hagree
        · right
          refine ⟨by omega, fun c hc => ?_⟩
          obtain ⟨j, hj, rfl⟩ := List.getElem_of_mem hc
          obtain rfl : i = j := by omega
          exact hagree
      · have hown : frame = apicaddr := by
          -- another page might show the id of another processor
          by_contra hother
          obtain ⟨j, hj, hij⟩ : ∃ j, j < p.cpus.length ∧ i ≠ j := by
            by_cases hzero : i = 0
            · exact ⟨1, by omega, by omega⟩
            · exact ⟨0, by omega, hzero⟩
          have hregister : field 24 8 (Function.update (fun _ => 2 ^ 24 * p.cpus[i].apicId) (frame + 0x20)
              (2 ^ 24 * p.cpus[j].processorId) (apicaddr + 0x20)) = p.cpus[i].apicId := by
            rw [Function.update_of_ne (by omega)]
            exact Processors.field_byte hapic
          obtain ⟨id, hentry, -⟩ := hfind _ hmem _ hregister
          rw [Processors.apEntry64_of_mapped hframe, Function.update_self,
            Processors.field_byte (hrecorded.ids _ (List.getElem_mem hj)).1] at hentry
          have hlookup := (hrecorded.lookup hids hapics hj _).mpr (Or.inl rfl)
          have hsame : p.cpus[j] = p.cpus[i] :=
            Option.some.inj (hlookup.symm.trans (Prod.mk.inj (Option.some.inj hentry)).2)
          exact hij (Processors.index_of_nodup_map hapics hj hi (congrArg CpuT.apicId hsame)).symm
        refine ⟨⟨frame, rfl, Or.inl hown⟩, ?_⟩
        obtain ⟨id, hentry, -⟩ := hfind _ hmem (fun _ => 2 ^ 24 * p.cpus[i].apicId) (Processors.field_byte hapic)
        rw [Processors.apEntry64_of_mapped hframe, Processors.field_byte hapic] at hentry
        exact (hrecorded.lookup hids hapics hi _).mp (Prod.mk.inj (Option.some.inj hentry)).2
  · intro hagree c hc read hregister
    obtain ⟨i, hi, rfl⟩ := List.getElem_of_mem hc
    obtain ⟨⟨frame, hframe, hcase⟩, hids'⟩ := hagree i hi
    have hown : p.cpus[p.cpuidToCputord (field 24 8 (read (frame + 0x20)))]? = some p.cpus[i] := by
      rcases hcase with rfl | hsingle
      · rw [hregister]
        exact (hrecorded.lookup hids hapics hi _).mpr hids'
      · exact hrecorded.lookup_single hi hsingle _
    refine ⟨_, ?_, hown⟩
    rw [Processors.apEntry64_of_mapped hframe, hown]

/-- An RSDT that lists a MADT with two enabled processors of these ids, the local APIC at `0xFEE00000`. -/
def twoProcessors (first second : MadtLocalApic) (checksum : ℕ) : Acpi where
  memory := fun a => ([(0xFFFFFF0000001000, 65), (0xFFFFFF0000001001, 80), (0xFFFFFF0000001002, 73),
    (0xFFFFFF0000001003, 67), (0xFFFFFF0000001004, 60), (0xFFFFFF0000001009, checksum), (0xFFFFFF0000001026, 0xE0),
    (0xFFFFFF0000001027, 0xFE), (0xFFFFFF000000102D, 8),
    (0xFFFFFF000000102E, first.processorId), (0xFFFFFF000000102F, first.id), (0xFFFFFF0000001030, first.lapicFlags),
    (0xFFFFFF0000001035, 8), (0xFFFFFF0000001036, second.processorId), (0xFFFFFF0000001037, second.id),
    (0xFFFFFF0000001038, second.lapicFlags), (0xFFFFFF0000002004, 40), (0xFFFFFF0000002025, 16)].lookup a).getD 0
  mapped := mirrorMapped
  acpiVersion := 1
  rsdt := 0xFFFFFF0000002000
  xsdt := 0
  canonical := mirrorMapped_canonical

/-- What `initialize_cpus` makes of such tables. -/
def bootOf (acpi : Acpi) : ℕ × Processors := (acpi.initializeCpus noBlocks 2).getD (0, Processors.none)

/-- It is the result where there is one. -/
theorem bootOf_eq (acpi : Acpi) (hsome : (acpi.initializeCpus noBlocks 2).isSome = true) :
    acpi.initializeCpus noBlocks 2 = some ((bootOf acpi).1, (bootOf acpi).2) := by
  obtain ⟨r, hr⟩ := Option.isSome_iff_exists.mp hsome
  rw [bootOf, hr]
  rfl

/-- Two processors whose ids agree find themselves, with the page of the heap slot mapped to the local APIC. -/
theorem findOwn_same_ids : (bootOf (twoProcessors ⟨0, 0, 1⟩ ⟨1, 1, 1⟩ 181)).2.cpus.length = 2 ∧
    (bootOf (twoProcessors ⟨0, 0, 1⟩ ⟨1, 1, 1⟩ 181)).2.FindOwn 0xFEE00000 (fun _ => some 0xFEE00000) := by
  have hp := bootOf_eq (twoProcessors ⟨0, 0, 1⟩ ⟨1, 1, 1⟩ 181) (by decide +kernel)
  have haddr : (bootOf (twoProcessors ⟨0, 0, 1⟩ ⟨1, 1, 1⟩ 181)).1 = 0xFEE00000 := by decide +kernel
  rw [haddr] at hp
  constructor
  · decide +kernel
  · apply (findOwn_iff _ noBlocks 2 0xFEE00000 _ hp (by decide +kernel) (by decide +kernel) _).mpr
    have hagree : ∀ i, ∀ hi : i < (bootOf (twoProcessors ⟨0, 0, 1⟩ ⟨1, 1, 1⟩ 181)).2.cpus.length,
        (bootOf (twoProcessors ⟨0, 0, 1⟩ ⟨1, 1, 1⟩ 181)).2.cpus[i].processorId =
          (bootOf (twoProcessors ⟨0, 0, 1⟩ ⟨1, 1, 1⟩ 181)).2.cpus[i].apicId := by decide +kernel
    exact fun i hi => ⟨⟨0xFEE00000, rfl, Or.inl rfl⟩, Or.inl (hagree i hi)⟩

/-- The firmware numbers its processors from 1 and their local APICs from 0: even with the id read from the
local APIC, the second processor is given the `cpu_t` of the first. -/
theorem findOwn_shifted_ids :
    (twoProcessors ⟨1, 0, 1⟩ ⟨2, 1, 1⟩ 179).initializeCpus noBlocks 2 =
      some ((bootOf (twoProcessors ⟨1, 0, 1⟩ ⟨2, 1, 1⟩ 179)).1, (bootOf (twoProcessors ⟨1, 0, 1⟩ ⟨2, 1, 1⟩ 179)).2) ∧
    ((bootOf (twoProcessors ⟨1, 0, 1⟩ ⟨2, 1, 1⟩ 179)).2.cpus.map CpuT.processorId).Nodup ∧
    ((bootOf (twoProcessors ⟨1, 0, 1⟩ ⟨2, 1, 1⟩ 179)).2.cpus.map CpuT.apicId).Nodup ∧
    ¬ (bootOf (twoProcessors ⟨1, 0, 1⟩ ⟨2, 1, 1⟩ 179)).2.FindOwn 0xFEE00000 (fun _ => some 0xFEE00000) := by
  refine ⟨bootOf_eq _ (by decide +kernel), by decide +kernel, by decide +kernel, fun hfind => ?_⟩
  have hsecond : ∃ c ∈ (bootOf (twoProcessors ⟨1, 0, 1⟩ ⟨2, 1, 1⟩ 179)).2.cpus, field 24 8 0x1000000 = c.apicId ∧
      ∀ id, id = field 24 8 0x1000000 →
        (bootOf (twoProcessors ⟨1, 0, 1⟩ ⟨2, 1, 1⟩ 179)).2.apMain id ≠ some c := by
    simp only [forall_eq]
    decide +kernel
  obtain ⟨c, hc, hregister, hother⟩ := hsecond
  obtain ⟨id, hentry, hmain⟩ := hfind c hc (fun _ => 0x1000000) hregister
  have hframe : (fun _ : ℕ => some 0xFEE00000) (align apIdAddress) = some 0xFEE00000 := rfl
  have hid := (Processors.apEntry64_of_mapped hframe fun _ => 0x1000000).symm.trans hentry
  exact hother id (Prod.mk.inj (Option.some.inj hid)).1.symm hmain

end Cthulhu
