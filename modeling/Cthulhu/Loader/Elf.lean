import Cthulhu.Loader.Copy
import Cthulhu.Process.VaAreas

/-!
# Loading an executable

`check_elf_header` and `load_elf_stage_one` of `elf.c`. The image lies at kernel addresses, and the
section headers are read from it and written to in place. The header of the file is read once, since
no object of its type is written.

The result is `none` where the kernel faults: `request_va_hole` returns `NULL` for a refused range
and the loader dereferences it, and `find_va_hole` divides by the alignment. The area behind any other
result is there, so the loader never reports overlapping sections.
-/

namespace Cthulhu

open Lib

/-- The errors of `elf.h` that the loader names. -/
inductive ElfError
  | notclass64
  | notdata2lsb
  | notExecExecRequired
  | headerMagicIncorrect
  | machineInvalid
  | versionNotCurrent
  | sectionOverlaps
  | unsupportedSectionTypeFixaddr
  | enomem
  deriving DecidableEq, Repr

/-- The results of the loader. -/
inductive ElfStatus
  | loadSuccess
  | error (e : ElfError)
  deriving DecidableEq, Repr

/-- `Elf64_Ehdr`. -/
structure Elf64Ehdr where
  ident : ℕ → ℕ
  type : ℕ
  machine : ℕ
  version : ℕ
  entry : ℕ
  shoff : ℕ
  shnum : ℕ

/-- `Elf64_Shdr`. -/
structure Elf64Shdr where
  shType : ℕ
  shFlags : ℕ
  shAddr : ℕ
  shOffset : ℕ
  shSize : ℕ
  shAddralign : ℕ
  deriving DecidableEq, Repr

/-- `SHT_NULL`. -/
def shtNull : ℕ := 0

/-- `SHT_PROGBITS`. -/
def shtProgbits : ℕ := 1

/-- `SHT_NOBITS`. -/
def shtNobits : ℕ := 8

/-- `sh_flags & SHF_ALLOC`. -/
def Elf64Shdr.isAlloc (sh : Elf64Shdr) : Bool := bit sh.shFlags 1

/-- `check_elf_header`. -/
def checkElfHeader (header : Elf64Ehdr) : ElfStatus :=
  if header.ident 0 ≠ 0x7F then .error .headerMagicIncorrect
  else if header.ident 1 ≠ 0x45 then .error .headerMagicIncorrect
  else if header.ident 2 ≠ 0x4C then .error .headerMagicIncorrect
  else if header.ident 3 ≠ 0x46 then .error .headerMagicIncorrect
  else if header.ident 4 ≠ 2 then .error .notclass64
  else if header.ident 5 ≠ 1 then .error .notdata2lsb
  else if header.machine ≠ 62 then .error .machineInvalid
  else if header.version ≠ 1 then .error .versionNotCurrent
  else .loadSuccess

namespace Kernel

variable (s : Kernel)

/-- An integer of `n` bytes at a kernel address. -/
def field (a n : ℕ) : ℕ := leWord (fun k => s.bytes (add64 a k)) n

/-- A store of eight bytes at a kernel address. -/
def setField (a w : ℕ) : Kernel :=
  { s with bytes := (List.range 8).foldl (fun b k => Function.update b (add64 a k) (byteOf w k)) s.bytes }

/-- The header at an address. -/
def elfHeader (a : ℕ) : Elf64Ehdr where
  ident i := s.field (add64 a i) 1
  type := s.field (add64 a 16) 2
  machine := s.field (add64 a 18) 2
  version := s.field (add64 a 20) 4
  entry := s.field (add64 a 24) 8
  shoff := s.field (add64 a 40) 8
  shnum := s.field (add64 a 60) 2

/-- The section header at an address. -/
def elfSection (a : ℕ) : Elf64Shdr where
  shType := s.field (add64 a 4) 4
  shFlags := s.field (add64 a 8) 8
  shAddr := s.field (add64 a 16) 8
  shOffset := s.field (add64 a 24) 8
  shSize := s.field (add64 a 32) 8
  shAddralign := s.field (add64 a 48) 8

end Kernel

/-- The address of `section_header[i]`, behind `elf_section_header`. -/
def sectionAddress (base : ℕ) (header : Elf64Ehdr) (i : ℕ) : ℕ := add64 (add64 base header.shoff) (64 * i)

/-- What the loader changes: the kernel's memory and the areas of the process. -/
structure LoadState where
  kernel : Kernel
  areas : List MmapArea

/-- A loader that has not returned yet, or the error it returned, `none` for a fault, with the state it
left. -/
abbrev Loading := Except (Option ElfError × LoadState) LoadState

/-- The loader goes on unless the kernel faulted. -/
def LoadState.resume (st : LoadState) (r : Option Kernel) : Loading :=
  match r with
  | some s => .ok { st with kernel := s }
  | none => .error (none, st)

/-- Mapping and filling the area of the section at an address; `fixed` says which of the two loops it is. -/
def LoadState.fillSection (st : LoadState) (base pml4 address : ℕ) (area : MmapArea) (fixed : Bool) : Loading := do
  let sh := st.kernel.elfSection address
  let size := sub64 area.vaend area.vastart
  let r := st.kernel.machine.allocate area.vastart size false false pml4
  let st := { st with kernel := { st.kernel with machine := r.2 } }
  if r.1 = false then .error (some .enomem, st)
  else if sh.shType = shtNobits then
    let st ← st.resume (st.kernel.memsetDpgs pml4 area.vastart 0 size)
    .ok { st with kernel := st.kernel.setField (add64 address 24) (sub64 base area.vastart) }
  else if sh.shType = shtProgbits then
    let st ← st.resume (st.kernel.memcpyDpgs pml4 r.2.activePage area.vastart (add64 base sh.shOffset) size)
    .ok (if fixed then st else { st with kernel := st.kernel.setField (add64 address 16) area.vastart })
  else .error (some .unsupportedSectionTypeFixaddr, st)

/-- One round of the first loop: sections with an address. -/
def LoadState.fixedSection (base pml4 : ℕ) (header : Elf64Ehdr) (st : LoadState) (i : ℕ) : Loading :=
  let address := sectionAddress base header i
  let sh := st.kernel.elfSection address
  if sh.shType = shtNull then .ok st
  else if sh.isAlloc = false then .ok st
  else if sh.shAddr = 0 then .ok st
  else if sh.shSize = 0 then .ok st
  else
    match requestVaHole st.areas sh.shAddr sh.shSize with
    | none => .error (none, st)
    | some areas =>
      { st with areas }.fillSection base pml4 address (newArea sh.shAddr (add64 sh.shAddr sh.shSize)) true

/-- One round of the second loop: sections without an address, with the values that the random
generator of the process gives. -/
def LoadState.floatingSection (base pml4 : ℕ) (header : Elf64Ehdr) (random : ℕ → ℕ) (st : LoadState) (i : ℕ) : Loading :=
  let address := sectionAddress base header i
  let sh := st.kernel.elfSection address
  if sh.shType = shtNull then .ok st
  else if sh.isAlloc = false then .ok st
  else if sh.shAddr ≠ 0 then .ok st
  else if sh.shSize = 0 then .ok st
  -- `ALIGN_UP` and `ALIGN_DOWN` take the remainder
  else if sh.shAddralign = 0 then .error (none, st)
  else
    let hole := findVaHole st.areas sh.shSize sh.shAddralign (random i)
    { st with areas := hole.2 }.fillSection base pml4 address hole.1 false

/-- `load_elf_stage_one`. -/
def LoadState.loadElfStageOne (st : LoadState) (base pml4 : ℕ) (random : ℕ → ℕ) : Option ElfStatus × LoadState :=
  let header := st.kernel.elfHeader base
  let loops : Loading := do
    let st ← (List.range header.shnum).foldlM (LoadState.fixedSection base pml4 header) st
    (List.range header.shnum).foldlM (LoadState.floatingSection base pml4 header random) st
  match loops with
  | .ok st => (some .loadSuccess, st)
  | .error (e, st) => (e.map .error, st)

end Cthulhu
