import Cthulhu.Memory.WritableRange
import Cthulhu.Process.Allocation
import Cthulhu.Process.Resumption

/-!
# Allocation by the kernel for a process

`proc_alloc_direct` lets `find_va_hole` insert an area and calls `allocate` for it. It does not read what
`allocate` returns, and it returns the address of the area in every case. Callers that test the address see
a failure nowhere, and an area whose pages could not be mapped stays in the list.
-/

namespace Cthulhu

open Lib

/-- The area `proc_alloc_direct` places, marked as allocated by the kernel. -/
def directArea (areas : List MmapArea) (size random : ℕ) : MmapArea :=
  { (findVaHole areas size 0x1000 random).1 with mtype := .kernelAllocatedHeapData }

namespace ProcessSpace

/-- `proc_alloc_direct`; the result of `allocate` is not read. -/
def procAllocDirect (ps : ProcessSpace) (pml4 size random : ℕ) : ℕ × ProcessSpace :=
  let hole := selectHole ps.areas size 0x1000
  let area := directArea ps.areas size random
  (area.vastart, ⟨(ps.machine.allocate area.vastart size false false pml4).2, hole.before ++ area :: hole.after⟩)

/-- Every byte of a range is one of the user half that user mode can write. -/
def UserRange (ps : ProcessSpace) (pml4 start size : ℕ) : Prop :=
  ∀ va, start ≤ va → va < start + size → va < userEnd ∧ UserWritable ps.machine.memory pml4 va

end ProcessSpace

section Pages

variable {start size : ℕ}

end Pages

/-- The list of areas grows in every case. -/
theorem ProcessSpace.procAllocDirect_areas (ps : ProcessSpace) (pml4 size random : ℕ) :
    (ps.procAllocDirect pml4 size random).2.areas ≠ ps.areas := by
  intro heq
  have hlength := congrArg List.length heq
  have hsplit := congrArg List.length (selectHole_split ps.areas size 0x1000).1
  unfold ProcessSpace.procAllocDirect at hlength
  rw [List.length_append, List.length_cons] at hlength
  rw [List.length_append] at hsplit
  omega

end Cthulhu
