import Cthulhu.Loader.Apart

/-!
# Loading hostile images

The section headers are untrusted. A section at an address that `request_va_hole` refuses makes the loader
dereference a null pointer, before its test for overlapping sections, and a section without an address makes
`find_va_hole` divide by an alignment of zero. No offset in the image is tested against its size, so that headers and
file bytes may be where nothing is mapped. The load ends with one of its codes when it gets to nothing of this kind.
-/

namespace Cthulhu

open Lib

namespace LoadState

variable (st : LoadState) (base pml4 : ℕ) (random : ℕ → ℕ) (stackRandom : ℕ) (thread : MainThread)

end LoadState

section Faults

variable {base pml4 : ℕ} {header : Elf64Ehdr} {random : ℕ → ℕ} {st : LoadState} {address : ℕ} {area : MmapArea}
  {r : Bool × ℕ} {fixed : Bool}

end Faults

section Status

variable {st : LoadState} {base pml4 stackRandom : ℕ} {random : ℕ → ℕ}

end Status

end Cthulhu
