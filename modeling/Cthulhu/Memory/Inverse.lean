import Cthulhu.Memory.Restore

/-!
# Allocating and giving back is the identity

`allocate` rounds its range by the amount, `deallocate` by the end address. Both go through the
pages of the range rounded to whole pages, or both through none when the range takes in the last
page of the address space. Whatever `allocate` adds for pages that had no entry, `deallocate` takes
away.
-/

namespace Cthulhu

open Lib

section Range

variable {start amount : ℕ}

/-- Below the last page of the address space `allocate` goes through the pages of the range. -/
theorem allocatePages_range (hend : start + amount ≤ 2 ^ 64 - 0x1000) :
    Machine.allocatePages start amount = rangePages start amount := by
  have hstart := align_le start
  have haligned := align_mod start
  have hsum : add64 amount (start - align start) = amount + (start - align start) := add64_of_lt (by omega)
  unfold Machine.allocatePages rangePages
  rw [hsum, pageAlignUp_of_le (by omega), add64_of_lt (by omega)]
  unfold pageRange
  congr 2
  omega

end Range

end Cthulhu
