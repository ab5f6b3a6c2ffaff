import Cthulhu.Loader.Acquire
import Cthulhu.Memory.Withdraw
import Cthulhu.Process.AreaOrder

/-!
# Freeing one area

Areas are ranges of bytes, and `free_mmap_area` unmaps whole pages: the pages from that of the first byte to that of
the last one. Two disjoint areas can have bytes on one page, as `request_va_hole` places sections at any address, and
freeing one of them unmaps the page under the other.
-/

namespace Cthulhu

open Lib

namespace ProcessSpace

variable (ps : ProcessSpace) (pml4 k : ℕ)

end ProcessSpace

end Cthulhu
