import Cthulhu.Memory.MakePool
import Cthulhu.Memory.Paging

/-!
# The frame pool at boot

`check_if_used` over what the boot loader left in memory, and the search of
`create_frame_pool` for stretches of RAM that can become sections. The boot loader's
structure holds what its pointers lead to: the lengths of its strings, the modules and the
entries of the memory map.

The search compares addresses with the entry's length, and gives a section the whole length
whatever address it starts at.
-/

namespace Cthulhu

/-- A module of `multiboot_mod_list`, with the length of its command line. -/
structure BootModule where
  modStart : ℕ
  modEnd : ℕ
  cmdline : ℕ
  cmdlineLength : ℕ
  deriving DecidableEq, Repr

/-- An entry of the memory map; type 1 is RAM. -/
structure MemEntry where
  address : ℕ
  size : ℕ
  type : ℕ
  deriving DecidableEq, Repr

/-- `struct multiboot_info`, as far as the pool is made from it; `header` is its own address. -/
structure MultibootInfo where
  flags : ℕ
  header : ℕ
  cmdline : ℕ
  cmdlineLength : ℕ
  modsAddr : ℕ
  modules : List BootModule
  framebufferAddr : ℕ
  framebufferBpp : ℕ
  framebufferWidth : ℕ
  framebufferHeight : ℕ
  framebufferType : ℕ
  framebufferPaletteAddr : ℕ
  framebufferPaletteNumColors : ℕ
  mmapAddr : ℕ
  mmapLength : ℕ
  mmap : List MemEntry

/-- `check_used_range`. -/
def checkUsedRange (test fa sa : ℕ) : Bool :=
  let start := align fa
  let size := pageAlignUp (add64 sa (fa - start))
  start ≤ test && test < add64 start size

/-- The ranges a module takes: its image, the size being a 32-bit difference, and its name. -/
def BootModule.usedRanges (m : BootModule) : List (ℕ × ℕ) :=
  [(m.modStart, (m.modEnd + 2 ^ 32 - m.modStart) % 2 ^ 32), (m.cmdline, m.cmdlineLength + 1)]

/-- The framebuffer's ranges; the second flag tested is `1<12`, which is 1, and the size is a
32-bit product. -/
def MultibootInfo.framebufferRanges (info : MultibootInfo) : List (ℕ × ℕ) :=
  if bit info.flags 11 && bit info.flags 0 then
    (info.framebufferAddr, info.framebufferBpp * info.framebufferWidth * info.framebufferHeight % 2 ^ 32) ::
      if info.framebufferType = 0 then [(info.framebufferPaletteAddr, info.framebufferPaletteNumColors * 3)] else []
  else []

/-- The ranges that `check_if_used` goes through, the kernel with its temporary heap first. -/
def MultibootInfo.usedRanges (info : MultibootInfo) (kernelTmpHeapStart : ℕ) : List (ℕ × ℕ) :=
  let kend := add64 (sub64 kernelTmpHeapStart 0xFFFFFFFF80000000) 0x40000
  [(0, kend), (info.header, 120), (info.cmdline, info.cmdlineLength + 1), (info.modsAddr, 16 * info.modules.length)] ++
    info.modules.flatMap BootModule.usedRanges ++ info.framebufferRanges ++ [(info.mmapAddr, info.mmapLength)]

/-- `check_if_used`. -/
def checkIfUsed (info : MultibootInfo) (kernelTmpHeapStart test : ℕ) : Bool :=
  (info.usedRanges kernelTmpHeapStart).any fun r => checkUsedRange test r.1 r.2

/-- What one search from a base address of an entry comes to. -/
inductive SearchStep
  | finish
  | skip (next : ℕ)
  | pool (length next : ℕ)
  deriving DecidableEq, Repr

/-- One search of `create_frame_pool`'s loop, from a base address of the entry at `ba`. -/
def searchStep (used : ℕ → Bool) (ba len base : ℕ) : SearchStep :=
  if add64 len ba ≤ base then .finish
  else
    match (pageRange base len).find? used with
    | none => .pool len (add64 base len)
    | some test =>
      let length := test - base
      if length = 0 then
        if add64 base 0x1000 < add64 ba len then .skip (add64 base 0x1000) else .finish
      else if length < 0x10000 then
        if add64 base length < add64 ba len then .skip (add64 base length) else .finish
      else .pool length (add64 base length)

/-- The loop over one entry, for a number of rounds: the base addresses and lengths of its pools. -/
def search (used : ℕ → Bool) (ba len : ℕ) : ℕ → ℕ → List (ℕ × ℕ)
  | 0, _ => []
  | rounds + 1, base =>
    match searchStep used ba len base with
    | .finish => []
    | .skip next => search used ba len rounds next
    | .pool length next => (base, length) :: search used ba len rounds next

/-- More rounds than an entry has pages. -/
def MemEntry.rounds (e : MemEntry) : ℕ := e.size / 0x1000 + 2

/-- The pools made from one entry: none unless it is RAM and not too small. -/
def MemEntry.pools (used : ℕ → Bool) (e : MemEntry) : List (ℕ × ℕ) :=
  if e.type ≠ 1 then [] else if e.size < 0x10000 then [] else search used e.address e.size e.rounds e.address

/-- The calls of `make_pool` that `create_frame_pool` makes; the flag it tests is bit 5. -/
def framePools (info : MultibootInfo) (kernelTmpHeapStart : ℕ) : List (ℕ × ℕ) :=
  if bit info.flags 5 then info.mmap.flatMap (MemEntry.pools (checkIfUsed info kernelTmpHeapStart)) else []

/-- `create_frame_pool`, over what the metadata areas held before. -/
def createFramePool (info : MultibootInfo) (kernelTmpHeapStart : ℕ) (stale : ℕ → StaleMetadata) : List SectionInfo :=
  (framePools info kernelTmpHeapStart).map fun p => makePool p.2 p.1 (stale p.1)

section Used

/-- A rounded size is a whole number of pages. -/
theorem pageAlignUp_mod (v : ℕ) : pageAlignUp v % 0x1000 = 0 := by
  unfold pageAlignUp
  split
  next h => exact h
  next => exact align_mod _

/-- A range is used by whole pages. -/
theorem checkUsedRange_align (test fa sa : ℕ) : checkUsedRange (align test) fa sa = checkUsedRange test fa sa := by
  unfold checkUsedRange
  dsimp only
  have hstart := align_mod fa
  have hsize := pageAlignUp_mod (add64 sa (fa - align fa))
  have htest := align_le test
  have hmod := align_mod test
  have hend : add64 (align fa) (pageAlignUp (add64 sa (fa - align fa))) % 0x1000 = 0 := by
    unfold add64
    unfold add64 at hsize
    omega
  generalize align fa = start at *
  generalize add64 start (pageAlignUp (add64 sa (fa - start))) = stop at *
  rw [Bool.eq_iff_iff]
  simp only [Bool.and_eq_true, decide_eq_true_eq]
  omega

/-- Memory is used by whole pages. -/
theorem checkIfUsed_align (info : MultibootInfo) (kernelTmpHeapStart test : ℕ) :
    checkIfUsed info kernelTmpHeapStart (align test) = checkIfUsed info kernelTmpHeapStart test := by
  unfold checkIfUsed
  simp only [checkUsedRange_align]

end Used

section FirstUsed

variable {used : ℕ → Bool} {base len : ℕ}

/-- The scan finds the first used test point. -/
theorem find_pageRange_some {test : ℕ} (h : (pageRange base len).find? used = some test) :
    ∃ i, test = base + 0x1000 * i ∧ test < len ∧ used test = true ∧ ∀ j < i, used (base + 0x1000 * j) = false := by
  unfold pageRange at h
  rw [List.find?_map, Option.map_eq_some_iff] at h
  obtain ⟨i, hi, rfl⟩ := h
  rw [List.find?_range_eq_some] at hi
  obtain ⟨hused, hmem, hbefore⟩ := hi
  rw [List.mem_range] at hmem
  exact ⟨i, rfl, by omega, hused, fun j hj => by simpa using hbefore j hj⟩

/-- The scan finds nothing only where no test point is used. -/
theorem find_pageRange_none : (pageRange base len).find? used = none ↔
    ∀ i, base + 0x1000 * i < len → used (base + 0x1000 * i) = false := by
  rw [List.find?_eq_none]
  constructor
  · intro h i hi
    simpa using h _ (mem_pageRange.mpr ⟨i, rfl, hi⟩)
  · intro h a ha
    obtain ⟨i, rfl, hi⟩ := mem_pageRange.mp ha
    simp [h i hi]

end FirstUsed

end Cthulhu
