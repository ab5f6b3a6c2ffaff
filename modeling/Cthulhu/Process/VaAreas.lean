import Mathlib.Data.List.Basic
import Cthulhu.Word

/-!
# Areas of a process's address space

The list `mem_maps` of a process and the functions of `process.c` that insert into it,
`request_va_hole` at a given address and `find_va_hole` at a random place of a large enough
hole. The list is the chain of `next` links. Addresses and sizes are 64-bit words, and the
sums and differences wrap as they do in the source.
-/

namespace Cthulhu

/-- `ma_type_t`. -/
inductive AreaType
  | programData
  | stackData
  | heapData
  | nondeallocMap
  | kernelAllocatedHeapData
  deriving DecidableEq, Repr

/-- `mmap_area_t`. -/
structure MmapArea where
  vastart : ℕ
  vaend : ℕ
  mtype : AreaType
  count : ℕ
  deriving DecidableEq, Repr

/-- The end of the user half. -/
def userEnd : ℕ := 0x800000000000

/-- A new area as the insertion routines leave it, zeroed but for its bounds and its count. -/
def newArea (vastart vaend : ℕ) : MmapArea := ⟨vastart, vaend, .programData, 1⟩

/-- The loop of `request_va_hole`; `none` where an area overlaps. -/
def requestLoop (startAddress reqSize : ℕ) : List MmapArea → Option (List MmapArea)
  | [] => some [newArea startAddress (add64 startAddress reqSize)]
  | mmap :: rest =>
    if mmap.vaend ≤ startAddress then (requestLoop startAddress reqSize rest).map (mmap :: ·)
    else if startAddress ≤ mmap.vaend ∧ mmap.vastart ≤ add64 startAddress reqSize then none
    else some (newArea startAddress (add64 startAddress reqSize) :: mmap :: rest)

/-- `request_va_hole`: the list with the new area, or `none` for a `NULL` result. -/
def requestVaHole (areas : List MmapArea) (startAddress reqSize : ℕ) : Option (List MmapArea) :=
  if startAddress < 0x1000 then none else requestLoop startAddress reqSize areas

/-- A hole with the areas on both sides of it. -/
structure Hole where
  start : ℕ
  size : ℕ
  before : List MmapArea
  after : List MmapArea

/-- The loop of `find_va_hole` on a list that is not empty at first. -/
def holeLoop (reqSize alignAmount : ℕ) : ℕ → List MmapArea → Hole
  | startAddress, [] => ⟨startAddress, sub64 userEnd startAddress, [], []⟩
  | startAddress, mmap :: rest =>
    if add64 reqSize alignAmount ≤ sub64 mmap.vastart startAddress then
      ⟨startAddress, sub64 mmap.vastart startAddress, [], mmap :: rest⟩
    else
      let h := holeLoop reqSize alignAmount mmap.vaend rest
      ⟨h.start, h.size, mmap :: h.before, h.after⟩

/-- The hole `find_va_hole` settles on: the whole user half for an empty list. -/
def selectHole (areas : List MmapArea) (reqSize alignAmount : ℕ) : Hole :=
  match areas with
  | [] => ⟨0x1000, userEnd, [], []⟩
  | areas => holeLoop reqSize alignAmount 0x1000 areas

/-- The limit passed to `rg_next_uint_l`. -/
def holeSlack (areas : List MmapArea) (reqSize alignAmount : ℕ) : ℕ :=
  sub64 (selectHole areas reqSize alignAmount).size reqSize

/-- `find_va_hole` with the value that `rg_next_uint_l` returns: the new area and the list with it. -/
def findVaHole (areas : List MmapArea) (reqSize alignAmount random : ℕ) : MmapArea × List MmapArea :=
  let hole := selectHole areas reqSize alignAmount
  let startAddress := alignUp hole.start alignAmount
  let offset := alignDown (if holeSlack areas reqSize alignAmount = 0 then 0 else random) alignAmount
  let area := newArea (add64 startAddress offset) (add64 (add64 startAddress reqSize) offset)
  (area, hole.before ++ area :: hole.after)

/-- Where a hole behind these areas starts. -/
def gapStart (before : List MmapArea) : ℕ := (before.getLast?.map MmapArea.vaend).getD 0x1000

/-- Where a hole in front of these areas ends. -/
def gapEnd (after : List MmapArea) : ℕ := (after.head?.map MmapArea.vastart).getD userEnd

/-- The range fits between two neighbours of the list, or before the first or after the last. -/
def Fits (areas : List MmapArea) (vastart size : ℕ) : Prop :=
  ∃ before after, areas = before ++ after ∧ gapStart before ≤ vastart ∧ vastart + size ≤ gapEnd after

/-- An accepted request is inserted where it fits. -/
theorem requestLoop_some {startAddress reqSize : ℕ} {areas areas' : List MmapArea}
    (h : requestLoop startAddress reqSize areas = some areas') :
    ∃ before after, areas = before ++ after ∧
      areas' = before ++ newArea startAddress (add64 startAddress reqSize) :: after ∧
      (∀ a ∈ before, a.vaend ≤ startAddress) ∧
      ∀ a ∈ after.head?, add64 startAddress reqSize < a.vastart := by
  induction areas generalizing areas' with
  | nil =>
    rw [requestLoop, Option.some.injEq] at h
    exact ⟨[], [], rfl, h.symm, by simp, by simp⟩
  | cons a rest ih =>
    unfold requestLoop at h
    split at h
    next hbelow =>
      obtain ⟨rest', hrest', rfl⟩ := Option.map_eq_some_iff.mp h
      obtain ⟨before, after, rfl, rfl, hbefore, hafter⟩ := ih hrest'
      refine ⟨a :: before, after, rfl, rfl, ?_, hafter⟩
      exact List.forall_mem_cons.mpr ⟨hbelow, hbefore⟩
    next habove =>
      split at h
      next => exact absurd h (by simp)
      next hoverlap =>
        obtain rfl := Option.some.inj h
        refine ⟨[], a :: rest, rfl, rfl, by simp, ?_⟩
        simp only [List.head?_cons, Option.mem_some, forall_eq']
        omega

/-- The hole of the loop splits the list, starts where its front ends, and ends where its back starts. -/
theorem holeLoop_split (reqSize alignAmount startAddress : ℕ) (areas : List MmapArea) :
    areas = (holeLoop reqSize alignAmount startAddress areas).before ++
        (holeLoop reqSize alignAmount startAddress areas).after ∧
      (holeLoop reqSize alignAmount startAddress areas).start =
        ((holeLoop reqSize alignAmount startAddress areas).before.getLast?.map MmapArea.vaend).getD startAddress ∧
      (holeLoop reqSize alignAmount startAddress areas).size =
        sub64 (gapEnd (holeLoop reqSize alignAmount startAddress areas).after)
          (holeLoop reqSize alignAmount startAddress areas).start := by
  induction areas generalizing startAddress with
  | nil => exact ⟨rfl, rfl, rfl⟩
  | cons a rest ih =>
    unfold holeLoop
    split
    next => exact ⟨rfl, rfl, rfl⟩
    next =>
      obtain ⟨hsplit, hstart, hsize⟩ := ih a.vaend
      refine ⟨congrArg (a :: ·) hsplit, hstart.trans ?_, hsize⟩
      simp only [List.getLast?_cons]
      cases (holeLoop reqSize alignAmount a.vaend rest).before.getLast? <;> rfl

/-- The selected hole splits the list and starts where its front ends. -/
theorem selectHole_split (areas : List MmapArea) (reqSize alignAmount : ℕ) :
    areas = (selectHole areas reqSize alignAmount).before ++ (selectHole areas reqSize alignAmount).after ∧
      (selectHole areas reqSize alignAmount).start = gapStart (selectHole areas reqSize alignAmount).before ∧
      (areas ≠ [] → (selectHole areas reqSize alignAmount).size =
        sub64 (gapEnd (selectHole areas reqSize alignAmount).after)
          (selectHole areas reqSize alignAmount).start) := by
  cases areas with
  | nil => exact ⟨rfl, rfl, fun h => absurd rfl h⟩
  | cons a rest =>
    obtain ⟨hsplit, hstart, hsize⟩ := holeLoop_split reqSize alignAmount 0x1000 (a :: rest)
    exact ⟨hsplit, hstart, fun _ => hsize⟩

end Cthulhu
