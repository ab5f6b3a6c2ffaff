import Mathlib.Logic.Function.Basic
import Cthulhu.Word
import Cthulhu.Lib.Linked

/-!
# The physical frame pool

The sections, stack elements and frame records of `paging.h`, and the pool functions of
`paging.c`. A section's stack elements and frame records are arrays in its own metadata
area, so a pointer to one of them is its index; `none` is `NULL`. The list of sections is
the chain of `next_section` links, the empty list being a `NULL` pool.

`makePool` does not write every field of the elements below `0x200000`. The previous
contents of the metadata area are therefore parameters, and unwritten fields keep them.
-/

namespace Cthulhu

open Lib

/-- `stack_element_t`. -/
structure StackElement where
  frameAddress : ℕ
  arrayOrd : ℕ
  next : Option ℕ
  deriving DecidableEq, Repr

/-- `frame_info_t`; both counts are 32 bits wide. -/
structure FrameInfo where
  usageCount : ℕ
  cowCount : ℕ
  boundStackElement : ℕ
  deriving DecidableEq, Repr

/-- `section_info_t` together with the two arrays that follow it in memory. -/
structure SectionInfo where
  head : Option ℕ
  frameArray : ℕ → FrameInfo
  elements : ℕ → StackElement
  startWord : ℕ
  endWord : ℕ
  totalFrames : ℕ

/-- The metadata area before `make_pool` fills it. -/
structure StaleMetadata where
  frameArray : ℕ → FrameInfo
  elements : ℕ → StackElement

/-- The frames of a region once the metadata is paid for: `uframes` of `make_pool`.

The divisor is a page with its 24-byte stack element and 16-byte frame record. -/
def poolFrames (length : ℕ) : ℕ := sub64 (sub64 length 48 / (0x1000 + (24 + 16))) 1

/-- The metadata header's size. -/
def poolMetadata (length : ℕ) : ℕ := (48 + 24 * poolFrames length + 16 * poolFrames length) % 2 ^ 64

/-- The first effective frame: `after_address`. -/
def poolStart (length baseAddr : ℕ) : ℕ :=
  align (add64 (add64 baseAddr (poolMetadata length)) 0x1000)

/-- `prev_se->next = se`, when there is a previous element. -/
def linkPrevious (elements : ℕ → StackElement) : Option ℕ → ℕ → ℕ → StackElement
  | some p, i => Function.update elements p { elements p with next := some i }
  | none, _ => elements

/-- One round of `make_pool`'s loop, with the previously linked element. -/
def linkElement (afterAddress : ℕ) (st : SectionInfo × Option ℕ) (i : ℕ) : SectionInfo × Option ℕ :=
  let s := st.1
  let address := add64 afterAddress (0x1000 * i)
  if address < 0x200000 then
    -- the element stays out of the stack and its frame counts as used
    ({ s with
        elements := Function.update s.elements i { s.elements i with frameAddress := address }
        frameArray := Function.update s.frameArray i
          { s.frameArray i with usageCount := 1, boundStackElement := i } }, st.2)
  else
    ({ s with
        head := if st.2 = none then some i else s.head
        elements := Function.update (linkPrevious s.elements st.2 i) i ⟨address, i, none⟩
        frameArray := Function.update s.frameArray i ⟨0, 0, i⟩ }, some i)

/-- `make_pool`: the section it lays over `[baseAddr, baseAddr + length)`. -/
def makePool (length baseAddr : ℕ) (stale : StaleMetadata) : SectionInfo :=
  ((List.range (poolFrames length)).foldl (linkElement (poolStart length baseAddr))
    ({ head := none
       frameArray := stale.frameArray
       elements := stale.elements
       startWord := poolStart length baseAddr
       endWord := add64 baseAddr length
       totalFrames := poolFrames length }, none)).1

/-- `get_free_frame` on a non-`NULL` pool: zero when every section's stack is empty. -/
def getFreeFrame : List SectionInfo → ℕ × List SectionInfo
  | [] => (0, [])
  | s :: rest =>
    match s.head with
    | some e =>
      let se := s.elements e
      (se.frameAddress, { s with
        head := se.next
        frameArray := Function.update s.frameArray se.arrayOrd
          { s.frameArray se.arrayOrd with usageCount := 1 } } :: rest)
    | none =>
      let r := getFreeFrame rest
      (r.1, s :: r.2)

/-- The record `free_frame` and `get_frame_info` find in a section: a 32-bit index. -/
def SectionInfo.index (s : SectionInfo) (fa : ℕ) : ℕ := sub64 fa s.startWord / 0x1000 % 2 ^ 32

/-- `free_frame` inside the section that holds the frame.

The second component is the frame whose contents are cleared, when the last use ends. -/
def SectionInfo.release (s : SectionInfo) (idx : ℕ) : SectionInfo × Option ℕ :=
  let fi := s.frameArray idx
  let usage := dec32 fi.usageCount
  let cow := if fi.cowCount > 0 then fi.cowCount - 1 else fi.cowCount
  let frameArray := Function.update s.frameArray idx { fi with usageCount := usage, cowCount := cow }
  if usage = 0 then
    let se := s.elements fi.boundStackElement
    ({ s with
        frameArray := frameArray
        elements := Function.update s.elements fi.boundStackElement { se with next := s.head }
        head := some fi.boundStackElement }, some se.frameAddress)
  else ({ s with frameArray := frameArray }, none)

/-- The range test of `free_frame` and `get_frame_info`. -/
def SectionInfo.covers (s : SectionInfo) (fa : ℕ) : Bool := s.startWord ≤ fa && fa < s.endWord

/-- `free_frame` after its argument is aligned; an address in no section is ignored. -/
def releaseFrame : List SectionInfo → ℕ → List SectionInfo × Option ℕ
  | [], _ => ([], none)
  | s :: rest, fa =>
    if s.covers fa then
      let r := s.release (s.index fa)
      (r.1 :: rest, r.2)
    else
      let r := releaseFrame rest fa
      (s :: r.1, r.2)

/-- `free_frame`. -/
def freeFrame (pool : List SectionInfo) (frameAddress : ℕ) : List SectionInfo × Option ℕ :=
  releaseFrame pool (align frameAddress)

/-- `get_frame_info`: the record of the section that covers the address. -/
def getFrameInfo : List SectionInfo → ℕ → Option FrameInfo
  | [], _ => none
  | s :: rest, fa => if s.covers fa then some (s.frameArray (s.index fa)) else getFrameInfo rest fa

/-- A write through the pointer `get_frame_info` returns; nothing happens on `NULL`. -/
def setFrameInfo : List SectionInfo → ℕ → (FrameInfo → FrameInfo) → List SectionInfo
  | [], _, _ => []
  | s :: rest, fa, f =>
    if s.covers fa then
      { s with frameArray := Function.update s.frameArray (s.index fa) (f (s.frameArray (s.index fa))) } :: rest
    else s :: setFrameInfo rest fa f

/-- `++fi->usage_count` on a 32-bit field. -/
def FrameInfo.incrementUsage (fi : FrameInfo) : FrameInfo :=
  { fi with usageCount := (fi.usageCount + 1) % 2 ^ 32 }

/-- The increment `map_range` performs on the frame it shares. -/
def incrementUsage (pool : List SectionInfo) (fa : ℕ) : List SectionInfo :=
  setFrameInfo pool fa FrameInfo.incrementUsage

/-- The elements on a section's free stack, from its head on. -/
def SectionInfo.freeStack (s : SectionInfo) : List ℕ :=
  follow (fun i => (s.elements i).next) s.totalFrames s.head

/-- The frame addresses on the free stacks of a pool. -/
def freeFrames (pool : List SectionInfo) : List ℕ :=
  pool.flatMap fun s => s.freeStack.map fun i => (s.elements i).frameAddress

/-- The address is a frame of some section. -/
def IsFrame (pool : List SectionInfo) (f : ℕ) : Prop :=
  ∃ s ∈ pool, ∃ i < s.totalFrames, f = s.startWord + 0x1000 * i

/-- The use count recorded for a frame; zero outside the pool. -/
def usageCount (pool : List SectionInfo) (f : ℕ) : ℕ :=
  ((getFrameInfo pool f).map FrameInfo.usageCount).getD 0

end Cthulhu
