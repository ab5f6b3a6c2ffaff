import Cthulhu.Lib.Run
import Cthulhu.Memory.PageTable

/-!
# The paging interface

The functions of `paging.c` that walk a range of pages: `allocate`, `allocate_mem`,
`deallocate`, `mem_change_type` and `map_range`, and the others that change the tables,
`page_fault`, `allocate_physret` and `create_pml4`. A loop is a run over its pages; where the
source leaves a loop early, the remaining pages leave the state as it is, and a counter that
would wrap within the last page of the address space ends the loop.

A walk that needs a table while the pool is exhausted returns `NULL`. Where the source
dereferences that pointer, the result here is `none` and the machine stays as it was at the
fault.
-/

namespace Cthulhu

open Lib

/-- The addresses `first`, `first + 0x1000`, .. below `limit`. -/
def pageRange (first limit : ℕ) : List ℕ :=
  (List.range ((limit - first + 0xFFF) / 0x1000)).map fun i => first + 0x1000 * i

/-- The pages of a range are its page addresses below the limit. -/
theorem mem_pageRange {first limit a : ℕ} :
    a ∈ pageRange first limit ↔ ∃ i, a = first + 0x1000 * i ∧ a < limit := by
  unfold pageRange
  rw [List.mem_map]
  constructor
  · rintro ⟨i, hi, rfl⟩
    rw [List.mem_range] at hi
    exact ⟨i, rfl, by omega⟩
  · rintro ⟨i, rfl, hi⟩
    exact ⟨i, List.mem_range.mpr (by omega), rfl⟩

namespace Machine

/-- One round of `deallocate`'s loop. -/
def deallocatePage (cr3 : ℕ) (m : Machine) (addr : ℕ) : Machine :=
  let m := m.lock .frame
  (m.deallocateFrame (m.getPage addr cr3 false false).1 addr cr3).unlock .frame

/-- The end of the range that `deallocate` clears. -/
def deallocateEnd (start amount : ℕ) : ℕ :=
  let amount := if start % 0x1000 ≠ 0 then add64 amount (start - align start) else amount
  let endAddr := add64 (align start) amount
  if endAddr % 0x1000 ≠ 0 then add64 (align endAddr) 0x1000 else endAddr

/-- The pages `deallocate` clears. -/
def deallocatePages (start amount : ℕ) : List ℕ := pageRange (align start) (deallocateEnd start amount)

/-- `deallocate`. -/
def deallocate (m : Machine) (start amount cr3 : ℕ) : Machine :=
  if align start < deallocateEnd start amount then
    (run (deallocatePage cr3) (m.lock .tlb) (deallocatePages start amount)).unlock .tlb
  else m

/-- The pages `allocate` and `allocate_mem` go through. -/
def allocatePages (start amount : ℕ) : List ℕ :=
  pageRange (align start) (add64 (align start) (pageAlignUp (add64 amount (start - align start))))

/-- One round of `allocate`'s loop; the second component is the address it stopped at. -/
def allocatePage (kernel readonly : Bool) (cr3 : ℕ) (st : Machine × Option ℕ) (addr : ℕ) :
    Machine × Option ℕ :=
  if st.2 ≠ none then st
  else
    let r := (st.1.lock .frame).getPage addr cr3 true !kernel
    match r.1 with
    | none => (r.2, some addr)
    | some p =>
      let r := r.2.allocateFrame p kernel readonly false
      if r.1 = 0 then (r.2, some addr) else (r.2.unlock .frame, none)

/-- `allocate`: on failure the pages before the failing one are given back. -/
def allocate (m : Machine) (start amount : ℕ) (kernel readonly : Bool) (cr3 : ℕ) : Bool × Machine :=
  let st := run (allocatePage kernel readonly cr3) (m, none) (allocatePages start amount)
  match st.2 with
  | none => (true, st.1)
  | some addr => (false, (st.1.unlock .frame).deallocate (align start) (addr - align start) cr3)

end Machine

/-- `alloc_info_t`. -/
structure AllocInfo where
  start : ℕ
  amount : ℕ
  exec : Bool
  finished : Bool
  aod : Bool
  deriving DecidableEq, Repr

/-- The on-demand marker written over an uninitialised `page_t`. -/
def aodMarker (stale : ℕ) (exec : Bool) : ℕ :=
  setBit (setBit (setBit (setBit stale 0 false) 1 true) 3 true) 4 exec

namespace Machine

/-- One round of `allocate_mem`'s loop; the flag says that it stopped.

The argument `stale` is the content of the uninitialised `page_t` of each round. -/
def allocateMemPage (kernel readonly : Bool) (cr3 : ℕ) (stale : ℕ → ℕ)
    (st : (AllocInfo × Machine) × Bool) (addr : ℕ) : (AllocInfo × Machine) × Bool :=
  if st.2 then st
  else
    let ainfo := st.1.1
    let next := { ainfo with start := add64 ainfo.start 0x1000, amount := sub64 ainfo.amount 0x1000 }
    let r := (st.1.2.lock .frame).getPage addr cr3 true !kernel
    match r.1 with
    | none => (({ ainfo with finished := false }, r.2.unlock .frame), true)
    | some p =>
      if ainfo.aod then
        ((next, (r.2.store p (aodMarker (stale addr) ainfo.exec)).unlock .frame), false)
      else
        let r := r.2.allocateFrame p kernel readonly ainfo.exec
        if r.1 = 0 then (({ ainfo with finished := false }, r.2.unlock .frame), true)
        else ((next, r.2.unlock .frame), false)

/-- `allocate_mem`, with the `alloc_info_t` it leaves behind. -/
def allocateMem (m : Machine) (ainfo : AllocInfo) (kernel readonly : Bool) (cr3 : ℕ) (stale : ℕ → ℕ) :
    AllocInfo × Machine :=
  let aligned := { ainfo with
    start := align ainfo.start
    amount := pageAlignUp (add64 ainfo.amount (ainfo.start - align ainfo.start)) }
  let st := run (allocateMemPage kernel readonly cr3 stale) ((aligned, m), false)
    (allocatePages ainfo.start ainfo.amount)
  if st.2 then st.1 else ({ st.1.1 with finished := true }, st.1.2)

/-- The request `page_fault` makes for one page. -/
def demandRequest (address : ℕ) : AllocInfo where
  start := align address
  amount := 0x1000
  exec := false
  finished := false
  aod := false

/-- `page_fault`, the result being `none` where it copies to a `NULL` frame.

The early returns of the write branch leave the locks as they are at that point. -/
def pageFault (m : Machine) (address errcode : ℕ) (stale : ℕ → ℕ) : Option Bool × Machine :=
  let cr3 := m.activePage
  match (m.getPage address cr3 false false).1 with
  | none => (some false, m)
  | some p =>
    if !bit errcode 0 then
      if bit (m.load p) 1 && bit (m.load p) 3 then
        (some true, (m.allocateMem (demandRequest address) false false cr3 stale).2)
      else (some false, m)
    else if bit errcode 1 then
      let frame := align (m.load p)
      let m := (m.lock .tlb).lock .frame
      match getFrameInfo m.framePool frame with
      | none => (some false, m)
      | some fi =>
        if fi.cowCount = 0 then (some false, m.unlock .frame)
        else if fi.cowCount = 1 then
          let m := { m with framePool := setFrameInfo m.framePool frame fun fi => { fi with cowCount := fi.cowCount - 1 } }
          let m := m.store p (setBit (m.load p) 1 true)
          (some true, (m.unlock .frame).unlock .tlb)
        else
          let r := m.getFreeFrame
          if r.1 = 0 then (none, r.2)
          else
            let m : Machine := { r.2 with memory := Function.update r.2.memory r.1 (r.2.memory frame) }
            let porig := m.load p
            -- the low nine bits and the last one are copied, then the page becomes writable
            let pnew := setBit (setBit (r.1 - r.1 % 512 + porig % 512) 63 (bit porig 63)) 1 true
            let m := m.store p pnew
            let m := { m with framePool := setFrameInfo m.framePool frame fun fi =>
              { fi with cowCount := fi.cowCount - 1, usageCount := dec32 fi.usageCount } }
            (some true, (m.unlock .frame).unlock .tlb)
    else (some false, m)

/-- `allocate_physret`; no value where it reads a `NULL` entry. -/
def allocatePhysret (m : Machine) (blockAddr : ℕ) (kernel rw exec : Bool) (cr3 : ℕ) : Option ℕ × Machine :=
  let r := m.getPage blockAddr cr3 true false
  match r.1 with
  | none => (none, r.2)
  | some p =>
    let r := r.2.allocateFrame p kernel rw exec
    (some r.1, r.2)

/-- The `change_type` of `mem_change_type`; every other value changes nothing. -/
inductive ChangeType
  | rw
  | su
  | other
  deriving DecidableEq, Repr

/-- The entry `mem_change_type` writes. -/
def changedEntry (entry : ℕ) (changeType : ChangeType) (newValue : Bool) : ℕ :=
  match changeType with
  | .rw => setBit entry 1 newValue
  | .su => setBit entry 2 newValue
  | .other => entry

/-- One round of `mem_change_type`'s loop; the flag says that it read a `NULL` entry. -/
def changePage (changeType : ChangeType) (newValue : Bool) (cr3 : ℕ) (st : Machine × Bool) (addr : ℕ) :
    Machine × Bool :=
  if st.2 then st
  else
    let r := st.1.getPage addr cr3 true false
    match r.1 with
    | none => (r.2, true)
    | some p =>
      if !present (r.2.load p) then (r.2.store p (changedEntry (r.2.load p) changeType newValue), false)
      else (r.2, false)

/-- `mem_change_type`; the flag says that it returned. -/
def memChangeType (m : Machine) (start amount : ℕ) (changeType : ChangeType) (newValue : Bool) (cr3 : ℕ) :
    Bool × Machine :=
  let amount := pageAlignUp amount
  let st := run (changePage changeType newValue cr3) (m.lock .tlb, false) (pageRange start (add64 start amount))
  if st.2 then (false, st.1) else (true, st.1.unlock .tlb)

/-- The entry `map_range` writes. -/
def mappedEntry (frame : ℕ) (readonly kernel : Bool) : ℕ :=
  setBit (setBit (setBit (align frame) 0 true) 1 !readonly) 2 !kernel

/-- How `map_range`'s loop stopped: at an error, or at a `NULL` source entry. -/
inductive MapStop
  | failed (offs : ℕ)
  | faulted (offs : ℕ)
  deriving DecidableEq, Repr

/-- The frame that one round of `map_range` maps, with the count of a shared frame raised.

The outer `none` is the dereference of a `NULL` source entry, the inner one the `NULL` frame. -/
def mapSource (m : Machine) (smem : ℕ) (virtualMemory : Bool) (cr3 : ℕ) : Option (Option ℕ) × Machine :=
  if virtualMemory then
    let r := m.getPage smem cr3 true false
    match r.1 with
    | none => (none, r.2)
    | some source =>
      let frame := align (r.2.load source)
      if frame = 0 then (some none, r.2)
      else
        let m := r.2.lock .frame
        (some (some frame), { m with framePool := incrementUsage m.framePool frame }.unlock .frame)
  else (some (some smem), m)

/-- One round of `map_range`'s loop. -/
def mapPage (start tostart : ℕ) (virtualMemory readonly kernel : Bool) (cr3 : ℕ)
    (st : Machine × Option MapStop) (offs : ℕ) : Machine × Option MapStop :=
  if st.2 ≠ none then st
  else
    let target := st.1.getPage (add64 tostart offs) cr3 true !kernel
    match target.1 with
    | none => (target.2, some (.failed offs))
    | some tp =>
      let source := target.2.mapSource (add64 start offs) virtualMemory cr3
      match source.1 with
      | none => (source.2, some (.faulted offs))
      | some none => (source.2, some (.failed offs))
      | some (some frame) => (source.2.store tp (mappedEntry frame readonly kernel), none)

/-- What `map_range` returns, with its two cursors; no value where it faulted. -/
structure MapResult where
  value : Option Bool
  start : ℕ
  tostart : ℕ
  deriving DecidableEq, Repr

/-- `map_range`. -/
def mapRange (m : Machine) (start endAddr tostart : ℕ) (virtualMemory readonly kernel : Bool) (cr3 : ℕ) :
    MapResult × Machine :=
  let st := run (mapPage start tostart virtualMemory readonly kernel cr3) (m.lock .tlb, none)
    (pageRange 0 (sub64 endAddr start))
  match st.2 with
  | none => (⟨some true, start, tostart⟩, st.1.unlock .tlb)
  | some (.failed offs) => (⟨some false, add64 start offs, add64 tostart offs⟩, st.1.unlock .tlb)
  | some (.faulted _) => (⟨none, start, tostart⟩, st.1)

/-- `create_pml4`: a root that shares the kernel half of the active one. -/
def createPml4 (m : Machine) : ℕ × Machine :=
  let activePage := m.activePage
  let r := (m.lock .frame).getFreeFrame
  let m := r.2.unlock .frame
  if r.1 = 0 then (0, m)
  else
    let m := m.fill r.1 0
    let sent := m.memory (align activePage)
    let tent := fun i => if 256 ≤ i ∧ i < 512 then sent i else m.memory r.1 i
    (r.1 - r.1 % 16 + activePage % 16, { m with memory := Function.update m.memory r.1 tent })

end Machine

end Cthulhu
