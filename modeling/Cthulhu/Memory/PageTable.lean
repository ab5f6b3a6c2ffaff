import Cthulhu.Memory.FramePool

/-!
# Four-level page tables

The page-table walk of `paging.c`, its inverse `free_page_structure`, and the two functions
that give a page its frame and take it away. Physical memory is read and written a word at
a time, a word being named by the address of its frame and its index in it; the mirror of
physical memory through which the kernel reaches its tables is this identity. A pointer to a
leaf entry is a `Slot`, and `none` is `NULL`.

Acquisitions and releases of the two spinlocks of `paging.c` are recorded in order. The
translation caches and the messages that flush them are not part of the machine.
-/

namespace Cthulhu

/-- The spinlocks of `paging.c`: `__frame_lock`, and the lock that `tlb_shootdown` holds. -/
inductive PagingLock
  | frame
  | tlb
  deriving DecidableEq, Repr

/-- One use of a spinlock. -/
inductive LockEvent
  | lock (l : PagingLock)
  | unlock (l : PagingLock)
  deriving DecidableEq, Repr

/-- Physical memory: the words of every frame. -/
abbrev Memory := ℕ → ℕ → ℕ

/-- The globals of `paging.c` and the physical memory they describe. -/
structure Machine where
  framePool : List SectionInfo
  memory : Memory
  activePage : ℕ
  memMirrorPresent : Bool
  tmpHeap : ℕ
  lockLog : List LockEvent

/-- A pointer to a page-table entry. -/
structure Slot where
  table : ℕ
  index : ℕ
  deriving DecidableEq, Repr

namespace Machine

variable (m : Machine)

/-- `proc_spinlock_lock`. -/
def lock (l : PagingLock) : Machine := { m with lockLog := m.lockLog ++ [.lock l] }

/-- `proc_spinlock_unlock`. -/
def unlock (l : PagingLock) : Machine := { m with lockLog := m.lockLog ++ [.unlock l] }

/-- A store of one word. -/
def store (p : Slot) (w : ℕ) : Machine :=
  { m with memory := Function.update m.memory p.table (Function.update (m.memory p.table) p.index w) }

/-- A `memset` of one frame, the word being eight times the byte. -/
def fill (frame w : ℕ) : Machine := { m with memory := Function.update m.memory frame fun _ => w }

/-- The word a pointer points to. -/
def load (p : Slot) : ℕ := m.memory p.table p.index

/-- `get_free_frame`.

Before the pool exists the frame comes from the temporary heap, whose virtual addresses are
`0xFFFFFFFF80000000` above their frames. With the pool exhausted the frame lock is released
and the result is zero. -/
def getFreeFrame : ℕ × Machine :=
  match m.framePool with
  | [] =>
    let head := if m.tmpHeap % 0x1000 ≠ 0 then m.tmpHeap + (0x1000 - m.tmpHeap % 0x1000) else m.tmpHeap
    (sub64 head 0xFFFFFFFF80000000, { m with tmpHeap := head + 0x1000 })
  | pool =>
    let r := Cthulhu.getFreeFrame pool
    if r.1 = 0 then (0, m.unlock .frame) else (r.1, { m with framePool := r.2 })

/-- `free_frame`, with the clearing of a frame whose last use ends. -/
def freeFrame (frameAddress : ℕ) : Machine :=
  let r := Cthulhu.freeFrame m.framePool frameAddress
  let m := { m with framePool := r.1 }
  match r.2 with
  | some frame => m.fill frame 0
  | none => m

end Machine

/-- The `pml` field of a virtual address. -/
def pmlIndex (va : ℕ) : ℕ := va / 2 ^ 39 % 512

/-- The `directory_ptr` field of a virtual address. -/
def directoryPtrIndex (va : ℕ) : ℕ := va / 2 ^ 30 % 512

/-- The `directory` field of a virtual address. -/
def directoryIndex (va : ℕ) : ℕ := va / 2 ^ 21 % 512

/-- The `table` field of a virtual address. -/
def tableIndex (va : ℕ) : ℕ := va / 2 ^ 12 % 512

/-- `PRESENT(addr)`. -/
def present (w : ℕ) : Bool := bit w 0

/-- The entry of a new table: present, writable, and user-accessible as asked. -/
def tableEntry (frame : ℕ) (user : Bool) : ℕ := setBit (setBit (setBit frame 0 true) 2 user) 1 true

namespace Machine

variable (m : Machine)

/-- One level of `__get_page`: the table an entry points to, allocated when it is missing. -/
def descend (entry : Slot) (allocateNew user : Bool) : Option ℕ × Machine :=
  if present (m.load entry) then (some (align (m.load entry)), m)
  else if allocateNew then
    let r := m.getFreeFrame
    if r.1 = 0 then (none, r.2)
    else
      let number := tableEntry r.1 user
      let m := (r.2.store entry number).fill (align number) 0
      (some (align (m.load entry)), m)
  else (none, m)

/-- `__get_page`. -/
def getPage (va cr3 : ℕ) (allocateNew user : Bool) : Option Slot × Machine :=
  let r := m.descend ⟨align cr3, pmlIndex va⟩ allocateNew user
  match r.1 with
  | none => (none, r.2)
  | some pdpt =>
    let r := r.2.descend ⟨pdpt, directoryPtrIndex va⟩ allocateNew user
    match r.1 with
    | none => (none, r.2)
    | some pdir =>
      let r := r.2.descend ⟨pdir, directoryIndex va⟩ allocateNew user
      match r.1 with
      | none => (none, r.2)
      | some pt => (some ⟨pt, tableIndex va⟩, r.2)

/-- Every entry of the table is zero. -/
def tableClear (table : ℕ) : Bool := (List.range 512).all fun i => m.memory table i = 0

/-- `free_page_structure`: clears the leaf entry, then every table this leaves empty. -/
def freePageStructure (va cr3 : ℕ) : Machine :=
  let pml4 := align cr3
  let pmlEntry : Slot := ⟨pml4, pmlIndex va⟩
  if !present (m.load pmlEntry) then m
  else
    let pdpt := align (m.load pmlEntry)
    let pdptEntry : Slot := ⟨pdpt, directoryPtrIndex va⟩
    if !present (m.load pdptEntry) then m
    else
      let pdir := align (m.load pdptEntry)
      let pdirEntry : Slot := ⟨pdir, directoryIndex va⟩
      if !present (m.load pdirEntry) then m
      else
        let pt := align (m.load pdirEntry)
        let m := m.store ⟨pt, tableIndex va⟩ 0
        if !m.tableClear pt then m
        else
          let m := (m.freeFrame (align (m.load pdirEntry))).store pdirEntry 0
          if !m.tableClear pdir then m
          else
            let m := (m.freeFrame (align (m.load pdptEntry))).store pdptEntry 0
            if !m.tableClear pdpt then m
            else (m.freeFrame (align (m.load pmlEntry))).store pmlEntry 0

/-- The flags that `allocate_frame` gives an entry. -/
def pageFlags (address : ℕ) (kernel readonly exec : Bool) : ℕ :=
  setBit (setBit (setBit (setBit address 0 true) 1 !readonly) 2 !kernel) 63 exec

/-- `allocate_frame`; the result is zero when the pool is exhausted.

An entry reserved on demand overrides the caller's `exec`. A new frame is filled with `0xCC`
bytes, reached through the mirror at its address without the execute-disable bit. -/
def allocateFrame (p : Slot) (kernel readonly exec : Bool) : ℕ × Machine :=
  let entry := m.load p
  if present entry then
    let m := m.store p (pageFlags (align entry) kernel readonly exec)
    (align (m.load p), m)
  else
    let exec := if bit entry 1 && bit entry 3 then bit entry 4 else exec
    let r := m.getFreeFrame
    if r.1 = 0 then (0, r.2)
    else
      let page := pageFlags r.1 kernel readonly exec
      let m := r.2.store p page
      let m := if m.memMirrorPresent then m.fill (align (setBit page 63 false)) 0xCCCCCCCCCCCCCCCC else m
      (align (m.load p), m)

/-- `deallocate_frame`. -/
def deallocateFrame (p : Option Slot) (va cr3 : ℕ) : Machine :=
  match p with
  | none => m
  | some p =>
    if !present (m.load p) then m
    else ((m.freeFrame (align (m.load p))).store p 0).freePageStructure va cr3

end Machine

end Cthulhu
