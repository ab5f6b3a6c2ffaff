import Cthulhu.Process.DirectAlloc
import Cthulhu.Process.MapPhysical
import Cthulhu.Rlyeh.Image
import Cthulhu.Syscalls.ValidateString

/-!
# Entries of the initial file system

`get_initramfs_entry` describes the element at a path in a record of the caller. For a directory it
reserves an array for the names of the children. The `return` behind the test of its address is not part of
that test: the call ends there whether or not the array was obtained, so that no name is ever copied, and
the area of the array stays with the process.
-/

namespace Cthulhu

open Lib

/-- `E_IFS_ACTION_SUCCESS`. -/
def ifsActionSuccess : ℤ := 0

/-- `E_IFS_INITRAMFS_GONE`. -/
def ifsInitramfsGone : ℤ := -1

/-- `E_EINVAL`. -/
def ifsEinval : ℤ := -2

/-- `ENOMEM_INTERNAL`, that is `INT_MIN`. -/
def enomemInternal : ℤ := -(2 ^ 31)

/-- `sizeof(ifs_directory_t)`, which is also that of `ifs_file_t`. -/
def ifsDirectorySize : ℕ := 280

/-- `et_dir`. -/
def etDir : ℕ := 0

/-- `et_file`. -/
def etFile : ℕ := 1

/-- What `get_initramfs_entry` returns, whether the continuation is set, and the state it leaves. -/
structure EntryResult where
  code : ℤ
  waits : Bool
  state : LoadState

/-- The characters of a string from an address on, without its `NUL`; no value while none was found. -/
def Kernel.readString (s : Kernel) : ℕ → ℕ → Option (List ℕ)
  | 0, _ => none
  | fuel + 1, a =>
    match s.readChar a with
    | none => none
    | some 0 => some []
    | some b => (readString s fuel (add64 a 1)).map (b :: ·)

namespace LoadState

/-- The state as a process space. -/
def space (st : LoadState) : ProcessSpace := ⟨st.kernel.machine, st.areas⟩

/-- The state with another process space. -/
def withSpace (st : LoadState) (ps : ProcessSpace) : LoadState :=
  ⟨{ st.kernel with machine := ps.machine }, ps.areas⟩

/-- The fields of `initramfs_entry_t` written to the record, in the order of the source. -/
def fillEntry (st : LoadState) (strpnt type : ℕ) (name : PathName) (size : ℕ) : Option LoadState := do
  let s ← st.kernel.write (.address strpnt) 4 (byteOf type)
  let s ← s.write (.address (add64 strpnt 16)) 255 fun k => name.getD k 0
  let s ← s.write (.address (add64 strpnt 8)) 8 (byteOf size)
  some { st with kernel := s }

/-- The branch of `get_initramfs_entry` for a directory. -/
def directoryEntry (st : LoadState) (pml4 random strpnt : ℕ) (name : PathName) (children : List PathElement) :
    Option EntryResult := do
  let st ← st.fillEntry strpnt etDir name children.length
  let r := st.space.procAllocDirect pml4 (children.length * 8 % 2 ^ 64) random
  let st := st.withSpace r.2
  let s ← st.kernel.write (.address (add64 strpnt 272)) 8 (byteOf r.1)
  -- only the assignment to the continuation depends on the test; the loop behind the `return` is not reached
  some ⟨enomemInternal, r.1 = 0, { st with kernel := s }⟩

/-- The branch of `get_initramfs_entry` for a file; the module is given by its physical address. -/
def fileEntry (st : LoadState) (pml4 random strpnt initrdModule : ℕ) (name : PathName) (file : FileEntry) :
    Option EntryResult := do
  let st ← st.fillEntry strpnt etFile name file.size
  let fe := getData file initrdModule
  let r := st.space.mapPhysicalVirtual pml4 fe (add64 fe file.size) true random
  let address ← r.address
  let st := st.withSpace r.space
  let s ← st.kernel.write (.address (add64 strpnt 272)) 8 (byteOf address)
  some ⟨if address = 0 then enomemInternal else ifsActionSuccess, address = 0, { st with kernel := s }⟩

/-- The checks of the two pointers, and the path: the call ends with a result, or it goes on. -/
def acceptEntry (st : LoadState) (fuel p strpnt : ℕ) : Option (Except EntryResult (LoadState × List ℕ)) := do
  let string ← st.kernel.validateString fuel p
  let st : LoadState := st.withSpace ⟨string.machine, st.areas⟩
  if string.value = false then some (.error ⟨ifsEinval, string.waits, st⟩)
  else
    let record ← st.kernel.machine.validateAddress fuel strpnt ifsDirectorySize
    let st : LoadState := st.withSpace ⟨record.2.2, st.areas⟩
    if record.1 = false then some (.error ⟨ifsEinval, record.2.1, st⟩)
    else
      let path ← st.kernel.readString fuel p
      some (.ok (st, path))

/-- `get_initramfs_entry`; no value while it has not returned or where it faults. -/
def getInitramfsEntry (st : LoadState) (initramfsExists : Bool) (root : List PathElement)
    (initrdModule pml4 random fuel p strpnt : ℕ) : Option EntryResult :=
  if initramfsExists = false then some ⟨ifsInitramfsGone, false, st⟩
  else
    match st.acceptEntry fuel p strpnt with
    | none => none
    | some (.error r) => some r
    | some (.ok (st, path)) =>
      match getPath (components path) root with
      | .fault => none
      | .missing => some ⟨ifsEinval, false, st⟩
      | .found (.dir name children) => st.directoryEntry pml4 random strpnt name children
      | .found (.file name file) => st.fileEntry pml4 random strpnt initrdModule name file

end LoadState

namespace Kernel

/-- The memory of the caller holds a number of `n` bytes at an address. -/
def HoldsWord (s : Kernel) (a n v : ℕ) : Prop := ∀ k < n, s.load (.address a) k = some (byteOf v k)

/-- The memory of the caller holds a copy of a name with its `NUL` at an address. -/
def HoldsName (s : Kernel) (a : ℕ) (name : PathName) : Prop :=
  (∀ k b, name[k]? = some b → s.load (.address a) k = some b) ∧ s.load (.address a) name.length = some 0

/-- The record of the caller lists the children of a directory. -/
structure Lists (s : Kernel) (strpnt : ℕ) (children : List PathElement) : Prop where
  type : s.HoldsWord strpnt 4 etDir
  size : s.HoldsWord (add64 strpnt 8) 8 children.length
  entries : ∃ a, s.HoldsWord (add64 strpnt 272) 8 a ∧ ∀ i child, children[i]? = some child →
    ∃ b, s.HoldsWord (add64 a (8 * i)) 8 b ∧ s.HoldsName b child.name

end Kernel

/-- The children of the directory at a path. -/
def childrenAt : List PathName → List PathElement → Option (List PathElement)
  | [], entries => some entries
  | pe :: rest, entries =>
    match findByName entries pe with
    | some (.dir _ sub) => childrenAt rest sub
    | _ => none

/-- A call for a directory returns with the listing, or without memory, with the continuation set and the areas
as they were. -/
def LoadState.ListsDirectory (st : LoadState) (root : List PathElement) (initrdModule pml4 random fuel p strpnt : ℕ)
    (children : List PathElement) : Prop :=
  ∃ r, st.getInitramfsEntry true root initrdModule pml4 random fuel p strpnt = some r ∧
    (r.code = ifsActionSuccess ∧ r.state.kernel.Lists strpnt children ∨
      r.code = enomemInternal ∧ r.waits = true ∧ r.state.areas = st.areas)

/-- A lookup of the path of a directory finds the directory, unless the path has no component. -/
theorem getPath_of_children {path : List PathName} {entries children : List PathElement}
    (h : childrenAt path entries = some children) (hpath : path ≠ []) :
    ∃ name, getPath path entries = .found (.dir name children) := by
  induction path generalizing entries with
  | nil => exact absurd rfl hpath
  | cons pe rest ih =>
    unfold childrenAt at h
    split at h
    · rename_i name sub hfind
      cases rest with
      | nil =>
        obtain rfl : sub = children := by simpa [childrenAt] using h
        exact ⟨name, by rw [getPath, hfind]⟩
      | cons next rest =>
        rw [getPath, hfind]
        exact ih h (List.cons_ne_nil _ _)
    · exact absurd h (by simp)

namespace LoadState

/-- Writing the record changes no area. -/
theorem fillEntry_areas {st st' : LoadState} {strpnt type size : ℕ} {name : PathName}
    (h : st.fillEntry strpnt type name size = some st') : st'.areas = st.areas := by
  unfold fillEntry at h
  simp only [Option.bind_eq_bind, Option.bind_eq_some_iff, Option.some.injEq] at h
  obtain ⟨s, -, s', -, s'', -, rfl⟩ := h
  rfl

/-- Accepting the arguments changes no area. -/
theorem acceptEntry_areas {st st' : LoadState} {fuel p strpnt : ℕ} {path : List ℕ}
    (h : st.acceptEntry fuel p strpnt = some (.ok (st', path))) : st'.areas = st.areas := by
  unfold acceptEntry at h
  simp only [Option.bind_eq_bind, Option.bind_eq_some_iff] at h
  obtain ⟨string, -, h⟩ := h
  split at h
  · exact absurd h (by simp)
  · simp only [Option.bind_eq_some_iff] at h
    obtain ⟨record, -, h⟩ := h
    split at h
    · exact absurd h (by simp)
    · simp only [Option.bind_eq_some_iff, Option.some.injEq, Except.ok.injEq, Prod.mk.injEq] at h
      obtain ⟨_, -, rfl, -⟩ := h
      rfl

/-- The branch for a directory returns without memory, and keeps the area of the array. -/
theorem directoryEntry_result {st : LoadState} {pml4 random strpnt : ℕ} {name : PathName}
    {children : List PathElement} {r : EntryResult}
    (h : st.directoryEntry pml4 random strpnt name children = some r) :
    r.code = enomemInternal ∧ r.state.areas ≠ st.areas := by
  unfold directoryEntry at h
  simp only [Option.bind_eq_bind, Option.bind_eq_some_iff, Option.some.injEq] at h
  obtain ⟨st', hfill, s, -, rfl⟩ := h
  refine ⟨rfl, ?_⟩
  rw [← fillEntry_areas hfill]
  exact st'.space.procAllocDirect_areas pml4 (children.length * 8 % 2 ^ 64) random

end LoadState

/-- A call that finds a directory neither lists it nor fails with nothing left behind. -/
theorem LoadState.not_listsDirectory {st st' : LoadState} {root children found : List PathElement}
    {initrdModule pml4 random fuel p strpnt : ℕ} {path : List ℕ} {name : PathName}
    (haccept : st.acceptEntry fuel p strpnt = some (.ok (st', path)))
    (hfound : getPath (components path) root = .found (.dir name found)) :
    ¬ st.ListsDirectory root initrdModule pml4 random fuel p strpnt children := by
  rintro ⟨r, hcall, hresult⟩
  have hareas := LoadState.acceptEntry_areas haccept
  unfold LoadState.getInitramfsEntry at hcall
  rw [if_neg (by decide), haccept] at hcall
  dsimp only at hcall
  rw [hfound] at hcall
  obtain ⟨hcode, hchanged⟩ := LoadState.directoryEntry_result hcall
  rw [hareas] at hchanged
  rcases hresult with ⟨hzero, -⟩ | ⟨-, -, hsame⟩
  · rw [hcode] at hzero
    exact absurd hzero (by decide)
  · exact hchanged hsame

/-- A call for the root neither lists it nor runs out of memory. -/
theorem LoadState.not_listsDirectory_root {st st' : LoadState} {root children : List PathElement}
    {initrdModule pml4 random fuel p strpnt : ℕ} {path : List ℕ}
    (haccept : st.acceptEntry fuel p strpnt = some (.ok (st', path))) (hroot : components path = []) :
    ¬ st.ListsDirectory root initrdModule pml4 random fuel p strpnt children := by
  rintro ⟨r, hcall, hresult⟩
  unfold LoadState.getInitramfsEntry at hcall
  rw [if_neg (by decide), haccept] at hcall
  dsimp only at hcall
  rw [hroot, getPath] at hcall
  -- `strtok` finds no component: the search is for a null name
  by_cases hempty : root.isEmpty = true
  · rw [if_pos hempty] at hcall
    obtain rfl := Option.some.inj hcall
    rcases hresult with ⟨hcode, -⟩ | ⟨hcode, -⟩
    · exact absurd hcode (show ifsEinval ≠ ifsActionSuccess by decide)
    · exact absurd hcode (show ifsEinval ≠ enomemInternal by decide)
  · rw [if_neg hempty] at hcall
    exact absurd hcall (by simp)

/-- Whenever its arguments are accepted and the path names a directory, `get_initramfs_entry` neither lists the
directory nor fails with nothing left behind. -/
theorem getInitramfsEntry_never_lists (st st' : LoadState) (root children : List PathElement)
    (initrdModule pml4 random fuel p strpnt : ℕ) (path : List ℕ)
    (haccept : st.acceptEntry fuel p strpnt = some (.ok (st', path)))
    (hdir : childrenAt (components path) root = some children) :
    ¬ st.ListsDirectory root initrdModule pml4 random fuel p strpnt children := by
  by_cases hroot : components path = []
  · exact LoadState.not_listsDirectory_root haccept hroot
  · obtain ⟨name, hfound⟩ := getPath_of_children hdir hroot
    exact LoadState.not_listsDirectory haccept hfound

/-- A process with one page, at whose start the path `d` is. -/
def callerState : LoadState where
  kernel :=
    let kernel : Kernel := ⟨(blankMachine.allocate 0x400000 0x1000 false false 0x100000).2, fun _ => 0⟩
    (kernel.write (.address 0x400010) 2 (byteOf 0x64)).getD kernel
  areas := [newArea 0x400000 0x401000]

/-- A tree with the file `d/f`. -/
def callerTree : List PathElement := [.dir [0x64] [.file [0x66] ⟨3, 0x200⟩]]

/-- The arguments of a call with that path and a record behind it are accepted. -/
theorem callerState_accepts : ∃ st', callerState.acceptEntry 8 0x400010 0x400100 = some (.ok (st', [0x64])) := by
  have hpath : (callerState.acceptEntry 8 0x400010 0x400100).bind
      (fun r => r.toOption.map Prod.snd) = some [0x64] := by decide +kernel
  obtain ⟨r, hr, hpath⟩ := Option.bind_eq_some_iff.mp hpath
  cases r with
  | error e => exact absurd hpath (by simp [Except.toOption])
  | ok st' =>
    obtain ⟨st', path⟩ := st'
    obtain rfl : path = [0x64] := by simpa [Except.toOption] using hpath
    exact ⟨st', hr⟩

/-- The theorem for the directory of this tree. -/
theorem getInitramfsEntry_never_lists_small :
    ¬ callerState.ListsDirectory callerTree 0 0x100000 0x10000 8 0x400010 0x400100 [.file [0x66] ⟨3, 0x200⟩] := by
  obtain ⟨st', haccept⟩ := callerState_accepts
  exact getInitramfsEntry_never_lists callerState st' callerTree _ 0 0x100000 0x10000 8 0x400010 0x400100 [0x64] haccept
    rfl

/-- The listing of `d`, with memory for the array, for the name and for all that is missing on the way to them,
is not done. -/
theorem getInitramfsEntry_stops :
    (∃ st', callerState.acceptEntry 8 0x400010 0x400100 = some (.ok (st', [0x64]))) ∧
      childrenAt (components [0x64]) callerTree = some [.file [0x66] ⟨3, 0x200⟩] ∧
      (callerState.kernel.machine.allocate (directArea callerState.areas 8 0x10000).vastart 0x2000 false false 0x100000).1 =
        true ∧
      ¬ callerState.ListsDirectory callerTree 0 0x100000 0x10000 8 0x400010 0x400100 [.file [0x66] ⟨3, 0x200⟩] := by
  obtain ⟨st', haccept⟩ := callerState_accepts
  exact ⟨⟨st', haccept⟩, rfl, by decide +kernel, LoadState.not_listsDirectory haccept rfl⟩

end Cthulhu
