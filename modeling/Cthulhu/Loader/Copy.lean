import Cthulhu.Lib.Bytes
import Cthulhu.Loader.OwnPages

/-!
# Copies between address spaces

`memcpy_dpgs` and `memset_dpgs` of `paging.c`. They go through a range page by page, look up the
frame of each page and write to it through the mirror of physical memory, which is there from the end
of boot on. Bytes at kernel addresses are kept apart from the frames: the frames that the pool gives
out hold none of them.

An access through a pointer that nothing maps is a page fault in the kernel, and `none` here.
-/

namespace Cthulhu

open Lib

/-- The machine with the bytes at the kernel's own addresses. -/
structure Kernel where
  machine : Machine
  bytes : ℕ → ℕ

/-- A pointer to memory: into the mirror of a frame, or any other address. -/
inductive Pointer
  | mirror (frame offs : ℕ)
  | address (a : ℕ)
  deriving DecidableEq, Repr

/-- `physical_to_virtual` with an offset in the frame; the null frame is behind the null pointer. -/
def frameMemory (paddress offs : ℕ) : Pointer := if paddress = 0 then .address offs else .mirror paddress offs

/-- `is_physical`. -/
def isPhysical (mem : ℕ) : Bool := 0xFFFF000000000000 ≤ mem

namespace Kernel

variable (s : Kernel)

/-- The byte an address space has at an address, or `none` where it has no page. -/
def userByte (cr3 va : ℕ) : Option ℕ :=
  let entry := s.machine.pageEntry va cr3
  if present entry then some (readByte (s.machine.memory (frameOf entry)) (va % 0x1000)) else none

/-- The byte behind a pointer. -/
def load (p : Pointer) (k : ℕ) : Option ℕ :=
  match p with
  | .mirror frame offs => some (readByte (s.machine.memory frame) (offs + k))
  | .address a =>
    if isPhysical (add64 a k) then some (s.bytes (add64 a k) % 256) else s.userByte s.machine.activePage (add64 a k)

/-- Bytes written to a frame. -/
def writeFrame (frame offs n : ℕ) (source : ℕ → ℕ) : Kernel :=
  { s with machine := { s.machine with
      memory := Function.update s.machine.memory frame (writeBytes (s.machine.memory frame) offs n source) } }

/-- One byte written to an address. -/
def writeByte (a b : ℕ) : Option Kernel :=
  if isPhysical a then some { s with bytes := Function.update s.bytes a b }
  else
    let entry := s.machine.pageEntry a s.machine.activePage
    if present entry then some (s.writeFrame (frameOf entry) (a % 0x1000) 1 fun _ => b) else none

/-- Bytes written behind a pointer. -/
def write (p : Pointer) (n : ℕ) (source : ℕ → ℕ) : Option Kernel :=
  match p with
  | .mirror frame offs => some (s.writeFrame frame offs n source)
  | .address a => (List.range n).foldlM (fun s k => s.writeByte (add64 a k) (source k)) s

/-- `memcpy`. -/
def memcpy (dest src : Pointer) (n : ℕ) : Option Kernel :=
  if ∀ k < n, (s.load src k).isSome then s.write dest n fun k => (s.load src k).getD 0 else none

/-- `memset`. -/
def memset (dest : Pointer) (v n : ℕ) : Option Kernel := s.write dest n fun _ => v

/-- The entry that `get_page` finds for an address below the kernel's. -/
def lookup (a cr3 : ℕ) : Option ℕ :=
  if isPhysical a then none else (s.machine.getPage a cr3 false false).1.map s.machine.load

/-- The loop of `memcpy_dpgs`; every round copies at least one byte, so that the count bounds the rounds. -/
def memcpyDpgsLoop (cr3a cr3b : ℕ) : ℕ → Kernel → ℕ → ℕ → ℕ → ℕ → ℕ → Option Kernel
  | 0, s, _, _, _, _, _ => some s
  | fuel + 1, s, dest, src, offs, offs2, n =>
    if n = 0 then some s
    -- the source has the arguments of this call the other way round
    else if isPhysical src && isPhysical dest then s.memcpy (.address src) (.address dest) n
    else
      let phys := s.lookup src cr3b
      let phys2 := s.lookup dest cr3a
      if phys ≠ none ∨ phys2 ≠ none then
        let pos1 := match phys with
          | some entry => frameMemory (align entry) offs
          | none => .address src
        let pos2 := match phys2 with
          | some entry => frameMemory (align entry) offs2
          | none => .address dest
        let maxcpy := if offs < offs2 then 0x1000 - offs2 else 0x1000 - offs
        (s.memcpy pos2 pos1 (if maxcpy < n then maxcpy else n)).bind fun s =>
          if n ≤ maxcpy then some s
          else
            let src := add64 src maxcpy
            let dest := add64 dest maxcpy
            memcpyDpgsLoop cr3a cr3b fuel s dest src (src - align src) (dest - align dest) (n - maxcpy)
      else some s

/-- `memcpy_dpgs`. -/
def memcpyDpgs (cr3a cr3b dest src n : ℕ) : Option Kernel :=
  memcpyDpgsLoop cr3a cr3b n s dest src (src - align src) (dest - align dest) n

/-- The loop of `memset_dpgs`. -/
def memsetDpgsLoop (cr3 v : ℕ) : ℕ → Kernel → ℕ → ℕ → ℕ → Option Kernel
  | 0, s, _, _, _ => some s
  | fuel + 1, s, src, offs, n =>
    if n = 0 then some s
    else if isPhysical src then s.memset (.address src) v n
    else
      match s.lookup src cr3 with
      | none => some s
      | some entry =>
        (s.memset (frameMemory (align entry) offs) v (if 0x1000 - offs < n then 0x1000 - offs else n)).bind fun s =>
          if n ≤ 0x1000 - offs then some s
          else memsetDpgsLoop cr3 v fuel s (add64 src (0x1000 - offs)) 0 (n - (0x1000 - offs))

/-- `memset_dpgs`. -/
def memsetDpgs (cr3 src v n : ℕ) : Option Kernel := memsetDpgsLoop cr3 v n s src (src - align src) n

end Kernel

end Cthulhu
