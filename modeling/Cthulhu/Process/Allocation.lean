import Cthulhu.Memory.CountedMaps
import Cthulhu.Process.VaBounds

/-!
# Allocation system calls

`SYS_ALLOCATE` places an area and reserves its pages on demand, a touched page is given a
frame by `page_fault`, and `SYS_DEALLOCATE` looks the area up by its start, unmaps it and
removes it from the list. The address space is the active one, as it is for the calling
thread.
-/

namespace Cthulhu

open Lib

/-- A process: its areas, and the machine with its root active. -/
structure ProcessSpace where
  machine : Machine
  areas : List MmapArea

/-- The request of `allocate_memory_cont`. -/
def reserveRequest (vastart size : ℕ) : AllocInfo where
  start := vastart
  amount := size
  exec := true
  finished := false
  aod := true

/-- The area `allocate_memory` places, marked as heap. -/
def heapArea (areas : List MmapArea) (size random : ℕ) : MmapArea :=
  { (findVaHole areas size 0x1000 random).1 with mtype := .heapData }

namespace ProcessSpace

/-- The answer of `allocate_memory`, with the process it leaves. -/
structure Allocated where
  address : ℕ
  finished : Bool
  space : ProcessSpace

/-- `allocate_memory` and its continuation; unfinished when the pool runs out. -/
def allocateMemory (ps : ProcessSpace) (size random : ℕ) (stale : ℕ → ℕ) : Allocated :=
  let hole := selectHole ps.areas size 0x1000
  let area := heapArea ps.areas size random
  let r := ps.machine.allocateMem (reserveRequest area.vastart size) false false ps.machine.activePage stale
  ⟨area.vastart, r.1.finished, ⟨r.2, hole.before ++ area :: hole.after⟩⟩

/-- A user access to a page without translation. -/
def touch (stale : ℕ → ℕ) (ps : ProcessSpace) (address : ℕ) : ProcessSpace :=
  { ps with machine := (ps.machine.pageFault address 4 stale).2 }

end ProcessSpace

/-- The search of `deallocate_memory`: the area that starts there and the list without it.

No area, another size and another type are refused. -/
def releaseArea (start amount : ℕ) : List MmapArea → Option (MmapArea × List MmapArea)
  | [] => none
  | area :: rest =>
    if area.vastart = start then
      if area.vaend = add64 start amount ∧ area.mtype = .heapData then some (area, rest) else none
    else (releaseArea start amount rest).map fun r => (r.1, area :: r.2)

namespace ProcessSpace

/-- `deallocate_memory`. -/
def deallocateMemory (ps : ProcessSpace) (start amount : ℕ) : ℕ × ProcessSpace :=
  match releaseArea start amount ps.areas with
  | none => (1, ps)
  | some r => (0, ⟨ps.machine.deallocate r.1.vastart amount ps.machine.activePage, r.2⟩)

/-- The pages that an allocation reserves. -/
def reservedPages (ps : ProcessSpace) (size random : ℕ) : List ℕ :=
  Machine.allocatePages (heapArea ps.areas size random).vastart size

/-- An allocation, the touching of some pages, and the deallocation. -/
def roundTrip (ps : ProcessSpace) (size random : ℕ) (stale : ℕ → ℕ) (touched : List ℕ) : ℕ × ProcessSpace :=
  let r := ps.allocateMemory size random stale
  (run (touch stale) r.space touched).deallocateMemory r.address size

/-- The round trip undid itself: it succeeded, the areas are as before, no reserved page is left
present or on demand, and there are as many free frames as before. -/
structure Undone (ps : ProcessSpace) (size random : ℕ) (stale : ℕ → ℕ) (touched : List ℕ) : Prop where
  succeeded : (ps.roundTrip size random stale touched).1 = 0
  areas : (ps.roundTrip size random stale touched).2.areas = ps.areas
  unmapped : ∀ page ∈ ps.reservedPages size random,
    present ((ps.roundTrip size random stale touched).2.machine.pageEntry page ps.machine.activePage) = false ∧
      ((ps.roundTrip size random stale touched).2.machine.pageFault page 4 stale).1 = some false
  frames : (freeFrames (ps.roundTrip size random stale touched).2.machine.framePool).length =
    (freeFrames ps.machine.framePool).length

end ProcessSpace

section Areas

/-- Moving an element past a list changes nothing only if the list repeats it. -/
theorem append_singleton_eq_cons {α : Type*} {l : List α} {x y : α} :
    l ++ [x] = y :: l ↔ y = x ∧ ∀ z ∈ l, z = x := by
  induction l generalizing y with
  | nil => simp [eq_comm]
  | cons z l ih =>
    rw [List.cons_append, List.cons.injEq, ih, List.forall_mem_cons]
    constructor
    · rintro ⟨rfl, hzx, hl⟩
      exact ⟨hzx, hzx, hl⟩
    · rintro ⟨rfl, rfl, hl⟩
      exact ⟨rfl, rfl, hl⟩

/-- The search gives back the list around the new area exactly when every area from the first with
its start up to it is the same area again. -/
theorem releaseArea_restores {start amount : ℕ} {area : MmapArea} (hstart : area.vastart = start)
    (hend : area.vaend = add64 start amount) (htype : area.mtype = .heapData) (before after : List MmapArea) :
    (∃ found, releaseArea start amount (before ++ area :: after) = some (found, before ++ after)) ↔
      ∀ other ∈ before.dropWhile fun other => other.vastart ≠ start, other = area := by
  induction before with
  | nil => simp [releaseArea, hstart, hend, htype]
  | cons b before ih =>
    rw [List.cons_append, releaseArea]
    by_cases hb : b.vastart = start
    · rw [if_pos hb, List.dropWhile_cons_of_neg (by simpa using hb), List.forall_mem_cons]
      have hshape : before ++ area :: after = b :: (before ++ after) ↔ before ++ [area] = b :: before := by
        rw [List.append_cons before area after, ← List.cons_append]
        exact List.append_left_inj after
      constructor
      · rintro ⟨found, hfound⟩
        split at hfound
        next =>
          have hlist := (Prod.mk.inj (Option.some.inj hfound)).2
          exact append_singleton_eq_cons.mp (hshape.mp hlist)
        next => exact absurd hfound (by simp)
      · rintro ⟨rfl, hall⟩
        refine ⟨b, ?_⟩
        rw [if_pos ⟨hend, htype⟩, hshape.mpr (append_singleton_eq_cons.mpr ⟨rfl, hall⟩), List.cons_append]
    · rw [if_neg hb, List.dropWhile_cons_of_pos (by simpa using hb), ← ih]
      simp

/-- The heap area ends where the deallocation expects it. -/
theorem heapArea_end (areas : List MmapArea) (size random : ℕ) :
    (heapArea areas size random).vaend = add64 (heapArea areas size random).vastart size := by
  unfold heapArea findVaHole newArea add64
  dsimp only
  omega

/-- The heap area starts at a page boundary. -/
theorem heapArea_aligned (areas : List MmapArea) (size random : ℕ) :
    (heapArea areas size random).vastart % 0x1000 = 0 := by
  unfold heapArea findVaHole newArea alignUp alignDown add64
  dsimp only
  split <;> omega

/-- At a page boundary, allocation and deallocation go through the same pages. -/
theorem deallocatePages_eq {start : ℕ} (hstart : start % 0x1000 = 0) (size : ℕ)
    (hsize : size < 2 ^ 64) : Machine.deallocatePages start size = Machine.allocatePages start size := by
  have halign := align_of_mod hstart
  unfold Machine.deallocatePages Machine.allocatePages
  congr 1
  unfold Machine.deallocateEnd pageAlignUp
  simp only [halign, hstart, ne_eq, not_true_eq_false, if_false, Nat.sub_self]
  unfold add64 align
  split <;> split <;> omega

end Areas

end Cthulhu
