import Cthulhu.Process.Allocation

/-!
# The order of the address-space areas

The list `mem_maps` is kept sorted: every area ends at or below the start of the areas behind it.
`request_va_hole` inserts at the sorted place, `free_mmap_area` and `deallocate_memory` take one
area out and leave the others where they are.
-/

namespace Cthulhu

/-- The areas are sorted and pairwise disjoint: each ends at or below the start of every later one,
and none ends before it starts. -/
structure SortedAreas (areas : List MmapArea) : Prop where
  pairwise : areas.Pairwise fun a b => a.vaend ≤ b.vastart
  ordered : ∀ a ∈ areas, a.vastart ≤ a.vaend

/-- Every area holds a byte and ends at a machine word. -/
def NonemptyAreas (areas : List MmapArea) : Prop := ∀ a ∈ areas, a.vastart < a.vaend ∧ a.vaend < 2 ^ 64

namespace ProcessSpace

/-- `free_mmap_area` on the area at a position of the list: the process without it, the area that
follows, and whether the record is given back. The process's own root is `pml4`. -/
def freeMmapArea (ps : ProcessSpace) (pml4 k : ℕ) : ProcessSpace × Option MmapArea × Bool :=
  match ps.areas[k]? with
  | none => (ps, none, false)
  | some mm =>
    let machine :=
      match mm.mtype with
      | .programData | .stackData | .heapData | .kernelAllocatedHeapData =>
        ps.machine.deallocate mm.vastart (sub64 mm.vaend mm.vastart) pml4
      | .nondeallocMap => ps.machine
    (⟨machine, ps.areas.eraseIdx k⟩, ps.areas[k + 1]?, sub64 mm.count 1 = 0)

end ProcessSpace

section Sorted

variable {before after : List MmapArea} {a : MmapArea}

/-- Sortedness of a list around one area. -/
theorem sortedAreas_append_cons : SortedAreas (before ++ a :: after) ↔
    SortedAreas (before ++ after) ∧ a.vastart ≤ a.vaend ∧ (∀ b ∈ before, b.vaend ≤ a.vastart) ∧
      ∀ b ∈ after, a.vaend ≤ b.vastart := by
  constructor
  · rintro ⟨hpairwise, hordered⟩
    rw [List.pairwise_append, List.pairwise_cons] at hpairwise
    obtain ⟨hbefore, ⟨hhead, hafter⟩, hacross⟩ := hpairwise
    refine ⟨⟨List.pairwise_append.mpr ⟨hbefore, hafter, fun b hb c hc => ?_⟩, fun b hb => ?_⟩, ?_, fun b hb => ?_, hhead⟩
    · exact hacross b hb c (List.mem_cons_of_mem a hc)
    · refine hordered b ?_
      rw [List.mem_append, List.mem_cons]
      exact (List.mem_append.mp hb).imp_right Or.inr
    · exact hordered a (by simp)
    · exact hacross b hb a List.mem_cons_self
  · rintro ⟨⟨hpairwise, hordered⟩, hself, hbelow, habove⟩
    rw [List.pairwise_append] at hpairwise
    obtain ⟨hbefore, hafter, hacross⟩ := hpairwise
    refine ⟨List.pairwise_append.mpr ⟨hbefore, List.pairwise_cons.mpr ⟨habove, hafter⟩, fun b hb c hc => ?_⟩,
      fun b hb => ?_⟩
    · rcases List.mem_cons.mp hc with rfl | hc
      · exact hbelow b hb
      · exact hacross b hb c hc
    · rw [List.mem_append, List.mem_cons] at hb
      rcases hb with hb | rfl | hb
      · exact hordered b (List.mem_append_left _ hb)
      · exact hself
      · exact hordered b (List.mem_append_right _ hb)

/-- What is below the first of some sorted areas is below all of them. -/
theorem SortedAreas.le_of_head {areas : List MmapArea} (h : SortedAreas areas) {bound : ℕ}
    (hhead : ∀ b ∈ areas.head?, bound ≤ b.vastart) : ∀ b ∈ areas, bound ≤ b.vastart := by
  cases areas with
  | nil => simp
  | cons c rest =>
    have hc : bound ≤ c.vastart := hhead c rfl
    have hself := h.ordered c List.mem_cons_self
    have hrest := (List.pairwise_cons.mp h.pairwise).1
    intro b hb
    rcases List.mem_cons.mp hb with rfl | hb
    · exact hc
    · exact (hc.trans hself).trans (hrest b hb)

/-- A suffix of sorted areas is sorted. -/
theorem SortedAreas.right (h : SortedAreas (before ++ after)) : SortedAreas after :=
  ⟨(List.pairwise_append.mp h.pairwise).2.1, fun b hb => h.ordered b (List.mem_append_right _ hb)⟩

end Sorted

/-- An accepted request that does not wrap is inserted at its sorted place. -/
theorem SortedAreas.request {areas areas' : List MmapArea} (h : SortedAreas areas) {startAddress reqSize : ℕ}
    (hword : startAddress + reqSize < 2 ^ 64) (hrequest : requestVaHole areas startAddress reqSize = some areas') :
    SortedAreas areas' ∧ ∃ before after, areas = before ++ after ∧
      areas' = before ++ newArea startAddress (startAddress + reqSize) :: after := by
  unfold requestVaHole at hrequest
  split at hrequest
  · exact absurd hrequest (by simp)
  · obtain ⟨before, after, rfl, rfl, hbefore, hafter⟩ := requestLoop_some hrequest
    rw [add64_of_lt hword] at hafter ⊢
    refine ⟨sortedAreas_append_cons.mpr ⟨h, Nat.le_add_right _ _, hbefore, ?_⟩, before, after, rfl, rfl⟩
    exact h.right.le_of_head fun b hb => Nat.le_of_lt (hafter b hb)

/-- Removing an area keeps the order. -/
theorem ProcessSpace.freeMmapArea_areas {ps : ProcessSpace} {before after : List MmapArea} {mm : MmapArea}
    (hareas : ps.areas = before ++ mm :: after) (pml4 : ℕ) :
    (ps.freeMmapArea pml4 before.length).1.areas = before ++ after := by
  have hget : ps.areas[before.length]? = some mm := by
    rw [hareas]
    simp
  unfold freeMmapArea
  rw [hget]
  change ps.areas.eraseIdx before.length = before ++ after
  rw [hareas, List.eraseIdx_append_of_length_le (Nat.le_refl _), Nat.sub_self, List.eraseIdx_cons_zero]

section Release

variable {start amount : ℕ} {areas : List MmapArea}

/-- The search of `deallocate_memory` finds an area with the wanted start, end and type, and takes it
out. -/
theorem releaseArea_some {r : MmapArea × List MmapArea} (h : releaseArea start amount areas = some r) :
    ∃ before after, areas = before ++ r.1 :: after ∧ r.2 = before ++ after ∧
      r.1.vastart = start ∧ r.1.vaend = add64 start amount ∧ r.1.mtype = .heapData := by
  induction areas generalizing r with
  | nil => exact absurd h (by simp [releaseArea])
  | cons area rest ih =>
    unfold releaseArea at h
    split at h
    · rename_i hstart
      split at h
      · rename_i hmatch
        obtain rfl := Option.some.inj h
        exact ⟨[], rest, rfl, rfl, hstart, hmatch⟩
      · exact absurd h (by simp)
    · obtain ⟨r', hr', rfl⟩ := Option.map_eq_some_iff.mp h
      obtain ⟨before, after, rfl, hrest, hfound⟩ := ih hr'
      refine ⟨area :: before, after, rfl, ?_, hfound⟩
      rw [hrest, List.cons_append]

/-- In sorted areas that are not empty the search finds every area with the wanted start, end and
type. -/
theorem releaseArea_isSome (hsorted : SortedAreas areas) (hnonempty : NonemptyAreas areas) {a : MmapArea}
    (ha : a ∈ areas) (hstart : a.vastart = start) (hend : a.vaend = add64 start amount) (htype : a.mtype = .heapData) :
    ∃ rest, releaseArea start amount areas = some (a, rest) := by
  induction areas with
  | nil => exact absurd ha (by simp)
  | cons area rest ih =>
    unfold releaseArea
    rcases List.mem_cons.mp ha with rfl | hrest
    · rw [if_pos hstart, if_pos ⟨hend, htype⟩]
      exact ⟨rest, rfl⟩
    · have hbelow := (List.pairwise_cons.mp hsorted.pairwise).1 a hrest
      have hbyte := (hnonempty area List.mem_cons_self).1
      have hne : area.vastart ≠ start := by omega
      have hsorted' : SortedAreas rest :=
        ⟨(List.pairwise_cons.mp hsorted.pairwise).2, fun b hb => hsorted.ordered b (List.mem_cons_of_mem _ hb)⟩
      obtain ⟨left, hleft⟩ := ih hsorted' (fun b hb => hnonempty b (List.mem_cons_of_mem _ hb)) hrest
      rw [if_neg hne, hleft]
      exact ⟨area :: left, rfl⟩

end Release

/-- What the three routines that edit the list promise of it: a request is refused or inserted at its
sorted place, a removal takes out the given area, a deallocation succeeds exactly for a heap area
with the given bounds and takes out that one, and the list stays sorted. -/
structure AreasKept (ps : ProcessSpace) : Prop where
  request : ∀ startAddress reqSize, 0 < reqSize → startAddress + reqSize < 2 ^ 64 →
    ∀ areas, requestVaHole ps.areas startAddress reqSize = some areas →
      SortedAreas areas ∧ ∃ before after, ps.areas = before ++ after ∧
        areas = before ++ newArea startAddress (startAddress + reqSize) :: after
  free : ∀ before mm after pml4, ps.areas = before ++ mm :: after →
    (ps.freeMmapArea pml4 before.length).1.areas = before ++ after ∧ SortedAreas (before ++ after)
  found : ∀ start amount, start < 2 ^ 64 → amount < 2 ^ 64 →
    ((ps.deallocateMemory start amount).1 = 0 ↔
      ∃ a ∈ ps.areas, a.vastart = start ∧ a.vaend = start + amount ∧ a.mtype = .heapData)
  removed : ∀ start amount, (ps.deallocateMemory start amount).1 = 0 → ∃ before a after,
    ps.areas = before ++ a :: after ∧ a.vastart = start ∧ a.vaend = add64 start amount ∧ a.mtype = .heapData ∧
      (ps.deallocateMemory start amount).2.areas = before ++ after ∧ SortedAreas (before ++ after)
  refused : ∀ start amount, (ps.deallocateMemory start amount).1 ≠ 0 →
    (ps.deallocateMemory start amount).2.areas = ps.areas

/-- Every sorted list of areas that are not empty is kept by the three routines. -/
theorem areas_kept (ps : ProcessSpace) (hsorted : SortedAreas ps.areas) (hnonempty : NonemptyAreas ps.areas) :
    AreasKept ps where
  request := fun startAddress reqSize _ hword areas hrequest => hsorted.request hword hrequest
  free := by
    intro before mm after pml4 hareas
    rw [hareas] at hsorted
    exact ⟨ps.freeMmapArea_areas hareas pml4, (sortedAreas_append_cons.mp hsorted).1⟩
  found := by
    intro start amount hstart hamount
    unfold ProcessSpace.deallocateMemory
    constructor
    · intro hzero
      cases hfound : releaseArea start amount ps.areas with
      | none =>
        rw [hfound] at hzero
        exact absurd hzero Nat.one_ne_zero
      | some r =>
        obtain ⟨before, after, hareas, -, hvastart, hvaend, htype⟩ := releaseArea_some hfound
        have hmem : r.1 ∈ ps.areas := by
          rw [hareas]
          simp
        refine ⟨r.1, hmem, hvastart, ?_, htype⟩
        -- the end lies above the start, so the sum did not wrap
        have hbyte := (hnonempty r.1 hmem).1
        rw [hvaend, hvastart] at hbyte
        rw [hvaend]
        unfold add64 at hbyte ⊢
        omega
    · rintro ⟨a, ha, hvastart, hvaend, htype⟩
      have hword := (hnonempty a ha).2
      have hend : a.vaend = add64 start amount := by rw [add64_of_lt (by omega), hvaend]
      obtain ⟨rest, hfound⟩ := releaseArea_isSome hsorted hnonempty ha hvastart hend htype
      rw [hfound]
  removed := by
    intro start amount hzero
    unfold ProcessSpace.deallocateMemory at hzero ⊢
    cases hfound : releaseArea start amount ps.areas with
    | none =>
      rw [hfound] at hzero
      exact absurd hzero Nat.one_ne_zero
    | some r =>
      obtain ⟨before, after, hareas, hrest, hvastart, hvaend, htype⟩ := releaseArea_some hfound
      rw [hareas] at hsorted
      exact ⟨before, r.1, after, hareas, hvastart, hvaend, htype, hrest, (sortedAreas_append_cons.mp hsorted).1⟩
  refused := by
    intro start amount hne
    unfold ProcessSpace.deallocateMemory at hne ⊢
    cases hfound : releaseArea start amount ps.areas with
    | none => rfl
    | some r =>
      rw [hfound] at hne
      exact absurd rfl hne

/-- A process with a heap area and an area of its program. -/
def twoAreas : ProcessSpace :=
  ⟨blankMachine, [⟨0x1000, 0x2000, .heapData, 1⟩, ⟨0x3000, 0x4800, .programData, 1⟩]⟩

theorem areas_kept_two : SortedAreas twoAreas.areas ∧ NonemptyAreas twoAreas.areas ∧ AreasKept twoAreas := by
  have hsorted : SortedAreas twoAreas.areas := ⟨by decide, by decide⟩
  have hnonempty : NonemptyAreas twoAreas.areas := by
    unfold NonemptyAreas
    decide
  exact ⟨hsorted, hnonempty, areas_kept twoAreas hsorted hnonempty⟩

end Cthulhu
