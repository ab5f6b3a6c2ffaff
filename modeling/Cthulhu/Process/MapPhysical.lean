import Cthulhu.Loader.FillSection
import Cthulhu.Memory.TableTree
import Cthulhu.Process.AreaOrder

/-!
# Mapping physical memory for a process

`map_physical_virtual` sizes its area with the aligned bounds and gives `map_range` the unaligned
start with the aligned end. The page count, the frames and the target pages that `map_range` derives
from these fit together: `ALIGN` takes the offset of the start out of every frame.
-/

namespace Cthulhu

open Lib

/-- What `map_physical_virtual` returns, with its cursor and the process it leaves; no address where
`map_range` faulted. -/
structure MappedPhysical where
  address : Option ℕ
  vastart : ℕ
  space : ProcessSpace

/-- The size of the area for a physical range. -/
def physicalSize (vastart vaend : ℕ) : ℕ := sub64 (alignUp vaend 0x1000) (alignDown vastart 0x1000)

/-- The area that `map_physical_virtual` inserts. -/
def physicalArea (areas : List MmapArea) (vastart vaend random : ℕ) : MmapArea :=
  { (findVaHole areas (physicalSize vastart vaend) 0x1000 random).1 with mtype := .kernelAllocatedHeapData }

/-- `map_physical_virtual`, with the value that the random generator returns. -/
def ProcessSpace.mapPhysicalVirtual (ps : ProcessSpace) (pml4 vastart vaend : ℕ) (readonly : Bool) (random : ℕ) :
    MappedPhysical :=
  let vaoffset := vastart % 0x1000
  let hole := selectHole ps.areas (physicalSize vastart vaend) 0x1000
  let area := physicalArea ps.areas vastart vaend random
  let r := ps.machine.mapRange vastart (alignUp vaend 0x1000) area.vastart false readonly false pml4
  let space : ProcessSpace := ⟨r.2, hole.before ++ area :: hole.after⟩
  match r.1.value with
  | none => ⟨none, r.1.start, space⟩
  | some false => ⟨some 0, alignDown vastart 0x1000, (space.freeMmapArea pml4 hole.before.length).1⟩
  | some true => ⟨some (add64 area.vastart vaoffset), r.1.start, space⟩

/-- The flags of the entry that `map_range` writes. -/
theorem mappedEntry_bits (frame : ℕ) (readonly kernel : Bool) :
    present (Machine.mappedEntry frame readonly kernel) = true ∧
      bit (Machine.mappedEntry frame readonly kernel) 2 = !kernel ∧
      bit (Machine.mappedEntry frame readonly kernel) 1 = !readonly := by
  refine ⟨present_mappedEntry frame readonly kernel, ?_, ?_⟩
  · exact bit_setBit_self _ _ _
  · unfold Machine.mappedEntry
    rw [bit_setBit_of_ne _ _ (by decide), bit_setBit_self]

section MapPages

variable {roots : Finset ℕ} {m : Machine} {cr3 start tostart : ℕ} {readonly kernel : Bool}

/-- One round for a physical source stops, or writes the entry of its page and no other. -/
theorem TableTree.mapPage (h : TableTree roots m) (hcr3 : align cr3 ∈ roots) {offs : ℕ}
    (hout : pmlIndex (add64 tostart offs) ≠ 510) (start : ℕ) (readonly kernel : Bool) :
    (∃ m', Machine.mapPage start tostart false readonly kernel cr3 (m, none) offs = (m', some (.failed offs))) ∨
      ∃ m', Machine.mapPage start tostart false readonly kernel cr3 (m, none) offs = (m', none) ∧
        TableTree roots m' ∧ ∀ page,
        (SamePage page (add64 tostart offs) →
          leafEntry m'.memory cr3 page = Machine.mappedEntry (add64 start offs) readonly kernel) ∧
        (¬ SamePage page (add64 tostart offs) → leafEntry m'.memory cr3 page = leafEntry m.memory cr3 page) := by
  obtain ⟨htree, hentries, hresult⟩ := h.getPage hcr3 hout !kernel
  unfold Machine.mapPage Machine.mapSource
  simp only [ne_eq, not_true_eq_false, if_false, Bool.false_eq_true]
  generalize m.getPage (add64 tostart offs) cr3 true (!kernel) = r at htree hentries hresult
  rcases hresult with hnone | ⟨pt, hsome, hwalk⟩
  · rw [hnone]
    exact Or.inl ⟨r.2, rfl⟩
  · rw [hsome]
    obtain ⟨htree', hstored⟩ :=
      htree.store hcr3 hwalk (Machine.mappedEntry (add64 start offs) readonly kernel)
    refine Or.inr ⟨_, rfl, htree', fun page => ⟨(hstored page).1, fun hother => ?_⟩⟩
    rw [(hstored page).2 hother, hentries cr3 page hcr3]

/-- Rounds after an error change nothing. -/
theorem Machine.mapPages_stopped {virtualMemory : Bool} {stop : MapStop} (offsets : List ℕ) :
    run (Machine.mapPage start tostart virtualMemory readonly kernel cr3) (m, some stop) offsets = (m, some stop) := by
  refine run_fixed (fun offs _ => ?_)
  unfold Machine.mapPage
  exact if_pos (by simp)

/-- A loop over distinct pages that finishes wrote the entry of each of them, and no other. -/
theorem TableTree.mapPages (h : TableTree roots m) (hcr3 : align cr3 ∈ roots) {offsets : List ℕ} (start : ℕ)
    (readonly kernel : Bool) (hout : ∀ o ∈ offsets, pmlIndex (add64 tostart o) ≠ 510)
    (hapart : offsets.Pairwise fun o o' => ¬ SamePage (add64 tostart o) (add64 tostart o'))
    (hdone : (run (Machine.mapPage start tostart false readonly kernel cr3) (m, none) offsets).2 = none) :
    (∀ o ∈ offsets, leafEntry
        (run (Machine.mapPage start tostart false readonly kernel cr3) (m, none) offsets).1.memory cr3
        (add64 tostart o) = Machine.mappedEntry (add64 start o) readonly kernel) ∧
      ∀ page, (∀ o ∈ offsets, ¬ SamePage page (add64 tostart o)) →
        leafEntry (run (Machine.mapPage start tostart false readonly kernel cr3) (m, none) offsets).1.memory cr3 page =
          leafEntry m.memory cr3 page := by
  induction offsets generalizing m with
  | nil => exact ⟨by simp, fun _ _ => rfl⟩
  | cons o rest ih =>
    rw [List.pairwise_cons] at hapart
    rcases h.mapPage hcr3 (hout o List.mem_cons_self) start readonly kernel with
      ⟨m', hround⟩ | ⟨m', hround, htree, hround'⟩
    · have hstopped : run (Machine.mapPage start tostart false readonly kernel cr3) (m, none) (o :: rest) =
          (m', some (.failed o)) := by
        change run _ (Machine.mapPage start tostart false readonly kernel cr3 (m, none) o) rest = _
        rw [hround, Machine.mapPages_stopped]
      rw [hstopped] at hdone
      exact absurd hdone (by simp)
    · have hrun : run (Machine.mapPage start tostart false readonly kernel cr3) (m, none) (o :: rest) =
          run (Machine.mapPage start tostart false readonly kernel cr3) (m', none) rest := by
        change run _ (Machine.mapPage start tostart false readonly kernel cr3 (m, none) o) rest = _
        rw [hround]
      rw [hrun] at hdone ⊢
      obtain ⟨hwritten, hkept⟩ := ih htree (fun o' ho' => hout o' (List.mem_cons_of_mem o ho')) hapart.2 hdone
      constructor
      · intro o' ho'
        rcases List.mem_cons.mp ho' with rfl | ho'
        · rw [hkept _ hapart.1]
          exact (hround' _).1 rfl
        · exact hwritten o' ho'
      · intro page hpage
        rw [hkept page fun o' ho' => hpage o' (List.mem_cons_of_mem o ho')]
        exact (hround' page).2 (hpage o List.mem_cons_self)

/-- A finished `map_range` of physical memory to user pages wrote the entry of each of them, and no other. -/
theorem TableTree.mapRange (h : TableTree roots m) (hcr3 : align cr3 ∈ roots) {start endAddr : ℕ}
    (readonly kernel : Bool) (hle : start ≤ endAddr) (hend : endAddr ≤ 2 ^ 50) (hmultiple : endAddr % 0x1000 = 0) (hstart : tostart % 0x1000 = 0)
    (hhigh : tostart + (endAddr - align start) ≤ userEnd)
    (hdone : (m.mapRange start endAddr tostart false readonly kernel cr3).1.value = some true) :
    (∀ i, start + 0x1000 * i < endAddr →
        leafEntry (m.mapRange start endAddr tostart false readonly kernel cr3).2.memory cr3 (tostart + 0x1000 * i) =
          Machine.mappedEntry (start + 0x1000 * i) readonly kernel) ∧
      ∀ va < 2 ^ 48, ¬ (tostart ≤ va ∧ va < tostart + (endAddr - align start)) →
        leafEntry (m.mapRange start endAddr tostart false readonly kernel cr3).2.memory cr3 va =
          leafEntry m.memory cr3 va := by
  have huser : userEnd = 2 ^ 47 := rfl
  have hpage := align_le start
  have hmod := align_mod start
  have hoffset {o : ℕ} (ho : o ∈ pageRange 0 (sub64 endAddr start)) :
      ∃ i, o = 0x1000 * i ∧ start + o < endAddr ∧ add64 tostart o = tostart + o ∧ add64 start o = start + o := by
    rw [sub64_of_le hle] at ho
    obtain ⟨i, rfl, hlt⟩ := mem_pageRange.mp ho
    exact ⟨i, by omega, by omega, add64_of_lt (by omega), add64_of_lt (by omega)⟩
  have hout : ∀ o ∈ pageRange 0 (sub64 endAddr start), pmlIndex (add64 tostart o) ≠ 510 := by
    intro o ho
    obtain ⟨i, rfl, hlt, hto, -⟩ := hoffset ho
    rw [hto]
    exact pmlIndex_user (by omega)
  have hapart : (pageRange 0 (sub64 endAddr start)).Pairwise
      fun o o' => ¬ SamePage (add64 tostart o) (add64 tostart o') := by
    have hnodup : (pageRange 0 (sub64 endAddr start)).Nodup :=
      List.nodup_range.map fun i j hij => by omega
    refine hnodup.imp_of_mem fun {o o'} ho ho' hne hsame => hne ?_
    obtain ⟨i, rfl, hlt, hto, -⟩ := hoffset ho
    obtain ⟨j, rfl, hlt', hto', -⟩ := hoffset ho'
    rw [hto, hto'] at hsame
    unfold SamePage at hsame
    omega
  have hlocked : TableTree roots (m.lock .tlb) := h.same rfl rfl
  have hmaps := hlocked.mapPages hcr3 start readonly kernel hout hapart
  unfold Machine.mapRange at hdone ⊢
  dsimp only at hdone ⊢
  generalize run (Machine.mapPage start tostart false readonly kernel cr3) (m.lock .tlb, none)
    (pageRange 0 (sub64 endAddr start)) = st at hmaps hdone
  obtain ⟨m', stop⟩ := st
  cases stop with
  | some stop => cases stop <;> exact absurd hdone (by simp)
  | none =>
    obtain ⟨hwritten, hkept⟩ := hmaps rfl
    refine ⟨fun i hi => ?_, fun va hva houtside => ?_⟩
    · have hmem : 0x1000 * i ∈ pageRange 0 (sub64 endAddr start) := by
        rw [sub64_of_le hle]
        exact mem_pageRange.mpr ⟨i, by omega, by omega⟩
      obtain ⟨-, -, -, hto, hfrom⟩ := hoffset hmem
      have hentry := hwritten _ hmem
      rw [hto, hfrom] at hentry
      exact hentry
    · refine hkept va fun o ho hsame => houtside ?_
      obtain ⟨i, rfl, hlt, hto, -⟩ := hoffset ho
      rw [hto] at hsame
      unfold SamePage at hsame
      omega

end MapPages

/-- What a mapping of the physical bytes from `p` to `e` at `address` promises: they are seen there, the
address agrees with `p` within the page, and the area that was inserted holds every page used. -/
structure MapsPhysical (ps : ProcessSpace) (pml4 p e : ℕ) (readonly : Bool) (address : ℕ) (area : MmapArea)
    (space : ProcessSpace) : Prop where
  offset : address % 0x1000 = p % 0x1000
  inserted : ∃ before after, ps.areas = before ++ after ∧ space.areas = before ++ area :: after
  first : area.vastart ≤ address
  last : address + (e - p) ≤ area.vaend
  seen : ∀ k < e - p, ∀ entry, entry = leafEntry space.machine.memory pml4 (address + k) →
    present entry = true ∧ bit entry 2 = true ∧ (bit entry 1 = true ↔ readonly = false) ∧
      frameOf entry + (address + k) % 0x1000 = p + k
  others : ∀ va < 2 ^ 48, ¬ (area.vastart ≤ va ∧ va < area.vaend) →
    leafEntry space.machine.memory pml4 va = leafEntry ps.machine.memory pml4 va

section Bounds

variable {areas : List MmapArea} {p e random : ℕ}

/-- The bounds of the area for a physical range below `2 ^ 50`. -/
theorem physicalArea_bounds (hpe : p ≤ e) (he : e ≤ 2 ^ 50) (harea : (physicalArea areas p e random).InBounds) :
    (physicalArea areas p e random).vastart % 0x1000 = 0 ∧
      alignUp e 0x1000 + (physicalArea areas p e random).vastart =
        (physicalArea areas p e random).vaend + align p ∧
      e ≤ alignUp e 0x1000 ∧ alignUp e 0x1000 ≤ 2 ^ 50 ∧ alignUp e 0x1000 % 0x1000 = 0 := by
  have hup : e ≤ alignUp e 0x1000 ∧ alignUp e 0x1000 ≤ 2 ^ 50 ∧ alignUp e 0x1000 % 0x1000 = 0 := by
    unfold alignUp alignDown add64
    split <;> omega
  have hstart : (physicalArea areas p e random).vastart % 0x1000 = 0 :=
    heapArea_aligned areas (physicalSize p e) random
  have hend : (physicalArea areas p e random).vaend =
      add64 (physicalArea areas p e random).vastart (physicalSize p e) :=
    heapArea_end areas (physicalSize p e) random
  obtain ⟨-, horder, hhigh⟩ := harea
  have huser : userEnd = 2 ^ 47 := rfl
  have hdown : alignDown p 0x1000 = align p := by
    unfold alignDown align
    omega
  have hpage := align_le p
  have hsize : physicalSize p e = alignUp e 0x1000 - align p := by
    unfold physicalSize
    rw [hdown, sub64_of_le (by omega)]
  rw [hsize, add64_of_lt (by omega)] at hend
  exact ⟨hstart, by omega, hup⟩

end Bounds

/-- A mapping that returns an address maps the requested bytes there. -/
theorem mapPhysicalVirtual_maps (roots : Finset ℕ) (ps : ProcessSpace) (pml4 p e : ℕ) (readonly : Bool)
    (random address : ℕ) (htree : TableTree roots ps.machine) (hpml4 : align pml4 ∈ roots) (hpe : p ≤ e)
    (he : e ≤ 2 ^ 50) (hplaced : (physicalArea ps.areas p e random).InBounds)
    (hreturned : (ps.mapPhysicalVirtual pml4 p e readonly random).address = some address) (hne : address ≠ 0) :
    MapsPhysical ps pml4 p e readonly address (physicalArea ps.areas p e random)
      (ps.mapPhysicalVirtual pml4 p e readonly random).space := by
  obtain ⟨hstart, hsize, hup, hupper, hmultiple⟩ := physicalArea_bounds hpe he hplaced
  obtain ⟨-, horder, hhigh⟩ := hplaced
  have huser : userEnd = 2 ^ 47 := rfl
  have hpage := align_le p
  have hsplit := (selectHole_split ps.areas (physicalSize p e) 0x1000).1
  unfold ProcessSpace.mapPhysicalVirtual at hreturned ⊢
  dsimp only at hreturned ⊢
  generalize physicalArea ps.areas p e random = area at *
  generalize alignUp e 0x1000 = top at *
  have hrange := htree.mapRange hpml4 readonly false (hpe.trans hup) hupper hmultiple hstart (by omega)
  generalize ps.machine.mapRange p top area.vastart false readonly false pml4 = r at *
  rcases hvalue : r.1.value with _ | _ | _
  · rw [hvalue] at hreturned
    exact absurd hreturned (by simp)
  · rw [hvalue] at hreturned
    exact absurd (Option.some.inj hreturned).symm hne
  · obtain ⟨hwritten, hkept⟩ := hrange hvalue
    rw [hvalue] at hreturned
    obtain rfl : address = area.vastart + p % 0x1000 := by
      rw [← Option.some.inj hreturned, add64_of_lt (by omega)]
    refine ⟨by omega, ⟨_, _, hsplit, rfl⟩, by omega, by unfold align at hsize; omega, fun k hk entry hentry => ?_,
      fun va hva hout => hkept va hva (by omega)⟩
    have hslot := hwritten ((p % 0x1000 + k) / 0x1000) (by omega)
    have hsame : SamePage (area.vastart + p % 0x1000 + k) (area.vastart + 0x1000 * ((p % 0x1000 + k) / 0x1000)) := by
      unfold SamePage
      omega
    rw [hsame.leafEntry_eq, hslot] at hentry
    obtain ⟨hpresent, huser, hwritable⟩ := mappedEntry_bits (p + 0x1000 * ((p % 0x1000 + k) / 0x1000)) readonly false
    rw [hentry, frameOf_mappedEntry, frameOf_of_lt (by omega), huser, hwritable]
    refine ⟨hpresent, rfl, by simp, ?_⟩
    unfold align
    omega

/-- The mapping of two bytes on two pages, in an empty address space without areas. -/
theorem mapPhysicalVirtual_maps_two :
    (physicalArea [] 0xFD0FFF 0xFD1001 0).InBounds ∧
      MapsPhysical ⟨blankMachine, []⟩ 0x100000 0xFD0FFF 0xFD1001 true 0x1FFF (physicalArea [] 0xFD0FFF 0xFD1001 0)
        (ProcessSpace.mapPhysicalVirtual ⟨blankMachine, []⟩ 0x100000 0xFD0FFF 0xFD1001 true 0).space := by
  have hplaced : (physicalArea [] 0xFD0FFF 0xFD1001 0).InBounds := by decide
  have hreturned : (ProcessSpace.mapPhysicalVirtual ⟨blankMachine, []⟩ 0x100000 0xFD0FFF 0xFD1001 true 0).address =
      some 0x1FFF := by decide +kernel
  exact ⟨hplaced, mapPhysicalVirtual_maps {0x100000} ⟨blankMachine, []⟩ 0x100000 0xFD0FFF 0xFD1001 true 0 0x1FFF
    blankMachine_tableTree (Finset.mem_singleton_self _) (by decide) (by decide) hplaced hreturned (by decide)⟩

end Cthulhu
