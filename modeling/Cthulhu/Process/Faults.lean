import Cthulhu.Memory.ReferenceRuns
import Cthulhu.Process.RoundTrip

/-!
# Page faults

What the handler of page faults owes in every reachable state: a fault on a page that is not
present is answered with a fresh writable user page, always so for a page reserved on demand
while frames remain; a write fault on a present page is answered with the same bytes, writable;
and a fault that is not answered, or finds no frame, changes nothing.

The handler answers every fault on a page reserved on demand, also when `allocate_mem` could not
finish: the branch for that case holds a note and falls through to `return true`.
-/

namespace Cthulhu

open Lib

/-- The page of the address is present, writable and user-accessible in `m'`, and its frame was
free in `m`. -/
def MapsFresh (m m' : Machine) (address : ℕ) : Prop :=
  present (leafEntry m'.memory m.activePage address) = true ∧
    bit (leafEntry m'.memory m.activePage address) 1 = true ∧
    bit (leafEntry m'.memory m.activePage address) 2 = true ∧
    frameOf (leafEntry m'.memory m.activePage address) ∈ freeFrames m.framePool

/-- The page of the address is writable in `m'` and shows the bytes it showed in `m`. -/
def ShowsSame (m m' : Machine) (address : ℕ) : Prop :=
  bit (leafEntry m'.memory m.activePage address) 1 = true ∧
    m'.memory (frameOf (leafEntry m'.memory m.activePage address)) =
      m.memory (frameOf (leafEntry m.memory m.activePage address))

/-- What the handler owes for one fault. -/
structure FaultHandled (m : Machine) (address errcode : ℕ) (stale : ℕ → ℕ) : Prop where
  answered : bit errcode 0 = false → (m.pageFault address errcode stale).1 = some true →
    MapsFresh m (m.pageFault address errcode stale).2 address
  served : bit errcode 0 = false → Marked m.activePage m address → freeFrames m.framePool ≠ [] →
    (m.pageFault address errcode stale).1 = some true
  written : bit errcode 0 = true → bit errcode 1 = true → (m.pageFault address errcode stale).1 = some true →
    ShowsSame m (m.pageFault address errcode stale).2 address
  unchanged : (m.pageFault address errcode stale).1 = some false ∨ freeFrames m.framePool = [] →
    (m.pageFault address errcode stale).2.memory = m.memory ∧
      (m.pageFault address errcode stale).2.framePool = m.framePool

/-- What the processor promises of a fault: it is outside the mirror, and the error code says
whether the page is present. -/
def Faults (st : AddressSpaces) (address errcode : ℕ) : Prop :=
  align st.machine.activePage ∈ st.roots ∧ pmlIndex address ≠ 510 ∧ address < 2 ^ 64 ∧
    bit errcode 0 = present (st.machine.pageEntry address st.machine.activePage)

section Demand

variable {roots : Finset ℕ} {m : Machine} {address : ℕ}

/-- A fault asks for its own page, except on the last page, where the end of the request wraps. -/
theorem Machine.demandRequest_allocatePages (haddress : address < 2 ^ 64) :
    Machine.allocatePages (Machine.demandRequest address).start (Machine.demandRequest address).amount =
      if align address + 0x1000 < 2 ^ 64 then [align address] else [] := by
  have hbound := align_le address
  have hmod := align_mod address
  have hsize : pageAlignUp (add64 0x1000 0) = 0x1000 := by decide
  unfold Machine.allocatePages Machine.demandRequest pageRange
  simp only [align_align, Nat.sub_self, hsize]
  split
  next hbelow =>
    rw [add64_of_lt hbelow, Nat.add_sub_cancel_left]
    rfl
  next hlast =>
    have hlimit : add64 (align address) 0x1000 = 0 := by
      unfold add64
      omega
    rw [hlimit, Nat.zero_sub]
    rfl

/-- The machine `allocate_mem` leaves is the one its rounds leave. -/
theorem Machine.allocateMem_machine (m : Machine) (ainfo : AllocInfo) (kernel readonly : Bool) (cr3 : ℕ)
    (stale : ℕ → ℕ) : (m.allocateMem ainfo kernel readonly cr3 stale).2 =
      (run (Machine.allocateMemPage kernel readonly cr3 stale) ((ainfo.aligned, m), false)
        (Machine.allocatePages ainfo.start ainfo.amount)).1.2 := by
  unfold Machine.allocateMem
  dsimp only
  split <;> rfl

/-- The flags of a page that is neither the kernel's nor read-only. -/
theorem bit_pageFlags_user (f : ℕ) (exec : Bool) :
    bit (Machine.pageFlags f false false exec) 1 = true ∧ bit (Machine.pageFlags f false false exec) 2 = true := by
  unfold Machine.pageFlags
  rw [bit_setBit_of_ne _ _ (by decide), bit_setBit_of_ne _ _ (by decide), bit_setBit_self,
    bit_setBit_of_ne _ _ (by decide), bit_setBit_self]
  exact ⟨rfl, rfl⟩

/-- A fault on a page reserved on demand maps a fresh frame, or finds none and changes nothing. -/
theorem Counted.demandFault (h : Counted roots m) (hactive : align m.activePage ∈ roots)
    (hmarked : Marked m.activePage m address) (hbelow : align address + 0x1000 < 2 ^ 64) (stale : ℕ → ℕ) :
    (freeFrames m.framePool = [] ∧
        (m.allocateMem (Machine.demandRequest address) false false m.activePage stale).2.memory = m.memory ∧
        (m.allocateMem (Machine.demandRequest address) false false m.activePage stale).2.framePool = m.framePool) ∨
      (freeFrames m.framePool ≠ [] ∧
        MapsFresh m (m.allocateMem (Machine.demandRequest address) false false m.activePage stale).2 address) := by
  obtain ⟨habsent, hvalid, -⟩ := hmarked
  obtain ⟨pt, hwalk⟩ : ∃ pt, paging.walk m.memory 0 (align m.activePage) (indices address) = some pt := by
    refine Option.ne_none_iff_exists'.mp fun hnone => ?_
    rw [leafEntry_of_none hnone] at hvalid
    exact absurd hvalid (by decide)
  obtain ⟨hindices, htable⟩ := (indices_eq_iff address (align address)).mpr (by unfold align; omega)
  have hround : (m.allocateMem (Machine.demandRequest address) false false m.activePage stale).2 =
      (Machine.allocateMemPage false false m.activePage stale
        (((Machine.demandRequest address).aligned, m), false) (align address)).1.2 := by
    rw [Machine.allocateMem_machine, Machine.demandRequest_allocatePages (by have := align_le address; omega),
      if_pos hbelow]
    rfl
  have hlocked : Counted roots (m.lock .frame) := h.same rfl rfl
  have hslot : LeafSlot roots (m.lock .frame) ⟨pt, tableIndex address⟩ :=
    ⟨Links.walk_mem (show align m.activePage ∈ paging.tables m.memory roots 0 from hactive) (indices_mem address)
      hwalk, tableIndex_lt address⟩
  have hpage : (m.lock .frame).getPage (align address) m.activePage true true =
      (some ⟨pt, tableIndex address⟩, m.lock .frame) := by
    rw [← htable]
    exact Machine.getPage_of_walk (by rw [hindices]; exact hwalk) true true
  rw [leafEntry_of_some hwalk] at habsent
  rw [hround]
  unfold Machine.allocateMemPage
  simp only [Bool.false_eq_true, if_false, Bool.not_false, hpage, Machine.demandRequest, AllocInfo.aligned]
  cases hlocked.growable.frameGiven hlocked.below hslot false false false with
  | rewritten hpresent _ _ =>
    change present (m.memory pt (tableIndex address)) = true at hpresent
    rw [habsent] at hpresent
    cases hpresent
  | exhausted _ hnone hentry hm =>
    rw [if_pos hentry, hm]
    exact Or.inl ⟨hnone, rfl, rfl⟩
  | fresh f filled _ hf hne hoff hentry hmem hpool hactive' =>
    obtain ⟨hframe, -, -, -, hfree, -⟩ := hlocked.pool.taken hf hne
    have hfree' : freeFrames m.framePool = f :: freeFrames (getFreeFrame m.framePool).2 := hfree
    have hnot := (hlocked.growable.fresh hf hne).2
    rw [if_neg hentry]
    refine Or.inr ⟨by rw [hfree']; exact List.cons_ne_nil _ _, ?_⟩
    -- the flag of an execute-disabled page does not matter here
    generalize (if bit ((m.lock .frame).load ⟨pt, tableIndex address⟩) 1 &&
      bit ((m.lock .frame).load ⟨pt, tableIndex address⟩) 3 then
      bit ((m.lock .frame).load ⟨pt, tableIndex address⟩) 4 else false) = exec at hmem
    have hseen := hlocked.growable.leafEntry_store hslot (fun l hl T hT => hoff T fun heq => hnot ⟨l, hl, heq ▸ hT⟩)
      (Machine.pageFlags f false false exec) hactive address
    rw [if_pos ⟨hwalk, rfl⟩, ← hmem] at hseen
    unfold MapsFresh
    dsimp only [Machine.unlock]
    rw [hseen]
    refine ⟨present_pageFlags _ _ _ _, (bit_pageFlags_user _ _).1, (bit_pageFlags_user _ _).2, ?_⟩
    rw [frameOf_pageFlags, frameOf_of_lt (hlocked.frame_lt hframe), align_of_mod (hlocked.pool.frame_aligned hframe).1,
      hfree']
    exact List.mem_cons_self

/-- Without a free frame, or on the last page, a page reserved on demand stays as it is. -/
theorem Counted.demandFault_unserved (h : Counted roots m) (hactive : align m.activePage ∈ roots)
    (haddress : address < 2 ^ 64) (hmarked : Marked m.activePage m address)
    (hnot : ¬ (freeFrames m.framePool ≠ [] ∧ align address + 0x1000 < 2 ^ 64)) (stale : ℕ → ℕ) :
    (m.allocateMem (Machine.demandRequest address) false false m.activePage stale).2.memory = m.memory := by
  by_cases hbelow : align address + 0x1000 < 2 ^ 64
  · rcases h.demandFault hactive hmarked hbelow stale with ⟨-, hmem, -⟩ | ⟨hfree, -⟩
    · exact hmem
    · exact absurd ⟨hfree, hbelow⟩ hnot
  · rw [Machine.allocateMem_machine, Machine.demandRequest_allocatePages haddress, if_neg hbelow]
    rfl

end Demand

section Handled

variable {roots : Finset ℕ} {m : Machine} {address errcode : ℕ}

/-- A fault is handled when it is on a present page, or on one that is not reserved on demand. -/
theorem Counted.handled_of_refused (stale : ℕ → ℕ) (hresult : (m.pageFault address errcode stale).1 = some false)
    (hmem : (m.pageFault address errcode stale).2.memory = m.memory)
    (hpool : (m.pageFault address errcode stale).2.framePool = m.framePool)
    (hmarked : bit errcode 0 = false → ¬ Marked m.activePage m address) : FaultHandled m address errcode stale where
  answered := fun _ htrue => by rw [hresult] at htrue; cases htrue
  served := fun herr hmark => absurd hmark (hmarked herr)
  written := fun _ _ htrue => by rw [hresult] at htrue; cases htrue
  unchanged := fun _ => ⟨hmem, hpool⟩

/-- A fault is handled except when it is on a page reserved on demand and no frame is free, or that
page is the last one of the address space. -/
theorem Counted.faultHandled_iff (h : Counted roots m) (hactive : align m.activePage ∈ roots)
    (hva : pmlIndex address ≠ 510) (haddress : address < 2 ^ 64)
    (herrcode : bit errcode 0 = present (m.pageEntry address m.activePage)) (stale : ℕ → ℕ) :
    FaultHandled m address errcode stale ↔
      (Marked m.activePage m address → freeFrames m.framePool ≠ [] ∧ align address + 0x1000 < 2 ^ 64) := by
  rw [m.pageEntry_eq m.activePage hva] at herrcode
  cases herr : bit errcode 0 with
  | true =>
    have hpresent : present (leafEntry m.memory m.activePage address) = true := by rw [← herrcode, herr]
    have hmarked : ¬ Marked m.activePage m address := fun hmark => by
      rw [hmark.1] at hpresent
      cases hpresent
    obtain ⟨hresult, hmem, hpool⟩ := h.pageFault_refused hactive hva stale herr
      (by rw [m.pageEntry_eq m.activePage hva]; exact hpresent)
    exact ⟨fun _ hmark => absurd hmark hmarked,
      fun _ => Counted.handled_of_refused stale hresult hmem hpool fun _ => hmarked⟩
  | false =>
    have habsent : present (leafEntry m.memory m.activePage address) = false := by rw [← herrcode, herr]
    have hfault := m.pageFault_absent hva stale herr
    by_cases hmarked : Marked m.activePage m address
    · have hbits : (bit (leafEntry m.memory m.activePage address) 1 &&
          bit (leafEntry m.memory m.activePage address) 3) = true := by
        rw [hmarked.2.1, hmarked.2.2]
        rfl
      rw [if_pos hbits] at hfault
      constructor
      · intro hhandled _
        obtain ⟨hpresent, -⟩ := hhandled.answered herr (by rw [hfault])
        by_contra hcondition
        rw [hfault, h.demandFault_unserved hactive haddress hmarked hcondition stale, habsent] at hpresent
        cases hpresent
      · intro hcondition
        obtain ⟨hfree, hbelow⟩ := hcondition hmarked
        rcases h.demandFault hactive hmarked hbelow stale with ⟨hnone, -⟩ | ⟨-, hfresh⟩
        · exact absurd hnone hfree
        · exact {
            answered := fun _ _ => by rw [hfault]; exact hfresh
            served := fun _ _ _ => by rw [hfault]
            written := fun htrue _ _ => by rw [herr] at htrue; cases htrue
            unchanged := fun hor => by
              rcases hor with hfalse | hnone
              · rw [hfault] at hfalse
                cases hfalse
              · exact absurd hnone hfree }
    · have hbits : ¬ (bit (leafEntry m.memory m.activePage address) 1 &&
          bit (leafEntry m.memory m.activePage address) 3) = true := by
        rw [Bool.and_eq_true]
        exact fun hboth => hmarked ⟨habsent, hboth⟩
      rw [if_neg hbits] at hfault
      refine ⟨fun _ hmark => absurd hmark hmarked, fun _ => ?_⟩
      exact Counted.handled_of_refused stale (by rw [hfault]) (by rw [hfault]) (by rw [hfault]) fun _ => hmarked

end Handled

/-- In every run from boot whose calls are all safe, a fault is handled exactly when its page is not
reserved on demand, or a frame is free and the page is not the last one of the address space. -/
theorem faultHandled_run_iff (regions : List Region) (st : AddressSpaces) (hboot : st.Booted regions)
    (ops : List PagingOp) (hops : Guarded AddressSpaces.step (fun st op => st.Callable op ∧ st.Safe op) st ops)
    (address errcode : ℕ) (stale : ℕ → ℕ) (hfault : Faults (run AddressSpaces.step st ops) address errcode) :
    FaultHandled (run AddressSpaces.step st ops).machine address errcode stale ↔
      (Marked (run AddressSpaces.step st ops).machine.activePage (run AddressSpaces.step st ops).machine address →
        freeFrames (run AddressSpaces.step st ops).machine.framePool ≠ [] ∧ align address + 0x1000 < 2 ^ 64) := by
  have hcounted := hops.invariant (fun st => Counted st.roots st.machine)
    (fun st op h hguard => AddressSpaces.step_counted h hguard.1 hguard.2) hboot.counted
  obtain ⟨hactive, hva, haddress, herrcode⟩ := hfault
  exact hcounted.faultHandled_iff hactive hva haddress herrcode stale

/-- One page is reserved on demand. -/
def reservingRun : List PagingOp :=
  [.allocateMem ⟨0x400000, 0x1000, false, false, true⟩ false false 0x100000 fun _ => 0]

/-- A page of the blank machine is reserved on demand, and the first access to it is handled. -/
theorem faultHandled_run_iff_reserved :
    FaultHandled (run AddressSpaces.step blankSpaces reservingRun).machine 0x400123 4 fun _ => 0 := by
  refine (faultHandled_run_iff [smallRegion] blankSpaces blankSpaces_booted reservingRun
    ⟨⟨⟨by decide, by decide⟩, ?_⟩, trivial⟩ 0x400123 4 (fun _ => 0) ⟨by decide +kernel, by decide, by decide, ?_⟩).mpr
    fun _ => ⟨?_, by decide⟩
  · have habsent : present (blankSpaces.machine.pageEntry 0x400000 0x100000) = false := by decide +kernel
    exact ⟨fun _ _ hpresent => absurd (hpresent.symm.trans habsent) (by decide), trivial⟩
  · decide +kernel
  · decide +kernel

/-- A page is reserved on demand, and the remaining frames are allocated. -/
def exhaustingRun : List PagingOp :=
  reservingRun ++ [.allocate 0x500000 0xB000 false false 0x100000]

/-- Reading the reserved page with the pool exhausted: the handler returns true, and the page is
still not present. -/
theorem pageFault_exhausted :
    blankSpaces.Booted [smallRegion] ∧
      Guarded AddressSpaces.step AddressSpaces.Callable blankSpaces exhaustingRun ∧
      Faults (run AddressSpaces.step blankSpaces exhaustingRun) 0x400000 4 ∧
      ¬ FaultHandled (run AddressSpaces.step blankSpaces exhaustingRun).machine 0x400000 4 fun _ => 0 := by
  refine ⟨blankSpaces_booted, ⟨⟨by decide, by decide⟩, ⟨by decide +kernel, by decide⟩, trivial⟩,
    ⟨by decide +kernel, by decide, by decide, by decide +kernel⟩, fun hhandled => ?_⟩
  have htrue : ((run AddressSpaces.step blankSpaces exhaustingRun).machine.pageFault 0x400000 4 fun _ => 0).1 =
      some true := by decide +kernel
  have habsent : present (leafEntry ((run AddressSpaces.step blankSpaces exhaustingRun).machine.pageFault 0x400000 4
      fun _ => 0).2.memory (run AddressSpaces.step blankSpaces exhaustingRun).machine.activePage 0x400000) = false := by
    decide +kernel
  have hpresent := (hhandled.answered (by decide) htrue).1
  rw [habsent] at hpresent
  cases hpresent

end Cthulhu
