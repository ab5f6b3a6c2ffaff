import Cthulhu.Loader.Acquire
import Cthulhu.Loader.Sections
import Cthulhu.Memory.ChangeType

/-!
# Write protection of loaded sections

`load_elf_stage_two` asks `mem_change_type` to make the sections without `SHF_WRITE` read-only. The
pages of these sections are present, and present pages are those that `mem_change_type` leaves alone.
-/

namespace Cthulhu

open Lib

/-- `sh_flags & SHF_WRITE`. -/
def Elf64Shdr.isWrite (sh : Elf64Shdr) : Bool := bit sh.shFlags 0

/-- The section is part of the process image. -/
def Elf64Shdr.isLoaded (sh : Elf64Shdr) : Bool := sh.shType ≠ shtNull && sh.isAlloc && sh.shAddr ≠ 0

/-- A byte of the section is on the page of the address. -/
def Elf64Shdr.Covers (sh : Elf64Shdr) (va : ℕ) : Prop := ∃ k < sh.shSize, add64 sh.shAddr k / 0x1000 = va / 0x1000

namespace Kernel

variable (s : Kernel) (base pml4 : ℕ)

/-- The section header with an index, in the image at `base`. -/
def sectionOf (i : ℕ) : Elf64Shdr := s.sectionAt base (s.elfHeader base) i

/-- One round of `load_elf_stage_two`; the flag says that the kernel faulted. -/
def protectSection (st : Machine × Bool) (i : ℕ) : Machine × Bool :=
  if st.2 then st
  else
    let sh := s.sectionOf base i
    if sh.shType = shtNull then st
    else if sh.isAlloc then
      if sh.shAddr ≠ 0 then
        if !sh.isWrite then
          let r := st.1.memChangeType sh.shAddr sh.shSize .rw false pml4
          (r.2, !r.1)
        else st
      else st
    else st

/-- `load_elf_stage_two`: the machine it leaves, and whether the kernel faulted. It writes no kernel
address, so that every round reads the headers of the image as they are at the call. -/
def loadElfStageTwo : Machine × Bool :=
  run (s.protectSection base pml4) (s.machine, false) (List.range (s.elfHeader base).shnum)

/-- The page has bytes of loaded sections, none of them writable. -/
def ReadOnlyPage (va : ℕ) : Prop :=
  (∃ i < (s.elfHeader base).shnum, (s.sectionOf base i).isLoaded = true ∧ (s.sectionOf base i).Covers va) ∧
    ∀ i < (s.elfHeader base).shnum, (s.sectionOf base i).isLoaded = true → (s.sectionOf base i).Covers va →
      (s.sectionOf base i).isWrite = false

/-- Every mapped page of read-only sections is mapped read-only in a machine. -/
def Protected (m : Machine) : Prop :=
  ∀ va, s.ReadOnlyPage base va → present (m.pageEntry va pml4) = true → bit (m.pageEntry va pml4) 1 = false

/-- The loaded sections lie outside the mirror of physical memory. -/
def SectionsOutside : Prop :=
  ∀ i < (s.elfHeader base).shnum, (s.sectionOf base i).isLoaded = true →
    Machine.OutsideMirror (s.sectionOf base i).shAddr (s.sectionOf base i).shSize

end Kernel

section Protect

variable {roots : Finset ℕ} {s : Kernel} {base pml4 : ℕ}

/-- A call of `mem_change_type` keeps the present entries. -/
theorem Growable.memChangeType {m : Machine} (h : Growable roots m) (hcr3 : align pml4 ∈ roots) {start amount : ℕ}
    (hout : Machine.OutsideMirror start amount) (changeType : Machine.ChangeType) (newValue : Bool) :
    KeepsPresent roots pml4 m (m.memChangeType start amount changeType newValue pml4).2 := by
  have hlocked : Growable roots (m.lock .tlb) := h.grow_same rfl rfl
  obtain ⟨hkeeps, -⟩ := hlocked.changePages changeType newValue hcr3 hout.pages
  unfold Machine.memChangeType
  unfold Machine.changePages at hkeeps
  dsimp only
  generalize run (Machine.changePage changeType newValue pml4) (m.lock .tlb, false)
    (pageRange start (add64 start (pageAlignUp amount))) = st at hkeeps
  obtain ⟨growable, hwalks, habsent, hentries⟩ := hkeeps
  split
  · exact ⟨growable, hwalks, habsent, hentries⟩
  · exact ⟨growable.grow_same rfl rfl, hwalks, habsent, hentries⟩

/-- The rounds of `load_elf_stage_two` keep the present entries. -/
theorem Growable.loadElfStageTwo (h : Growable roots s.machine) (hcr3 : align pml4 ∈ roots)
    (hout : s.SectionsOutside base) : KeepsPresent roots pml4 s.machine (s.loadElfStageTwo base pml4).1 := by
  have hmem : ∀ i ∈ List.range (s.elfHeader base).shnum, i < (s.elfHeader base).shnum := fun i => List.mem_range.mp
  refine ((Guarded.trivial (s.protectSection base pml4) (s.machine, false) _).and_mem hmem).invariant
    (fun st => KeepsPresent roots pml4 s.machine st.1) ?_ (.refl h)
  rintro ⟨a, stopped⟩ i hkeeps ⟨hi, -⟩
  unfold Kernel.protectSection
  split
  · exact hkeeps
  · dsimp only
    split
    · exact hkeeps
    next hnull =>
      split
      next halloc =>
        split
        next haddr =>
          split
          · have hloaded : (s.sectionOf base i).isLoaded = true := by
              unfold Elf64Shdr.isLoaded
              simp [hnull, halloc, haddr]
            exact hkeeps.trans (hkeeps.growable.memChangeType hcr3 (hout i hi hloaded) .rw false)
          · exact hkeeps
        · exact hkeeps
      · exact hkeeps

/-- Addresses of a page of a loaded section are outside the mirror. -/
theorem Kernel.ReadOnlyPage.outside (hout : s.SectionsOutside base) {va : ℕ} (h : s.ReadOnlyPage base va) :
    pmlIndex va ≠ 510 := by
  obtain ⟨⟨i, hi, hloaded, k, hk, hpage⟩, -⟩ := h
  have hindex := hout i hi hloaded k hk
  unfold pmlIndex at hindex ⊢
  omega

end Protect

/-- When `mem_change_type` has exactly its effect, and when the loader's write protection holds: the call
where there is nothing to change, and the protection where the pages were read-only before. -/
theorem memChangeType_exact_iff (roots : Finset ℕ) (s : Kernel) (cr3 : ℕ) (htables : Growable roots s.machine)
    (hcr3 : align cr3 ∈ roots) :
    (∀ start amount changeType newValue, Machine.OutsideMirror start amount →
      (s.machine.ChangesExactly start amount changeType newValue cr3 ↔
        s.machine.NothingToChange start amount changeType newValue cr3)) ∧
    ∀ base, s.SectionsOutside base →
      (s.Protected base cr3 (s.loadElfStageTwo base cr3).1 ↔ s.Protected base cr3 s.machine) := by
  refine ⟨fun start amount changeType newValue hout => ⟨fun hexact => hexact.nothing htables hcr3 hout, (·.exact)⟩,
    fun base hout => ?_⟩
  have hkeeps := htables.loadElfStageTwo hcr3 hout
  have hentry (m : Machine) {va : ℕ} (hva : s.ReadOnlyPage base va) : m.pageEntry va cr3 = leafEntry m.memory cr3 va :=
    m.pageEntry_eq cr3 (hva.outside hout)
  constructor
  · intro hprotected va hva hpresent
    have hbefore := hprotected va hva
    rw [hentry _ hva] at hpresent ⊢
    rw [hentry _ hva, hkeeps.entries va hpresent] at hbefore
    exact hbefore hpresent
  · intro hprotected va hva hpresent
    have hbefore := hprotected va hva
    rw [hentry _ hva, hkeeps.absent va] at hpresent
    rw [hentry _ hva, hkeeps.entries va hpresent]
    rw [hentry _ hva] at hbefore
    exact hbefore hpresent

/-- A machine with one page at `0x400000`, which is read-only as asked. -/
def onePageMachine (readonly : Bool) : Machine := (blankMachine.allocate 0x400000 0x1000 false readonly 0x100000).2

/-- Making a page read-only that is so already has exactly its effect. -/
theorem memChangeType_readOnly :
    (onePageMachine true).ChangesExactly 0x400000 1 .rw false 0x100000 := by
  have hready : Mappable {0x100000} blankMachine :=
    ⟨blankMachine_oneReference, by decide, fun s hs => by rw [List.mem_singleton.mp hs]; decide⟩
  have hspare : ∀ p ∈ rangePages 0x400000 0x1000, Spare {0x100000} 0x100000 blankMachine p := by
    intro p _
    left
    have hzero : leafEntry blankMachine.memory 0x100000 p = 0 := by
      unfold leafEntry
      split <;> rfl
    rw [hzero]
    decide
  have hacquired := hready.allocate_acquired (by decide) false true (by decide) (by decide) hspare (by decide +kernel)
  have hslot : ((onePageMachine true).getPage 0x400000 0x100000 false false).1 = some ⟨0x203000, 0⟩ := by decide +kernel
  have hentry : Machine.changedEntry ((onePageMachine true).memory 0x203000 0) .rw false =
      (onePageMachine true).memory 0x203000 0 := by decide +kernel
  have hout : Machine.OutsideMirror 0x400000 1 := by
    intro k hk
    obtain rfl : k = 0 := by omega
    decide
  refine ((memChangeType_exact_iff {0x100000} ⟨onePageMachine true, fun _ => 0⟩ 0x100000 hacquired.ready.growable
    (by decide)).1 0x400000 1 .rw false hout).mpr ⟨?_, ?_⟩
  · rintro table index ⟨-, k, hk, hpage⟩
    obtain rfl : k = 0 := by omega
    rw [show add64 0x400000 0 = 0x400000 by decide, hslot, Option.some.injEq, Slot.mk.injEq] at hpage
    obtain ⟨rfl, rfl⟩ := hpage
    exact hentry
  · intro a ha
    obtain rfl : a = 0x400000 := by
      rw [show Machine.changePages 0x400000 1 = [0x400000] by decide] at ha
      exact List.mem_singleton.mp ha
    exact ⟨_, hslot, Or.inr hentry⟩

/-- Making a mapped page read-only leaves it writable. -/
theorem memChangeType_leaves_writable :
    ¬ (onePageMachine false).ChangesExactly 0x400000 0x1000 .rw false 0x100000 := by
  rintro ⟨-, hwords⟩
  have hin : (onePageMachine false).InChange 0x400000 0x1000 0x100000 0x203000 0 :=
    ⟨by decide +kernel, 0, by decide, by decide +kernel⟩
  have hset := (hwords 0x203000 0).1 hin
  exact absurd hset (by decide +kernel)

end Cthulhu
