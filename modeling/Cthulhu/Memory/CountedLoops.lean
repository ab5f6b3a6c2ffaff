import Cthulhu.Memory.CountedOps

/-!
# Paging loops and use counts

The functions of the paging interface keep use counts and references in step, each under a
condition on the pages it goes through, stated in the state in which a page is reached.
-/

namespace Cthulhu

open Lib

section Release

variable {roots : Finset ℕ} {m : Machine} {cr3 : ℕ}

/-- Taking a lock does not change the entry seen. -/
theorem Machine.pageEntry_congr {m' : Machine} {va : ℕ} (hmem : m'.memory = m.memory) (hva : pmlIndex va ≠ 510) :
    m'.pageEntry va cr3 = m.pageEntry va cr3 := by
  rw [m.pageEntry_eq cr3 hva, m'.pageEntry_eq cr3 hva, hmem]

/-- One round of `deallocate` keeps the counts right. -/
theorem Counted.deallocatePage (h : Counted roots m) (hcr3 : align cr3 ∈ roots) {va : ℕ} (hva : pmlIndex va ≠ 510)
    (hsafe : ReleaseSafe cr3 m va) : Counted roots (Machine.deallocatePage cr3 m va) := by
  have hlocked : Counted roots (m.lock .frame) := h.same rfl rfl
  refine (hlocked.deallocateFrame hcr3 hva ?_).1.same rfl rfl
  unfold ReleaseSafe
  rw [Machine.pageEntry_congr (show (m.lock .frame).memory = m.memory from rfl) hva]
  exact hsafe

/-- Every page that `deallocate` reaches may be cleared. -/
def Machine.DeallocateSafe (m : Machine) (start amount cr3 : ℕ) : Prop :=
  Guarded (Machine.deallocatePage cr3) (ReleaseSafe cr3) (m.lock .tlb) (Machine.deallocatePages start amount)

/-- `deallocate` keeps the counts right. -/
theorem Counted.deallocate (h : Counted roots m) (hcr3 : align cr3 ∈ roots) {start amount : ℕ}
    (hout : ∀ a ∈ Machine.deallocatePages start amount, pmlIndex a ≠ 510)
    (hsafe : m.DeallocateSafe start amount cr3) : Counted roots (m.deallocate start amount cr3) := by
  unfold Machine.deallocate
  split
  · have hlocked : Counted roots (m.lock .tlb) := h.same rfl rfl
    have hrun := (hsafe.and_mem hout).invariant (Counted roots)
      (fun m a hm hguard => hm.deallocatePage hcr3 hguard.1 hguard.2) hlocked
    exact hrun.same rfl rfl
  · exact h

end Release

section Allocate

variable {roots : Finset ℕ} {m : Machine} {cr3 : ℕ}

/-- One round of `allocate` keeps the counts right, and stops only at its own page. -/
theorem Counted.allocatePage {st : Machine × Option ℕ} (h : Counted roots st.1) (hcr3 : align cr3 ∈ roots) {va : ℕ}
    (hva : pmlIndex va ≠ 510) (kernel readonly : Bool) :
    Counted roots (Machine.allocatePage kernel readonly cr3 st va).1 ∧
      ((Machine.allocatePage kernel readonly cr3 st va).2 = st.2 ∨
        (Machine.allocatePage kernel readonly cr3 st va).2 = some va) := by
  unfold Machine.allocatePage
  by_cases hstop : st.2 ≠ none
  · rw [if_pos hstop]
    exact ⟨h, Or.inl rfl⟩
  · rw [if_neg hstop]
    dsimp only
    have hlocked : Counted roots (st.1.lock .frame) := h.same rfl rfl
    obtain ⟨hwalked, -, hslot⟩ := hlocked.getPage hcr3 hva !kernel
    split
    next => exact ⟨hwalked, Or.inr rfl⟩
    next p hp =>
      have hframe := hwalked.allocateFrame (hslot p hp).1 kernel readonly false
      split
      · exact ⟨hframe, Or.inr rfl⟩
      · exact ⟨hframe.same rfl rfl, Or.inl (not_ne_iff.mp hstop).symm⟩

/-- A failing `allocate` gives back up to the page it failed at. -/
theorem Machine.deallocateEnd_of_page {start amount addr : ℕ} (haddr : addr ∈ Machine.allocatePages start amount) :
    Machine.deallocateEnd (align start) (addr - align start) = addr := by
  obtain ⟨i, hi, hlimit⟩ := mem_pageRange.mp haddr
  have hbound := add64_lt (align start) (pageAlignUp (add64 amount (start - align start)))
  have haligned := align_mod start
  unfold Machine.deallocateEnd
  simp only [align_align, haligned, ne_eq, not_true_eq_false, if_false]
  rw [add64_of_lt (by omega), show align start + (addr - align start) = addr by omega, if_neg (by omega)]

/-- The pages that a failing `allocate` gives back are pages of its own range. -/
theorem Machine.deallocatePages_subset {start amount addr : ℕ} (haddr : addr ∈ Machine.allocatePages start amount) :
    ∀ a ∈ Machine.deallocatePages (align start) (addr - align start), a ∈ Machine.allocatePages start amount := by
  obtain ⟨i, hi, hlimit⟩ := mem_pageRange.mp haddr
  unfold Machine.deallocatePages
  rw [Machine.deallocateEnd_of_page haddr, align_align]
  intro a ha
  obtain ⟨j, rfl, hj⟩ := mem_pageRange.mp ha
  exact mem_pageRange.mpr ⟨j, rfl, by omega⟩

/-- The pages that a failing `allocate` gives back may be cleared. -/
def Machine.AllocateSafe (m : Machine) (start amount : ℕ) (kernel readonly : Bool) (cr3 : ℕ) : Prop :=
  ∀ addr, (run (Machine.allocatePage kernel readonly cr3) (m, none)
      (Machine.allocatePages start amount)).2 = some addr →
    ((run (Machine.allocatePage kernel readonly cr3) (m, none)
      (Machine.allocatePages start amount)).1.unlock .frame).DeallocateSafe (align start) (addr - align start) cr3

/-- `allocate` keeps the counts right, also when it fails. -/
theorem Counted.allocate (h : Counted roots m) (hcr3 : align cr3 ∈ roots) {start amount : ℕ}
    {kernel readonly : Bool} (hout : ∀ a ∈ Machine.allocatePages start amount, pmlIndex a ≠ 510)
    (hsafe : m.AllocateSafe start amount kernel readonly cr3) :
    Counted roots (m.allocate start amount kernel readonly cr3).2 := by
  unfold Machine.AllocateSafe at hsafe
  have hrun := ((Guarded.trivial (Machine.allocatePage kernel readonly cr3) (m, none)
    (Machine.allocatePages start amount)).and_mem fun a ha => ha).invariant
    (fun st => Counted roots st.1 ∧ ∀ addr, st.2 = some addr → addr ∈ Machine.allocatePages start amount)
    (fun st a hst hguard => by
      obtain ⟨hcounted, hstop⟩ := hst.1.allocatePage hcr3 (hout a hguard.1) kernel readonly
      refine ⟨hcounted, fun addr haddr => ?_⟩
      rcases hstop with hsame | hhere
      · exact hst.2 addr (hsame ▸ haddr)
      · rw [hhere] at haddr
        exact Option.some.inj haddr ▸ hguard.1)
    ⟨h, fun addr haddr => absurd haddr (by simp)⟩
  unfold Machine.allocate
  dsimp only
  generalize run (Machine.allocatePage kernel readonly cr3) (m, none)
    (Machine.allocatePages start amount) = st at hrun hsafe ⊢
  split
  next => exact hrun.1
  next addr haddr =>
    have hunlocked : Counted roots (st.1.unlock .frame) := hrun.1.same rfl rfl
    refine hunlocked.deallocate hcr3 (fun a ha => ?_) (hsafe addr haddr)
    exact hout a (Machine.deallocatePages_subset (hrun.2 addr haddr) a ha)

/-- One round of `allocate_mem` keeps the counts right. -/
theorem Counted.allocateMemPage {st : (AllocInfo × Machine) × Bool} (h : Counted roots st.1.2)
    (hcr3 : align cr3 ∈ roots) {va : ℕ} (hva : pmlIndex va ≠ 510) (kernel readonly : Bool) (stale : ℕ → ℕ)
    (hsafe : st.2 = false → st.1.1.aod = true → OverwriteSafe cr3 st.1.2 va) :
    Counted roots (Machine.allocateMemPage kernel readonly cr3 stale st va).1.2 := by
  unfold Machine.allocateMemPage
  by_cases hstop : st.2 = true
  · rw [if_pos hstop]
    exact h
  · rw [if_neg hstop]
    dsimp only
    have hlocked : Counted roots (st.1.2.lock .frame) := h.same rfl rfl
    obtain ⟨hwalked, hgrown, hslot⟩ := hlocked.getPage hcr3 hva !kernel
    split
    next => exact hwalked.same rfl rfl
    next p hp =>
      obtain ⟨hleaf, hload⟩ := hslot p hp
      split
      next haod =>
        have hdrop := hsafe (Bool.eq_false_iff.mpr hstop) haod
        unfold OverwriteSafe at hdrop
        rw [Machine.pageEntry_eq _ cr3 hva] at hdrop
        refine (hwalked.dropUnmanaged hleaf.1 hleaf.2 (child_of_not_present (present_aodMarker _ _)) ?_).same rfl rfl
        intro g hg
        rw [hload, child_leaf] at hg
        split at hg
        next hpresent =>
          rw [← Option.some.inj hg]
          exact (unmanaged_congr (Grown.layout hgrown hlocked.growable) _).mpr (hdrop hpresent)
        next => exact absurd hg (by simp)
      next =>
        have hframe := hwalked.allocateFrame hleaf kernel readonly st.1.1.exec
        split
        · exact hframe.same rfl rfl
        · exact hframe.same rfl rfl

/-- Every page that `allocate_mem` reserves on demand may be overwritten. -/
def Machine.AllocateMemSafe (m : Machine) (ainfo : AllocInfo) (kernel readonly : Bool) (cr3 : ℕ)
    (stale : ℕ → ℕ) : Prop :=
  Guarded (Machine.allocateMemPage kernel readonly cr3 stale)
    (fun st va => st.2 = false → st.1.1.aod = true → OverwriteSafe cr3 st.1.2 va)
    (({ ainfo with
        start := align ainfo.start
        amount := pageAlignUp (add64 ainfo.amount (ainfo.start - align ainfo.start)) }, m), false)
    (Machine.allocatePages ainfo.start ainfo.amount)

/-- `allocate_mem` keeps the counts right. -/
theorem Counted.allocateMem (h : Counted roots m) (hcr3 : align cr3 ∈ roots) {ainfo : AllocInfo}
    {kernel readonly : Bool} {stale : ℕ → ℕ}
    (hout : ∀ a ∈ Machine.allocatePages ainfo.start ainfo.amount, pmlIndex a ≠ 510)
    (hsafe : m.AllocateMemSafe ainfo kernel readonly cr3 stale) :
    Counted roots (m.allocateMem ainfo kernel readonly cr3 stale).2 := by
  have hrun := (hsafe.and_mem hout).invariant (fun st => Counted roots st.1.2)
    (fun st a hst hguard => hst.allocateMemPage hcr3 hguard.1 kernel readonly stale hguard.2) h
  unfold Machine.allocateMem
  dsimp only
  split <;> exact hrun

end Allocate

end Cthulhu
