import Cthulhu.Memory.ChangeType
import Cthulhu.Memory.Isolation

/-!
# Isolation over runs

The calls of the paging interface on any number of address spaces, from boot on. Every call works within the
address space it is given: the user entries of all others stay as they are. And of two pages
that hold the same frame of the pool, neither is a user page.

The one call that shares frames on purpose is `map_range` from virtual memory. Only
`map_virtual_virtual` makes it, and nothing calls that.
-/

namespace Cthulhu

open Lib

section Pages

variable {side : ℕ → Prop} {roots : Finset ℕ} {m : Machine} {cr3 va : ℕ}

/-- The walk to an address ends in the slot of its entry. -/
theorem Isolated.getPage (h : Isolated side roots m) (hcr3 : align cr3 ∈ roots) (hva : pmlIndex va ≠ 510) (user : Bool) :
    Within side roots (align cr3) m (m.getPage va cr3 true user).2 ∧
      ∀ p, (m.getPage va cr3 true user).1 = some p → p.index = tableIndex va ∧
        paging.walk (m.getPage va cr3 true user).2.memory 0 (align cr3) (indices va) = some p.table := by
  obtain ⟨hgrown, hresult⟩ := h.counted.growable.getPage hcr3 hva user
  refine ⟨h.grown hgrown, fun p hp => ?_⟩
  rcases hresult with ⟨hnone, -⟩ | ⟨pt, hslot, hwalk⟩
  · rw [hnone] at hp
    exact absurd hp (by simp)
  · rw [hslot] at hp
    obtain rfl := Option.some.inj hp
    exact ⟨rfl, hwalk⟩

/-- The slot a walk ends in. -/
theorem leafSlot_of_place {p : Slot} (hcr3 : align cr3 ∈ roots) (hindex : p.index = tableIndex va)
    (hwalk : paging.walk m.memory 0 (align cr3) (indices va) = some p.table) : LeafSlot roots m p :=
  ⟨Links.walk_mem (show align cr3 ∈ paging.tables m.memory roots 0 from hcr3) (indices_mem va) hwalk,
    hindex ▸ tableIndex_lt va⟩

/-- Writing the entry of a page with right counts is not seen elsewhere. -/
theorem Isolated.storeSlot {p : Slot} {w : ℕ} (h : Isolated side roots m) (hcr3 : align cr3 ∈ roots)
    (hindex : p.index = tableIndex va) (hwalk : paging.walk m.memory 0 (align cr3) (indices va) = some p.table)
    (hcounted : Counted roots (m.store p w)) : Within side roots (align cr3) m (m.store p w) := by
  have hp := leafSlot_of_place hcr3 hindex hwalk
  exact ⟨h.storeLeaf hp hcounted, h.elsewhere_store hcr3 hwalk hp.2 (fun _ _ _ _ => rfl) rfl⟩

/-- `allocate_frame` for a page is not seen elsewhere. -/
theorem Isolated.allocateFrame {p : Slot} (h : Isolated side roots m) (hcr3 : align cr3 ∈ roots)
    (hindex : p.index = tableIndex va) (hwalk : paging.walk m.memory 0 (align cr3) (indices va) = some p.table)
    (kernel readonly exec : Bool) : Within side roots (align cr3) m (m.allocateFrame p kernel readonly exec).2 := by
  have hp := leafSlot_of_place hcr3 hindex hwalk
  have hgrowable := h.counted.growable
  have hcounted := h.counted.allocateFrame hp kernel readonly exec
  cases hgrowable.allocateFrame_mapping h.counted.below hp kernel readonly exec with
  | same hpool hmem => exact h.within hpool hmem
  | rewritten w hw hm =>
    rw [hm] at hcounted ⊢
    exact h.storeSlot hcr3 hindex hwalk hcounted
  | linked w f filled hold hw hf hne hoff hpool hmem =>
    have hnot := (hgrowable.fresh hf hne).2
    refine ⟨h.takeLink (by decide) hp.1 hp.2 hold hw hf hne hoff (fun hdepth => absurd hdepth (by decide)) hpool hmem,
      h.elsewhere_store hcr3 hwalk hp.2 (fun l hl T hT => hoff T ?_) hmem⟩
    rintro rfl
    exact hnot ⟨l, hl, hT⟩

/-- Where a table is missing, `free_page_structure` does nothing. -/
theorem Machine.freePageStructure_none (hva : pmlIndex va ≠ 510)
    (hwalk : paging.walk m.memory 0 (align cr3) (indices va) = none) : m.freePageStructure va cr3 = m := by
  unfold indices at hwalk
  unfold Machine.freePageStructure
  dsimp only
  cases hpresent₀ : present (m.load ⟨align cr3, pmlIndex va⟩) with
  | false => rfl
  | true =>
  have hlink₀ := child_upper (l := 0) (by decide) (fun hm => hva hm.2) hpresent₀
  rw [Links.walk_cons_some _ hlink₀] at hwalk
  generalize align (m.load ⟨align cr3, pmlIndex va⟩) = pdpt at *
  cases hpresent₁ : present (m.load ⟨pdpt, directoryPtrIndex va⟩) with
  | false => rfl
  | true =>
  have hlink₁ := child_upper (l := 1) (i := directoryPtrIndex va) (by decide) (fun hm => absurd hm.1 (by decide)) hpresent₁
  rw [Links.walk_cons_some _ hlink₁] at hwalk
  generalize align (m.load ⟨pdpt, directoryPtrIndex va⟩) = pdir at *
  cases hpresent₂ : present (m.load ⟨pdir, directoryIndex va⟩) with
  | false => rfl
  | true =>
  have hlink₂ := child_upper (l := 2) (i := directoryIndex va) (by decide) (fun hm => absurd hm.1 (by decide)) hpresent₂
  rw [Links.walk_cons_some _ hlink₂] at hwalk
  exact absurd hwalk (by simp [Links.walk])

/-- `free_page_structure` is not seen elsewhere. -/
theorem Isolated.freePageStructure (h : Isolated side roots m) (hcr3 : align cr3 ∈ roots) (hva : pmlIndex va ≠ 510)
    (hsafe : OverwriteSafe cr3 m va) : Within side roots (align cr3) m (m.freePageStructure va cr3) := by
  unfold OverwriteSafe at hsafe
  rw [m.pageEntry_eq cr3 hva] at hsafe
  obtain ⟨-, hdown⟩ := h.counted.freePageStructure hcr3 hva hsafe
  cases hwalk : paging.walk m.memory 0 (align cr3) (indices va) with
  | none =>
    have hsame : m.freePageStructure va cr3 = m := Machine.freePageStructure_none hva hwalk
    rw [hsame]
    exact h.within rfl rfl
  | some pt =>
    have hslot := leafSlot_of_place (p := ⟨pt, tableIndex va⟩) hcr3 rfl hwalk
    rw [leafEntry_of_some hwalk] at hsafe
    have hstored := h.storeSlot (p := ⟨pt, tableIndex va⟩) hcr3 rfl hwalk (h.counted.clearLeaf hslot hsafe).1
    have hwalk' := (h.counted.keepsAbove_store (by decide) hslot.1 0).walk_eq h.counted.leveled hslot.1 hcr3 va
    rw [hwalk] at hwalk'
    exact hstored.trans (hstored.isolated.cascade hcr3 hwalk' (hdown pt hwalk))

end Pages

section Loops

variable {side : ℕ → Prop} {roots : Finset ℕ} {m : Machine} {cr3 : ℕ}

/-- A round of `deallocate` is not seen elsewhere. -/
theorem Isolated.deallocatePage (h : Isolated side roots m) (hcr3 : align cr3 ∈ roots) {va : ℕ} (hva : pmlIndex va ≠ 510)
    (hsafe : ReleaseSafe cr3 m va) : Within side roots (align cr3) m (Machine.deallocatePage cr3 m va) := by
  have hlocked : Isolated side roots (m.lock .frame) := h.same rfl rfl
  have hremoval := (hlocked.counted.deallocateFrame hcr3 hva (by
    unfold ReleaseSafe
    rw [Machine.pageEntry_congr (show (m.lock .frame).memory = m.memory from rfl) hva]
    exact hsafe)).2
  have hremoved : Within side roots (align cr3) m (m.lock .frame) := h.within rfl rfl
  exact (hremoved.trans (hlocked.removal hcr3 hremoval)).same rfl rfl

/-- `deallocate` is not seen elsewhere. -/
theorem Isolated.deallocate (h : Isolated side roots m) (hcr3 : align cr3 ∈ roots) {start amount : ℕ}
    (hout : ∀ a ∈ Machine.deallocatePages start amount, pmlIndex a ≠ 510)
    (hsafe : m.DeallocateSafe start amount cr3) : Within side roots (align cr3) m (m.deallocate start amount cr3) := by
  unfold Machine.deallocate
  split
  · have hrun := (hsafe.and_mem hout).invariant (Within side roots (align cr3) m)
      (fun m' a hm hguard => hm.trans (hm.isolated.deallocatePage hcr3 hguard.1 hguard.2)) (h.within rfl rfl)
    exact hrun.same rfl rfl
  · exact h.within rfl rfl

/-- A round of `allocate` is not seen elsewhere, and stops only at its own page. -/
theorem Isolated.allocatePage {st : Machine × Option ℕ} (h : Isolated side roots st.1) (hcr3 : align cr3 ∈ roots) {va : ℕ}
    (hva : pmlIndex va ≠ 510) (kernel readonly : Bool) :
    Within side roots (align cr3) st.1 (Machine.allocatePage kernel readonly cr3 st va).1 := by
  unfold Machine.allocatePage
  split
  · exact h.within rfl rfl
  · dsimp only
    have hlocked : Within side roots (align cr3) st.1 (st.1.lock .frame) := h.within rfl rfl
    obtain ⟨hwalked, hslot⟩ := hlocked.isolated.getPage hcr3 hva !kernel
    have hwalked := hlocked.trans hwalked
    split
    next => exact hwalked
    next p hp =>
      obtain ⟨hindex, hwalk⟩ := hslot p hp
      have hframe := hwalked.trans (hwalked.isolated.allocateFrame hcr3 hindex hwalk kernel readonly false)
      split
      · exact hframe
      · exact hframe.same rfl rfl

/-- `allocate` is not seen elsewhere, also when it fails. -/
theorem Isolated.allocate (h : Isolated side roots m) (hcr3 : align cr3 ∈ roots) {start amount : ℕ}
    {kernel readonly : Bool} (hout : ∀ a ∈ Machine.allocatePages start amount, pmlIndex a ≠ 510)
    (hsafe : m.AllocateSafe start amount kernel readonly cr3) :
    Within side roots (align cr3) m (m.allocate start amount kernel readonly cr3).2 := by
  unfold Machine.AllocateSafe at hsafe
  have hrun := ((Guarded.trivial (Machine.allocatePage kernel readonly cr3) (m, none)
    (Machine.allocatePages start amount)).and_mem fun a ha => ha).invariant
    (fun st => Within side roots (align cr3) m st.1 ∧ ∀ addr, st.2 = some addr → addr ∈ Machine.allocatePages start amount)
    (fun st a hst hguard => by
      have hva := hout a hguard.1
      refine ⟨hst.1.trans (hst.1.isolated.allocatePage hcr3 hva kernel readonly), fun addr haddr => ?_⟩
      rcases (hst.1.isolated.counted.allocatePage hcr3 hva kernel readonly).2 with hsame | hhere
      · exact hst.2 addr (hsame ▸ haddr)
      · rw [hhere] at haddr
        exact Option.some.inj haddr ▸ hguard.1)
    ⟨h.within rfl rfl, fun addr haddr => absurd haddr (by simp)⟩
  unfold Machine.allocate
  dsimp only
  generalize run (Machine.allocatePage kernel readonly cr3) (m, none)
    (Machine.allocatePages start amount) = st at hrun hsafe ⊢
  split
  next => exact hrun.1
  next addr haddr =>
    have hunlocked : Within side roots (align cr3) m (st.1.unlock .frame) := hrun.1.same rfl rfl
    refine hunlocked.trans (hunlocked.isolated.deallocate hcr3 (fun a ha => ?_) (hsafe addr haddr))
    exact hout a (Machine.deallocatePages_subset (hrun.2 addr haddr) a ha)

/-- A round of `allocate_mem` is not seen elsewhere. -/
theorem Isolated.allocateMemPage {st : (AllocInfo × Machine) × Bool} (h : Isolated side roots st.1.2)
    (hcr3 : align cr3 ∈ roots) {va : ℕ} (hva : pmlIndex va ≠ 510) (kernel readonly : Bool) (stale : ℕ → ℕ)
    (hsafe : st.2 = false → st.1.1.aod = true → OverwriteSafe cr3 st.1.2 va) :
    Within side roots (align cr3) st.1.2 (Machine.allocateMemPage kernel readonly cr3 stale st va).1.2 := by
  have hcounted := h.counted.allocateMemPage hcr3 hva kernel readonly stale hsafe
  have hlocked : Within side roots (align cr3) st.1.2 (st.1.2.lock .frame) := h.within rfl rfl
  obtain ⟨hwalked, hslot⟩ := hlocked.isolated.getPage hcr3 hva !kernel
  have hwalked := hlocked.trans hwalked
  unfold Machine.allocateMemPage at hcounted ⊢
  by_cases hstop : st.2 = true
  · rw [if_pos hstop]
    exact h.within rfl rfl
  rw [if_neg hstop] at hcounted ⊢
  dsimp only at hcounted ⊢
  generalize (st.1.2.lock .frame).getPage va cr3 true (!kernel) = walked at *
  cases hp : walked.1 with
  | none => exact hwalked.same rfl rfl
  | some p =>
    obtain ⟨hindex, hwalk⟩ := hslot p hp
    rw [hp] at hcounted
    dsimp only at hcounted ⊢
    by_cases haod : st.1.1.aod = true
    · rw [if_pos haod] at hcounted ⊢
      have hmarked : Counted roots (walked.2.store p (aodMarker (stale va) st.1.1.exec)) := hcounted.same rfl rfl
      have hstored := hwalked.isolated.storeSlot hcr3 hindex hwalk hmarked
      exact (hwalked.trans hstored).same rfl rfl
    · rw [if_neg haod]
      have hframe := hwalked.trans (hwalked.isolated.allocateFrame hcr3 hindex hwalk kernel readonly st.1.1.exec)
      split
      · exact hframe.same rfl rfl
      · exact hframe.same rfl rfl

/-- `allocate_mem` is not seen elsewhere. -/
theorem Isolated.allocateMem (h : Isolated side roots m) (hcr3 : align cr3 ∈ roots) {ainfo : AllocInfo}
    {kernel readonly : Bool} {stale : ℕ → ℕ}
    (hout : ∀ a ∈ Machine.allocatePages ainfo.start ainfo.amount, pmlIndex a ≠ 510)
    (hsafe : m.AllocateMemSafe ainfo kernel readonly cr3 stale) :
    Within side roots (align cr3) m (m.allocateMem ainfo kernel readonly cr3 stale).2 := by
  have hrun := (hsafe.and_mem hout).invariant (fun st => Within side roots (align cr3) m st.1.2)
    (fun st a hst hguard => hst.trans (hst.isolated.allocateMemPage hcr3 hguard.1 kernel readonly stale hguard.2))
    (h.within rfl rfl)
  unfold Machine.allocateMem
  dsimp only
  split <;> exact hrun

/-- `page_fault` is not seen in another address space than the active one. -/
theorem Isolated.pageFault (h : Isolated side roots m) (hactive : align m.activePage ∈ roots) {address : ℕ}
    (hva : pmlIndex address ≠ 510) {errcode : ℕ} (stale : ℕ → ℕ)
    (hpresent : bit errcode 0 = true → present (m.pageEntry address m.activePage) = true) :
    Within side roots (align m.activePage) m (m.pageFault address errcode stale).2 := by
  cases herr : bit errcode 0 with
  | false =>
    rw [m.pageFault_absent hva stale herr]
    split
    · refine h.allocateMem hactive (fun a ha => ?_) (Machine.allocateMemSafe_of_not_aod rfl _ _ _ _)
      rw [Machine.demandRequest_pages address a ha, pmlIndex_align]
      exact hva
    · exact h.within rfl rfl
  | true =>
    obtain ⟨-, hmem, hpool⟩ := h.counted.pageFault_refused hactive hva stale herr (hpresent herr)
    exact h.within hpool hmem

/-- A round of `map_range` over physical memory is not seen elsewhere. -/
theorem Isolated.mapPage {st : Machine × Option Machine.MapStop} (h : Isolated side roots st.1) (hcr3 : align cr3 ∈ roots)
    {start tostart offs : ℕ} (readonly kernel : Bool) (htarget : pmlIndex (add64 tostart offs) ≠ 510)
    (hsafe : st.2 = none → MapSafe start tostart false cr3 st.1 offs) :
    Within side roots (align cr3) st.1 (Machine.mapPage start tostart false readonly kernel cr3 st offs).1 := by
  have hcounted := h.counted.mapPage hcr3 readonly kernel htarget (fun hfalse => absurd hfalse (by decide)) hsafe
  obtain ⟨hwalked, hslot⟩ := h.getPage hcr3 htarget !kernel
  unfold Machine.mapPage Machine.mapSource at hcounted ⊢
  by_cases hstop : st.2 ≠ none
  · rw [if_pos hstop]
    exact h.within rfl rfl
  rw [if_neg hstop] at hcounted ⊢
  dsimp only at hcounted ⊢
  generalize st.1.getPage (add64 tostart offs) cr3 true (!kernel) = target at *
  cases htp : target.1 with
  | none => exact hwalked
  | some tp =>
    obtain ⟨hindex, hwalk⟩ := hslot tp htp
    rw [htp] at hcounted
    simp only [Bool.false_eq_true, if_false] at hcounted ⊢
    exact hwalked.trans (hwalked.isolated.storeSlot hcr3 hindex hwalk hcounted)

/-- `map_range` over physical memory is not seen elsewhere. -/
theorem Isolated.mapRange (h : Isolated side roots m) (hcr3 : align cr3 ∈ roots) {start endAddr tostart : ℕ}
    {readonly kernel : Bool} (hout : ∀ offs ∈ pageRange 0 (sub64 endAddr start), pmlIndex (add64 tostart offs) ≠ 510)
    (hsafe : m.MapRangeSafe start endAddr tostart false readonly kernel cr3) :
    Within side roots (align cr3) m (m.mapRange start endAddr tostart false readonly kernel cr3).2 := by
  have hrun := (hsafe.and_mem hout).invariant (fun st => Within side roots (align cr3) m st.1)
    (fun st offs hst hguard => hst.trans (hst.isolated.mapPage hcr3 readonly kernel hguard.1 hguard.2))
    (show Within side roots (align cr3) m (m.lock .tlb) from h.within rfl rfl)
  unfold Machine.mapRange
  dsimp only
  split
  · exact hrun.same rfl rfl
  · exact hrun.same rfl rfl
  · exact hrun

/-- `allocate_physret` is not seen elsewhere. -/
theorem Isolated.allocatePhysret (h : Isolated side roots m) (hcr3 : align cr3 ∈ roots) {blockAddr : ℕ}
    (hva : pmlIndex blockAddr ≠ 510) (kernel rw exec : Bool) :
    Within side roots (align cr3) m (m.allocatePhysret blockAddr kernel rw exec cr3).2 := by
  obtain ⟨hwalked, hslot⟩ := h.getPage hcr3 hva false
  unfold Machine.allocatePhysret
  dsimp only
  split
  next => exact hwalked
  next p hp =>
    obtain ⟨hindex, hwalk⟩ := hslot p hp
    exact hwalked.trans (hwalked.isolated.allocateFrame hcr3 hindex hwalk kernel rw exec)

/-- A round of `mem_change_type` is not seen elsewhere. -/
theorem Isolated.changePage {st : Machine × Bool} (h : Isolated side roots st.1) (hcr3 : align cr3 ∈ roots) {va : ℕ}
    (hva : pmlIndex va ≠ 510) (changeType : Machine.ChangeType) (newValue : Bool) :
    Within side roots (align cr3) st.1 (Machine.changePage changeType newValue cr3 st va).1 := by
  obtain ⟨hwalked, hslot⟩ := h.getPage hcr3 hva false
  unfold Machine.changePage
  split
  · exact h.within rfl rfl
  dsimp only
  split
  next => exact hwalked
  next p hp =>
    obtain ⟨hindex, hwalk⟩ := hslot p hp
    split
    next habsent =>
      have hp := leafSlot_of_place hcr3 hindex hwalk
      refine hwalked.trans (hwalked.isolated.storeSlot hcr3 hindex hwalk ?_)
      refine hwalked.isolated.counted.storeSame (by decide) hp.1 hp.2 ?_
      rw [child_of_not_present (by rw [present_changedEntry]; simpa using habsent),
        child_of_not_present (by simpa using habsent)]
    next => exact hwalked

/-- `mem_change_type` is not seen elsewhere. -/
theorem Isolated.memChangeType (h : Isolated side roots m) (hcr3 : align cr3 ∈ roots) {start amount : ℕ}
    (hout : ∀ a ∈ pageRange start (add64 start (pageAlignUp amount)), pmlIndex a ≠ 510)
    (changeType : Machine.ChangeType) (newValue : Bool) :
    Within side roots (align cr3) m (m.memChangeType start amount changeType newValue cr3).2 := by
  have hrun := ((Guarded.trivial (Machine.changePage changeType newValue cr3) (m.lock .tlb, false) _).and_mem
    hout).invariant (fun st => Within side roots (align cr3) m st.1)
    (fun st a hst hguard => hst.trans (hst.isolated.changePage hcr3 hguard.1 changeType newValue))
    (show Within side roots (align cr3) m (m.lock .tlb) from h.within rfl rfl)
  unfold Machine.memChangeType
  dsimp only
  split
  · exact hrun
  · exact hrun.same rfl rfl

/-- `create_pml4` is not seen in the user half of any root, and keeps the owners single. -/
theorem Isolated.createPml4 (h : Isolated side roots m) (huser : ∀ i, side i → i < 256)
    (hactive : align m.activePage ∈ roots) (hkernel : KernelHalfOutside m) :
    Isolated side (if m.createPml4.1 = 0 then roots else insert (align m.createPml4.1) roots) m.createPml4.2 ∧
      ∀ R, Elsewhere side roots R m m.createPml4.2 := by
  have hgrowable := h.counted.growable
  have hcounted := h.counted.createPml4 hactive hkernel
  have hother (hne : (getFreeFrame m.framePool).1 ≠ 0) : align m.activePage ≠ (getFreeFrame m.framePool).1 :=
    fun heq => (hgrowable.fresh rfl hne).2 ⟨0, by decide, heq ▸ hactive⟩
  rcases createPml4_cases h.counted.pool h.counted.nonempty hother with
    ⟨hzero, hpool, hmem⟩ | ⟨f, hf, hne, hroot, halign, hpool, hoff, htent⟩
  · rw [if_pos hzero]
    exact ⟨h.same hpool hmem, fun R => .same hmem⟩
  · rw [if_neg hroot, halign] at hcounted ⊢
    obtain ⟨-, -, -, hlayout, -, husage⟩ := h.counted.pool.taken hf hne
    have hnot := (hgrowable.fresh hf hne).2
    have hknown : ∀ i ∈ paging.slots, ∀ C, paging.child 0 i (m.createPml4.2.memory f i) = some C →
        C ∈ paging.tables m.memory roots 1 := by
      intro i hi C hC
      rw [htent i (Finset.mem_range.mp hi)] at hC
      split at hC
      · exact Links.mem_tables_succ.mpr ⟨_, hactive, i, hi, hC⟩
      · rw [child_zero] at hC
        exact absurd hC (by simp)
    have htables := Links.tables_insert_root (L := paging) (by decide) hnot hoff hknown
    refine ⟨h.next hcounted (by rw [hpool, hlayout]) (fun l hl T hT i hi hside C hC => ?_) (fun g hg => ?_),
      fun R cr3' hcr3' _ va _ => ?_⟩
    · have hTf : T ≠ f := by
        rintro rfl
        have hzero : l = 0 := by
          by_contra hpos
          rw [htables l (Nat.lt_succ_of_lt hl), if_neg hpos] at hT
          exact hnot ⟨l, Nat.lt_succ_of_lt hl, hT⟩
        have hlow := huser i (hside hzero)
        rw [htent i hi, if_neg (by omega), child_zero] at hC
        exact absurd hC (by simp)
      rw [hoff T hTf] at hC
      refine Or.inr ⟨?_, hC⟩
      rw [htables l (Nat.lt_succ_of_lt hl)] at hT
      split at hT
      next hzero =>
        rw [hzero]
        exact (Finset.mem_insert.mp hT).resolve_left hTf
      next => exact hT
    · rw [hpool, husage g hg]
      split
      · exact Nat.le_refl 1
      · exact h.usage_le hg
    · have hroot' : align cr3' ∈ paging.tables m.memory roots 0 := hcr3'
      unfold leafEntry
      rw [walk_off hnot hoff hroot' (indices_mem va) (by simp [indices])]
      cases hwalk : paging.walk m.memory 0 (align cr3') (indices va) with
      | none => rfl
      | some pt =>
        have hpt := Links.walk_mem hroot' (indices_mem va) hwalk
        dsimp only
        rw [child_off hnot hoff 3 (by decide) pt hpt]

end Loops

/-- The calls of the paging interface, those that count references and the two that only change or
create entries. -/
inductive SpaceCall
  | paging (op : PagingOp)
  | allocatePhysret (blockAddr : ℕ) (kernel rw exec : Bool) (cr3 : ℕ)
  | memChangeType (start amount : ℕ) (changeType : Machine.ChangeType) (newValue : Bool) (cr3 : ℕ)

namespace AddressSpaces

/-- One call. -/
def call (st : AddressSpaces) : SpaceCall → AddressSpaces
  | .paging op => st.step op
  | .allocatePhysret blockAddr kernel rw exec cr3 =>
    { st with machine := (st.machine.allocatePhysret blockAddr kernel rw exec cr3).2 }
  | .memChangeType start amount changeType newValue cr3 =>
    { st with machine := (st.machine.memChangeType start amount changeType newValue cr3).2 }

/-- The root a call works on; `create_pml4` works on none, and loading the root register neither. -/
def target (st : AddressSpaces) : SpaceCall → Option ℕ
  | .paging (.allocate _ _ _ _ cr3) => some (align cr3)
  | .paging (.allocateMem _ _ _ cr3 _) => some (align cr3)
  | .paging (.pageFault _ _ _) => some (align st.machine.activePage)
  | .paging (.mapRange _ _ _ _ _ _ cr3) => some (align cr3)
  | .paging .createPml4 => none
  | .paging (.deallocate _ _ cr3) => some (align cr3)
  | .paging (.freePageStructure _ cr3) => some (align cr3)
  | .paging (.setActivePage _) => none
  | .allocatePhysret _ _ _ _ cr3 => some (align cr3)
  | .memChangeType _ _ _ _ cr3 => some (align cr3)

/-- The call maps no page of virtual memory a second time. -/
def Unshared : PagingOp → Prop
  | .mapRange _ _ _ virtualMemory _ _ _ => virtualMemory = false
  | _ => True

/-- What a call is made under: its caller's promises, the conditions for right counts, and no sharing. -/
def Allowed (st : AddressSpaces) : SpaceCall → Prop
  | .paging op => (st.Callable op ∧ st.Safe op) ∧ Unshared op
  | .allocatePhysret blockAddr _ _ _ cr3 => align cr3 ∈ st.roots ∧ pmlIndex blockAddr ≠ 510
  | .memChangeType start amount _ _ cr3 =>
    align cr3 ∈ st.roots ∧ ∀ a ∈ pageRange start (add64 start (pageAlignUp amount)), pmlIndex a ≠ 510

/-- After boot every owner is single: nothing refers to a frame of the pool. -/
theorem Booted.isolated {regions : List Region} {st : AddressSpaces} (h : st.Booted regions) {side : ℕ → Prop}
    (hempty : ∀ R ∈ st.roots, ∀ i, side i → present (st.machine.memory R i) = false) :
    Isolated side st.roots st.machine := by
  have hcounted := h.counted
  refine ⟨hcounted, ⟨fun f hf => ?_, fun l hl T hT i hi hside howned C hC => ?_⟩⟩
  · have hzero : references st.machine.memory st.roots f = 0 :=
      references_of_outside (fun hroot => h.rootsOutside f hroot hf) fun l hl T hT i hi hlink =>
        hcounted.pool.managed hf (h.outside l hl T hT i hi f hlink)
    change references st.machine.memory st.roots f ≤ 1
    omega
  · cases l with
    | zero =>
      rw [child_of_not_present (hempty T hT i (hside rfl))] at hC
      exact absurd hC (by simp)
    | succ l =>
      obtain ⟨T', hT', j, hj, hlink⟩ := Links.mem_tables_succ.mp hT
      have hout := h.outside l (Nat.lt_of_succ_lt (Nat.lt_of_succ_lt hl)) T' hT' j (Finset.mem_range.mp hj) T hlink
      exact absurd hout (hcounted.pool.managed (howned (Nat.succ_pos l)))

end AddressSpaces

end Cthulhu
