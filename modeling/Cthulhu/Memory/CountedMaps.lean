import Cthulhu.Memory.CountedLoops

/-!
# Faults, shared mappings and new roots

The remaining functions of the paging interface and their use counts: `page_fault`, which
allocates one page or finds nothing to copy, `map_range`, which shares frames, and
`create_pml4`, which makes a frame a root.
-/

namespace Cthulhu

open Lib

section Fault

variable {roots : Finset ℕ} {m : Machine}

/-- A round of `allocate_mem` keeps the kind of the request. -/
theorem Machine.allocateMemPage_aod (kernel readonly : Bool) (cr3 : ℕ) (stale : ℕ → ℕ)
    (st : (AllocInfo × Machine) × Bool) (va : ℕ) :
    (Machine.allocateMemPage kernel readonly cr3 stale st va).1.1.aod = st.1.1.aod := by
  unfold Machine.allocateMemPage
  dsimp only
  split
  · rfl
  · split
    · rfl
    · split
      · rfl
      · split <;> rfl

/-- A request that reserves nothing on demand overwrites nothing. -/
theorem Machine.allocateMemSafe_of_not_aod {ainfo : AllocInfo} (haod : ainfo.aod = false) (kernel readonly : Bool)
    (cr3 : ℕ) (stale : ℕ → ℕ) : m.AllocateMemSafe ainfo kernel readonly cr3 stale := by
  have hall (pages : List ℕ) (st : (AllocInfo × Machine) × Bool) (hst : st.1.1.aod = false) :
      Guarded (Machine.allocateMemPage kernel readonly cr3 stale)
        (fun st va => st.2 = false → st.1.1.aod = true → OverwriteSafe cr3 st.1.2 va) st pages := by
    induction pages generalizing st with
    | nil => trivial
    | cons va pages ih =>
      refine ⟨fun _ htrue => ?_, ih _ ?_⟩
      · rw [hst] at htrue
        exact absurd htrue (by simp)
      · rw [Machine.allocateMemPage_aod, hst]
  exact hall _ _ haod

/-- The page of a fault has the root index of its address. -/
theorem pmlIndex_align (va : ℕ) : pmlIndex (align va) = pmlIndex va := by
  unfold pmlIndex align
  omega

/-- A fault asks for no page but its own. -/
theorem Machine.demandRequest_pages (address a : ℕ)
    (ha : a ∈ Machine.allocatePages (Machine.demandRequest address).start (Machine.demandRequest address).amount) :
    a = align address := by
  obtain ⟨i, rfl, hi⟩ := mem_pageRange.mp ha
  unfold Machine.demandRequest at hi ⊢
  simp only [align_align, Nat.sub_self] at hi ⊢
  have hsize : pageAlignUp (add64 0x1000 0) = 0x1000 := by decide
  have hlimit : add64 (align address) 0x1000 ≤ align address + 0x1000 := Nat.mod_le _ _
  rw [hsize] at hi
  omega

/-- No frame that a present leaf entry holds is marked for copying: frames of the pool never are,
and other addresses have no record. -/
theorem Counted.getFrameInfo_leaf (h : Counted roots m) {p : Slot} (hp : LeafSlot roots m p)
    (hpresent : present (m.load p) = true) :
    getFrameInfo m.framePool (align (m.load p)) = none ∨
      ∃ fi, getFrameInfo m.framePool (align (m.load p)) = some fi ∧ fi.cowCount = 0 := by
  by_cases hlow : m.load p < 2 ^ 62
  · have hlink : paging.child 3 p.index (m.load p) = some (align (m.load p)) := by
      rw [child_leaf, hpresent, if_pos rfl, frameOf_of_lt hlow]
    rcases h.named 3 (by decide) p.table hp.1 _ hp.2 _ hlink with hframe | hout
    · exact Or.inr (h.cow.getFrameInfo h.pool hframe)
    · exact Or.inl ((getFrameInfo_eq_none _ _).mpr hout)
  · have hbound := align_le (m.load p)
    have hfar : 2 ^ 62 ≤ align (m.load p) := by
      unfold align
      omega
    exact Or.inl ((getFrameInfo_eq_none _ _).mpr (h.unmanaged_of_le hfar))

/-- A fault on a present page finds nothing to copy, and is refused. -/
theorem Counted.pageFault_refused (h : Counted roots m) (hactive : align m.activePage ∈ roots) {address : ℕ}
    (hva : pmlIndex address ≠ 510) {errcode : ℕ} (stale : ℕ → ℕ) (herr : bit errcode 0 = true)
    (hpresent : present (m.pageEntry address m.activePage) = true) :
    (m.pageFault address errcode stale).1 = some false ∧
      (m.pageFault address errcode stale).2.memory = m.memory ∧
      (m.pageFault address errcode stale).2.framePool = m.framePool := by
  unfold Machine.pageFault
  dsimp only
  rw [m.getPage_false m.activePage false hva]
  rw [m.pageEntry_eq m.activePage hva] at hpresent
  cases hwalk : paging.walk m.memory 0 (align m.activePage) (indices address) with
  | none => exact ⟨rfl, rfl, rfl⟩
  | some pt =>
    rw [leafEntry_of_some hwalk] at hpresent
    have hpt := Links.walk_mem (show align m.activePage ∈ paging.tables m.memory roots 0 from hactive)
      (indices_mem address) hwalk
    simp only [Option.map_some, herr, Bool.not_true, Bool.false_eq_true, if_false]
    split
    · have hinfo := h.getFrameInfo_leaf (p := ⟨pt, tableIndex address⟩) ⟨hpt, tableIndex_lt address⟩ hpresent
      change getFrameInfo ((m.lock .tlb).lock .frame).framePool _ = none ∨
        ∃ fi, getFrameInfo ((m.lock .tlb).lock .frame).framePool _ = some fi ∧ fi.cowCount = 0 at hinfo
      rcases hinfo with hnone | ⟨fi, hsome, hcow⟩
      · rw [hnone]
        exact ⟨rfl, rfl, rfl⟩
      · rw [hsome]
        simp only [hcow, if_true]
        exact ⟨trivial, rfl, rfl⟩
    · exact ⟨rfl, rfl, rfl⟩

/-- A fault on a page that is not present allocates it when it is reserved on demand, and is
refused otherwise. -/
theorem Machine.pageFault_absent (m : Machine) {address : ℕ} (hva : pmlIndex address ≠ 510) {errcode : ℕ}
    (stale : ℕ → ℕ) (herr : bit errcode 0 = false) : m.pageFault address errcode stale =
      if bit (leafEntry m.memory m.activePage address) 1 && bit (leafEntry m.memory m.activePage address) 3 then
        (some true, (m.allocateMem (Machine.demandRequest address) false false m.activePage stale).2)
      else (some false, m) := by
  unfold Machine.pageFault
  dsimp only
  rw [m.getPage_false m.activePage false hva]
  cases hwalk : paging.walk m.memory 0 (align m.activePage) (indices address) with
  | none =>
    rw [leafEntry_of_none hwalk]
    rfl
  | some pt =>
    rw [leafEntry_of_some hwalk]
    simp only [Option.map_some, herr, Bool.not_false, if_true]
    rfl

/-- `page_fault` keeps the counts right when the processor reports present pages as present. -/
theorem Counted.pageFault (h : Counted roots m) (hactive : align m.activePage ∈ roots) {address : ℕ}
    (hva : pmlIndex address ≠ 510) {errcode : ℕ} (stale : ℕ → ℕ)
    (hpresent : bit errcode 0 = true → present (m.pageEntry address m.activePage) = true) :
    Counted roots (m.pageFault address errcode stale).2 := by
  cases herr : bit errcode 0 with
  | false =>
    rw [m.pageFault_absent hva stale herr]
    split
    · refine h.allocateMem hactive (fun a ha => ?_) (Machine.allocateMemSafe_of_not_aod rfl _ _ _ _)
      rw [Machine.demandRequest_pages address a ha, pmlIndex_align]
      exact hva
    · exact h
  | true =>
    obtain ⟨-, hmem, hpool⟩ := h.pageFault_refused hactive hva stale herr (hpresent herr)
    exact h.same hpool hmem

end Fault

section Map

variable {roots : Finset ℕ} {m : Machine} {cr3 : ℕ}

/-- Of two stores to one slot the second remains. -/
theorem Machine.store_store (m : Machine) (p : Slot) (w w' : ℕ) : (m.store p w).store p w' = m.store p w' := by
  unfold Machine.store
  simp only [Function.update_self, Function.update_idem]

/-- The leaf entry leads out of the pool or nowhere. -/
def LeafFree (m : Machine) (p : Slot) : Prop :=
  present (m.load p) = true → Unmanaged m.framePool (frameOf (m.load p))

/-- Clearing such an entry keeps the counts right. -/
theorem Counted.clearLeaf (h : Counted roots m) {p : Slot} (hp : LeafSlot roots m p) (hfree : LeafFree m p) :
    Counted roots (m.store p 0) ∧ LeafSlot roots (m.store p 0) p ∧
      paging.child 3 p.index ((m.store p 0).load p) = none := by
  have hcounted := h.dropUnmanaged hp.1 hp.2 (child_zero 3 _) fun g hg => by
    rw [child_leaf] at hg
    split at hg
    next hpresent => exact Option.some.inj hg ▸ hfree hpresent
    next => exact absurd hg (by simp)
  refine ⟨hcounted, ⟨?_, hp.2⟩, ?_⟩
  · rw [((h.keepsAbove_store (by decide) hp.1 0) 3 (Nat.le_refl 3)).1]
    exact hp.1
  · have hzero : (m.store p 0).load p = 0 := Links.store_self _ _ _ _
    rw [hzero, child_zero]

/-- Mapping an address outside the pool over such an entry keeps the counts right. -/
theorem Counted.mapOutside (h : Counted roots m) {p : Slot} (hp : LeafSlot roots m p) (hfree : LeafFree m p)
    {frame : ℕ} (hframe : Unmanaged m.framePool (frameOf frame)) (readonly kernel : Bool) :
    Counted roots (m.store p (Machine.mappedEntry frame readonly kernel)) := by
  obtain ⟨hcleared, hslot, hnone⟩ := h.clearLeaf hp hfree
  rw [← m.store_store p 0]
  refine hcleared.linkUnmanaged hslot.1 hslot.2 hnone ?_ (show Unmanaged (m.store p 0).framePool _ from hframe)
  rw [child_leaf, present_mappedEntry, if_pos rfl, frameOf_mappedEntry]

/-- Mapping a pool frame in use over such an entry, with its count raised, keeps the counts right. -/
theorem Counted.mapShared (h : Counted roots m) {p : Slot} (hp : LeafSlot roots m p) (hfree : LeafFree m p)
    {frame : ℕ} (hframe : IsFrame m.framePool frame) (hused : 1 ≤ usageCount m.framePool frame)
    (hroom : usageCount m.framePool frame + 1 < 2 ^ 32) (readonly kernel : Bool) {m' : Machine}
    (hpool : m'.framePool = incrementUsage m.framePool frame)
    (hmem : m'.memory = (m.store p (Machine.mappedEntry frame readonly kernel)).memory) : Counted roots m' := by
  obtain ⟨hcleared, hslot, hnone⟩ := h.clearLeaf hp hfree
  refine hcleared.shareLink (w := Machine.mappedEntry frame readonly kernel) hslot.1 hslot.2 hnone ?_ hframe hused
    hroom hpool ?_
  · rw [child_leaf, present_mappedEntry, if_pos rfl, frameOf_mappedEntry, frameOf_of_lt (h.frame_lt hframe),
      align_of_mod (h.pool.frame_aligned hframe).1]
  · rw [hmem, ← m.store_store p 0]
    rfl

/-- Growth leaves room in a count that had room. -/
theorem Grown.usageRoom {m' : Machine} (hgrown : Grown roots m m') (h : Growable roots m) {f : ℕ}
    (hf : IsFrame m.framePool f) (hroom : usageCount m.framePool f + 1 < 2 ^ 32) :
    usageCount m'.framePool f + 1 < 2 ^ 32 := by
  refine (Grown.invariant (fun a => IsFrame a.framePool f ∧ usageCount a.framePool f + 1 < 2 ^ 32) ?_ h hgrown
    ⟨hf, hroom⟩).2.2
  intro a b ha hgrow hsame
  cases hgrow with
  | same hpool => rw [hpool]; exact hsame
  | table l p w g hl hT hi hold hw hg hne hpool =>
    obtain ⟨-, -, -, hlayout, -, husage⟩ := ha.pool.taken hg hne
    rw [hpool]
    refine ⟨(isFrame_congr hlayout f).mpr hsame.1, ?_⟩
    rw [husage f hsame.1]
    split
    · decide
    · exact hsame.2

/-- An address with the high bits of an entry outside the pool is outside it too. -/
theorem Counted.align_unmanaged (h : Counted roots m) {w : ℕ} (hout : Unmanaged m.framePool (frameOf w)) :
    Unmanaged m.framePool (align w) := by
  by_cases hlow : w < 2 ^ 62
  · rwa [← frameOf_of_lt hlow]
  · refine h.unmanaged_of_le ?_
    unfold align
    omega

/-- What one round of `map_range` needs: a target that maps no pool frame, and a source frame that
may be shared, or for physical memory one outside the pool. -/
def MapSafe (start tostart : ℕ) (virtualMemory : Bool) (cr3 : ℕ) (m : Machine) (offs : ℕ) : Prop :=
  OverwriteSafe cr3 m (add64 tostart offs) ∧
    if virtualMemory then ShareSafe cr3 m (add64 start offs) else Unmanaged m.framePool (frameOf (add64 start offs))

/-- One round of `map_range` keeps the counts right. -/
theorem Counted.mapPage {st : Machine × Option Machine.MapStop} (h : Counted roots st.1) (hcr3 : align cr3 ∈ roots)
    {start tostart offs : ℕ} {virtualMemory : Bool} (readonly kernel : Bool)
    (htarget : pmlIndex (add64 tostart offs) ≠ 510)
    (hsource : virtualMemory = true → pmlIndex (add64 start offs) ≠ 510)
    (hsafe : st.2 = none → MapSafe start tostart virtualMemory cr3 st.1 offs) :
    Counted roots (Machine.mapPage start tostart virtualMemory readonly kernel cr3 st offs).1 := by
  unfold Machine.mapPage
  by_cases hstop : st.2 ≠ none
  · rw [if_pos hstop]
    exact h
  rw [if_neg hstop]
  dsimp only
  obtain ⟨hdrop, hshare⟩ := hsafe (not_ne_iff.mp hstop)
  unfold OverwriteSafe at hdrop
  rw [Machine.pageEntry_eq _ cr3 htarget] at hdrop
  obtain ⟨h₁, hgrown₁, hslot₁⟩ := h.getPage hcr3 htarget !kernel
  have hlayout₁ := Grown.layout hgrown₁ h.growable
  generalize st.1.getPage (add64 tostart offs) cr3 true (!kernel) = target at h₁ hgrown₁ hslot₁ hlayout₁
  split
  next => exact h₁
  next tp htp =>
  obtain ⟨hleaf, hload⟩ := hslot₁ tp htp
  have hfree : LeafFree target.2 tp := by
    intro hpresent
    rw [hload] at hpresent ⊢
    exact (unmanaged_congr hlayout₁ _).mpr (hdrop hpresent)
  unfold Machine.mapSource
  cases virtualMemory with
  | false =>
    simp only [Bool.false_eq_true, if_false] at hshare ⊢
    exact h₁.mapOutside hleaf hfree ((unmanaged_congr hlayout₁ _).mpr hshare) readonly kernel
  | true =>
    simp only [if_true] at hshare ⊢
    have hva := hsource rfl
    obtain ⟨h₂, hgrown₂, hslot₂⟩ := h₁.getPage hcr3 hva false
    have hlayout₂ := (Grown.layout hgrown₂ h₁.growable).trans hlayout₁
    obtain ⟨hleaf₂, hload₂⟩ := Grown.leafSlot hgrown₂ h₁.growable hleaf
    have hroom (f : ℕ) (hf : IsFrame st.1.framePool f) (hr : usageCount st.1.framePool f + 1 < 2 ^ 32) :=
      Grown.usageRoom hgrown₂ h₁.growable ((isFrame_congr hlayout₁ f).mpr hf)
        (Grown.usageRoom hgrown₁ h.growable hf hr)
    generalize target.2.getPage (add64 start offs) cr3 true false = source at h₂ hgrown₂ hslot₂ hlayout₂ hleaf₂ hload₂ hroom
    cases hres : source.1 with
    | none => exact h₂
    | some sp =>
      simp only
      obtain ⟨hsleaf, hsload⟩ := hslot₂ sp hres
      rw [Grown.leafEntry hgrown₁ h.growable hcr3, ← Machine.pageEntry_eq _ cr3 hva] at hsload
      unfold ShareSafe at hshare
      rw [← hsload] at hshare
      have hfree₂ : LeafFree source.2 tp := by
        intro hpresent
        rw [hload₂] at hpresent ⊢
        exact (unmanaged_congr (hlayout₂.trans hlayout₁.symm) _).mpr (hfree hpresent)
      by_cases hzero : align (source.2.load sp) = 0
      · simp only [hzero, if_true]
        exact h₂
      simp only [hzero, if_false]
      by_cases hout : Unmanaged source.2.framePool (frameOf (source.2.load sp))
      · have hsame : incrementUsage source.2.framePool (align (source.2.load sp)) = source.2.framePool :=
          setFrameInfo_none _ _ _ (h₂.align_unmanaged hout)
        have hout' : Unmanaged source.2.framePool (frameOf (align (source.2.load sp))) := by rwa [frameOf_align]
        have hmapped := h₂.mapOutside hleaf₂ hfree₂ hout' readonly kernel
        exact hmapped.same (by simpa [Machine.store, Machine.unlock, Machine.lock] using hsame) rfl
      · rcases hshare with hshare | ⟨hpresent, hlow, hr⟩
        · exact absurd ((unmanaged_congr hlayout₂ _).mpr hshare) hout
        · have hlink : paging.child 3 sp.index (source.2.load sp) = some (align (source.2.load sp)) := by
            rw [child_leaf, hpresent, if_pos rfl, frameOf_of_lt hlow]
          rw [frameOf_of_lt hlow] at hout hr
          have hframe := (h₂.named 3 (by decide) sp.table hsleaf.1 sp.index hsleaf.2 _ hlink).resolve_right hout
          have hused : 1 ≤ usageCount source.2.framePool (align (source.2.load sp)) := by
            rw [h₂.counted _ hframe]
            exact (Links.linkCount_pos (by decide) hsleaf.1 (Finset.mem_range.mpr hsleaf.2) hlink).trans
              (Nat.le_add_left _ _)
          exact h₂.mapShared hleaf₂ hfree₂ hframe hused (hroom _ ((isFrame_congr hlayout₂ _).mp hframe) hr)
            readonly kernel rfl rfl

/-- Every page that `map_range` reaches may be mapped. -/
def Machine.MapRangeSafe (m : Machine) (start endAddr tostart : ℕ) (virtualMemory readonly kernel : Bool)
    (cr3 : ℕ) : Prop :=
  Guarded (Machine.mapPage start tostart virtualMemory readonly kernel cr3)
    (fun st offs => st.2 = none → MapSafe start tostart virtualMemory cr3 st.1 offs) (m.lock .tlb, none)
    (pageRange 0 (sub64 endAddr start))

/-- `map_range` keeps the counts right. -/
theorem Counted.mapRange (h : Counted roots m) (hcr3 : align cr3 ∈ roots) {start endAddr tostart : ℕ}
    {virtualMemory readonly kernel : Bool}
    (hout : ∀ offs ∈ pageRange 0 (sub64 endAddr start), pmlIndex (add64 tostart offs) ≠ 510 ∧
      (virtualMemory = true → pmlIndex (add64 start offs) ≠ 510))
    (hsafe : m.MapRangeSafe start endAddr tostart virtualMemory readonly kernel cr3) :
    Counted roots (m.mapRange start endAddr tostart virtualMemory readonly kernel cr3).2 := by
  have hrun := (hsafe.and_mem hout).invariant (fun st => Counted roots st.1)
    (fun st offs hst hguard => hst.mapPage hcr3 readonly kernel hguard.1.1 hguard.1.2 hguard.2)
    (show Counted roots (m.lock .tlb) from h.same rfl rfl)
  unfold Machine.mapRange
  dsimp only
  split
  · exact hrun.same rfl rfl
  · exact hrun.same rfl rfl
  · exact hrun

end Map

end Cthulhu
