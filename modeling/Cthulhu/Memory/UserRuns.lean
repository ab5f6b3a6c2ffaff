import Cthulhu.Memory.CountedMaps
import Cthulhu.Memory.LockCalls
import Cthulhu.Memory.ReferenceRuns
import Cthulhu.Memory.UserWalks

/-!
# User mappings over runs

Runs of the paging interface on one address space, and whether user mode can reach what is mapped for
it. A table gets its user bit from whichever call creates it. As long as the kernel variant
of the walk creates no table in the user half, every table there is open, and so is the way
to every user page.

The kernel variant is used for user addresses by `mem_change_type`, `allocate_physret`, the source of
`map_range`, and every call with `kernel` set. A frame given back while it is a table could
become anything, so that no page that `deallocate` clears may map a table.
-/

namespace Cthulhu

open Lib

/-- The tables of the root are divided into halves, and those of the user half are open. -/
def Halved (R : ℕ) (m : Machine) : Prop := ∃ tag, UserTables R tag m

/-- The pages that `deallocate` clears map no table. -/
def Machine.DeallocateReady (m : Machine) (start amount cr3 : ℕ) : Prop :=
  Guarded (Machine.deallocatePage cr3) (Machine.ReleaseReady cr3) (m.lock .tlb) (Machine.deallocatePages start amount)

/-- The frame may be shared: it is outside the pool, or it is in use with room in its count. -/
def Machine.ShareReady (m : Machine) (f : ℕ) : Prop :=
  Unmanaged m.framePool f ∨
    IsFrame m.framePool f ∧ 1 ≤ usageCount m.framePool f ∧ usageCount m.framePool f + 1 < 2 ^ 32

/-- A round of `map_range` walks to its target, and in virtual memory to its source, and shares a frame. -/
def Machine.MapReady (start tostart : ℕ) (virtualMemory kernel : Bool) (cr3 : ℕ) (st : Machine × Option Machine.MapStop)
    (offs : ℕ) : Prop :=
  st.2 = none → st.1.WalkReady (add64 tostart offs) cr3 (!kernel) ∧
    (virtualMemory = true →
      (st.1.getPage (add64 tostart offs) cr3 true !kernel).2.WalkReady (add64 start offs) cr3 false ∧
      (((st.1.getPage (add64 tostart offs) cr3 true !kernel).2.getPage (add64 start offs) cr3 true false).2.ShareReady
        (align ((st.1.getPage (add64 tostart offs) cr3 true !kernel).2.pageEntry (add64 start offs) cr3))))

section Loops

variable {R : ℕ} {m : Machine} {cr3 : ℕ}

/-- A change of neither the pool nor the memory keeps the halves. -/
theorem Halved.same {m' : Machine} (h : Halved R m) (hpool : m'.framePool = m.framePool)
    (hmem : m'.memory = m.memory) : Halved R m' := by
  obtain ⟨tag, h⟩ := h
  exact ⟨tag, h.same hpool hmem⟩

/-- A round of `deallocate` keeps the halves. -/
theorem Halved.deallocatePage (h : Halved R m) (hcr3 : align cr3 = R) {va : ℕ} (hva : pmlIndex va ≠ 510)
    (hready : Machine.ReleaseReady cr3 m va) : Halved R (Machine.deallocatePage cr3 m va) := by
  obtain ⟨tag, h⟩ := h
  have hlocked : UserTables R tag (m.lock .frame) := h.same rfl rfl
  have hready' : Machine.ReleaseReady cr3 (m.lock .frame) va := by
    unfold Machine.ReleaseReady
    rw [Machine.pageEntry_congr (show (m.lock .frame).memory = m.memory from rfl) hva]
    exact hready
  obtain ⟨tag', h'⟩ := hlocked.deallocateFrame hcr3 hva hready'
  exact ⟨tag', h'.same rfl rfl⟩

/-- `deallocate` keeps the halves. -/
theorem Halved.deallocate (h : Halved R m) (hcr3 : align cr3 = R) {start amount : ℕ}
    (hout : ∀ a ∈ Machine.deallocatePages start amount, pmlIndex a ≠ 510)
    (hready : m.DeallocateReady start amount cr3) : Halved R (m.deallocate start amount cr3) := by
  unfold Machine.deallocate
  split
  · have hlocked : Halved R (m.lock .tlb) := h.same rfl rfl
    have hrun := (hready.and_mem hout).invariant (Halved R)
      (fun m a hm hguard => hm.deallocatePage hcr3 hguard.1 hguard.2) hlocked
    exact hrun.same rfl rfl
  · exact h

/-- A round of `allocate` keeps the halves, and stops only at its own page. -/
theorem Halved.allocatePage {st : Machine × Option ℕ} (h : Halved R st.1) (hcr3 : align cr3 = R) {va : ℕ}
    (hva : pmlIndex va ≠ 510) {kernel : Bool} (readonly : Bool)
    (hready : st.2 = none → st.1.WalkReady va cr3 !kernel) :
    Halved R (Machine.allocatePage kernel readonly cr3 st va).1 ∧
      ((Machine.allocatePage kernel readonly cr3 st va).2 = st.2 ∨
        (Machine.allocatePage kernel readonly cr3 st va).2 = some va) := by
  unfold Machine.allocatePage
  by_cases hstop : st.2 ≠ none
  · rw [if_pos hstop]
    exact ⟨h, Or.inl rfl⟩
  have hnone := not_ne_iff.mp hstop
  rw [if_neg hstop]
  dsimp only
  obtain ⟨tag, h⟩ := h
  have hlocked : UserTables R tag (st.1.lock .frame) := h.same rfl rfl
  obtain ⟨tag', h', -, hslot⟩ := hlocked.getPage hcr3 hva ((hready hnone).same rfl hva)
  split
  next => exact ⟨⟨tag', h'⟩, Or.inr rfl⟩
  next p hp =>
    have hgiven := h'.allocateFrame (hslot p hp).1 kernel readonly false
    split
    · exact ⟨⟨tag', hgiven⟩, Or.inr rfl⟩
    · exact ⟨⟨tag', hgiven.same rfl rfl⟩, Or.inl hnone.symm⟩

/-- `allocate` keeps the halves, also when it fails. -/
theorem Halved.allocate (h : Halved R m) (hcr3 : align cr3 = R) {start amount : ℕ} {kernel readonly : Bool}
    (hout : ∀ a ∈ Machine.allocatePages start amount, pmlIndex a ≠ 510)
    (hready : Guarded (Machine.allocatePage kernel readonly cr3)
      (fun st va => st.2 = none → st.1.WalkReady va cr3 !kernel) (m, none) (Machine.allocatePages start amount))
    (hgive : ∀ addr, (run (Machine.allocatePage kernel readonly cr3) (m, none)
        (Machine.allocatePages start amount)).2 = some addr →
      ((run (Machine.allocatePage kernel readonly cr3) (m, none)
        (Machine.allocatePages start amount)).1.unlock .frame).DeallocateReady (align start) (addr - align start) cr3) :
    Halved R (m.allocate start amount kernel readonly cr3).2 := by
  have hrun := (hready.and_mem fun a ha => ha).invariant
    (fun st => Halved R st.1 ∧ ∀ addr, st.2 = some addr → addr ∈ Machine.allocatePages start amount)
    (fun st a hst hguard => by
      obtain ⟨hhalved, hstop⟩ := hst.1.allocatePage hcr3 (hout a hguard.1) readonly hguard.2
      refine ⟨hhalved, fun addr haddr => ?_⟩
      rcases hstop with hsame | hhere
      · exact hst.2 addr (hsame ▸ haddr)
      · rw [hhere] at haddr
        exact Option.some.inj haddr ▸ hguard.1)
    ⟨h, fun addr haddr => absurd haddr (by simp)⟩
  unfold Machine.allocate
  dsimp only
  generalize run (Machine.allocatePage kernel readonly cr3) (m, none)
    (Machine.allocatePages start amount) = st at hrun hgive ⊢
  split
  next => exact hrun.1
  next addr haddr =>
    have hunlocked : Halved R (st.1.unlock .frame) := hrun.1.same rfl rfl
    refine hunlocked.deallocate hcr3 (fun a ha => ?_) (hgive addr haddr)
    exact hout a (Machine.deallocatePages_subset (hrun.2 addr haddr) a ha)

/-- A round of `allocate_mem` keeps the halves. -/
theorem Halved.allocateMemPage {st : (AllocInfo × Machine) × Bool} (h : Halved R st.1.2) (hcr3 : align cr3 = R)
    {va : ℕ} (hva : pmlIndex va ≠ 510) {kernel : Bool} (readonly : Bool) (stale : ℕ → ℕ)
    (hready : st.2 = false → st.1.2.WalkReady va cr3 !kernel) :
    Halved R (Machine.allocateMemPage kernel readonly cr3 stale st va).1.2 := by
  unfold Machine.allocateMemPage
  by_cases hstop : st.2 = true
  · rw [if_pos hstop]
    exact h
  rw [if_neg hstop]
  dsimp only
  obtain ⟨tag, h⟩ := h
  have hlocked : UserTables R tag (st.1.2.lock .frame) := h.same rfl rfl
  obtain ⟨tag', h', -, hslot⟩ := hlocked.getPage hcr3 hva
    ((hready (Bool.eq_false_iff.mpr hstop)).same rfl hva)
  split
  next => exact ⟨tag', h'.same rfl rfl⟩
  next p hp =>
    obtain ⟨hleaf, -⟩ := hslot p hp
    split
    next => exact ⟨tag', (h'.storeLeaf hleaf _).same rfl rfl⟩
    next =>
      have hgiven := h'.allocateFrame hleaf kernel readonly st.1.1.exec
      split
      · exact ⟨tag', hgiven.same rfl rfl⟩
      · exact ⟨tag', hgiven.same rfl rfl⟩

/-- The walks of `allocate_mem` are ready. -/
def Machine.AllocateMemReady (m : Machine) (ainfo : AllocInfo) (kernel readonly : Bool) (cr3 : ℕ) (stale : ℕ → ℕ) :
    Prop :=
  Guarded (Machine.allocateMemPage kernel readonly cr3 stale)
    (fun st va => st.2 = false → st.1.2.WalkReady va cr3 !kernel)
    (({ ainfo with
        start := align ainfo.start
        amount := pageAlignUp (add64 ainfo.amount (ainfo.start - align ainfo.start)) }, m), false)
    (Machine.allocatePages ainfo.start ainfo.amount)

/-- `allocate_mem` keeps the halves. -/
theorem Halved.allocateMem (h : Halved R m) (hcr3 : align cr3 = R) {ainfo : AllocInfo} {kernel readonly : Bool}
    {stale : ℕ → ℕ} (hout : ∀ a ∈ Machine.allocatePages ainfo.start ainfo.amount, pmlIndex a ≠ 510)
    (hready : m.AllocateMemReady ainfo kernel readonly cr3 stale) :
    Halved R (m.allocateMem ainfo kernel readonly cr3 stale).2 := by
  have hrun := (hready.and_mem hout).invariant (fun st => Halved R st.1.2)
    (fun st a hst hguard => hst.allocateMemPage hcr3 hguard.1 readonly stale hguard.2) h
  unfold Machine.allocateMem
  dsimp only
  split <;> exact hrun

/-- `page_fault` keeps the halves: it finds nothing to copy, and demands pages with the user variant. -/
theorem Halved.pageFault (h : Halved R m) (hactive : align m.activePage = R) {address errcode : ℕ}
    (hva : pmlIndex address ≠ 510) (stale : ℕ → ℕ)
    (hframe : ∀ p, (m.getPage address m.activePage false false).1 = some p → bit errcode 0 = true →
      IsFrame m.framePool (align (m.load p)) ∨ Unmanaged m.framePool (align (m.load p))) :
    Halved R (m.pageFault address errcode stale).2 := by
  cases herr : bit errcode 0 with
  | false =>
    rw [m.pageFault_absent hva stale herr]
    split
    · refine h.allocateMem hactive (fun a ha => ?_) ?_
      · rw [Machine.demandRequest_pages address a ha, pmlIndex_align]
        exact hva
      · exact Guarded.of_forall (fun _ _ _ _ => Or.inl rfl) _ _
    · exact h
  | true =>
    unfold Machine.pageFault
    dsimp only
    cases hpage : (m.getPage address m.activePage false false).1 with
    | none => exact h
    | some p =>
      simp only [herr, Bool.not_true, Bool.false_eq_true, if_false]
      split
      · have hinfo : getFrameInfo ((m.lock .tlb).lock .frame).framePool (align (m.load p)) = none ∨
            ∃ fi, getFrameInfo ((m.lock .tlb).lock .frame).framePool (align (m.load p)) = some fi ∧
              fi.cowCount = 0 := by
          obtain ⟨tag, h⟩ := h
          rcases hframe p hpage herr with hin | hout
          · exact Or.inr (h.cow.getFrameInfo h.pool hin)
          · exact Or.inl ((getFrameInfo_eq_none _ _).mpr hout)
        rcases hinfo with hnone | ⟨fi, hsome, hcow⟩
        · rw [hnone]
          exact h.same rfl rfl
        · rw [hsome]
          simp only [hcow, if_true]
          exact h.same rfl rfl
      · exact h

/-- A round of `mem_change_type` keeps the halves. -/
theorem Halved.changePage {st : Machine × Bool} (h : Halved R st.1) (hcr3 : align cr3 = R) {va : ℕ}
    (hva : pmlIndex va ≠ 510) (changeType : Machine.ChangeType) (newValue : Bool)
    (hready : st.2 = false → st.1.WalkReady va cr3 false) :
    Halved R (Machine.changePage changeType newValue cr3 st va).1 := by
  unfold Machine.changePage
  by_cases hstop : st.2 = true
  · rw [if_pos hstop]
    exact h
  rw [if_neg hstop]
  dsimp only
  obtain ⟨tag, h⟩ := h
  obtain ⟨tag', h', -, hslot⟩ := h.getPage hcr3 hva (hready (Bool.eq_false_iff.mpr hstop))
  split
  next => exact ⟨tag', h'⟩
  next p hp =>
    split
    · exact ⟨tag', h'.storeLeaf (hslot p hp).1 _⟩
    · exact ⟨tag', h'⟩

/-- Raising the count of a frame that may be shared keeps the tables. -/
theorem UserTables.share {tag : ℕ → Option (ℕ × Bool)} (h : UserTables R tag m) {f : ℕ} (hshare : m.ShareReady f) :
    UserTables R tag { m with framePool := incrementUsage m.framePool f } := by
  rcases hshare with hout | ⟨hframe, hused, hroom⟩
  · exact h.same (setFrameInfo_none _ _ _ hout) rfl
  · obtain ⟨hinv, hlayout, -, hfree⟩ := h.pool.incrementUsage hframe hused hroom
    exact h.keep hlayout hinv (h.cow.incrementUsage f) (fun g hg => Or.inl (hfree ▸ hg)) fun _ => rfl

/-- A round of `map_range` keeps the halves, also when it fails. -/
theorem Halved.mapPage {st : Machine × Option Machine.MapStop} (h : Halved R st.1) (hcr3 : align cr3 = R)
    {start tostart offs : ℕ} {virtualMemory : Bool} (readonly : Bool) {kernel : Bool}
    (htarget : pmlIndex (add64 tostart offs) ≠ 510)
    (hsource : virtualMemory = true → pmlIndex (add64 start offs) ≠ 510)
    (hready : Machine.MapReady start tostart virtualMemory kernel cr3 st offs) :
    Halved R (Machine.mapPage start tostart virtualMemory readonly kernel cr3 st offs).1 := by
  unfold Machine.mapPage
  by_cases hstop : st.2 ≠ none
  · rw [if_pos hstop]
    exact h
  rw [if_neg hstop]
  dsimp only
  obtain ⟨hwalk, hshare⟩ := hready (not_ne_iff.mp hstop)
  obtain ⟨tag, h⟩ := h
  obtain ⟨tag₁, h₁, -, hslot₁⟩ := h.getPage hcr3 htarget hwalk
  generalize st.1.getPage (add64 tostart offs) cr3 true (!kernel) = target at h₁ hslot₁ hshare
  split
  next => exact ⟨tag₁, h₁⟩
  next tp htp =>
  have hleaf := (hslot₁ tp htp).1
  unfold Machine.mapSource
  cases virtualMemory with
  | false =>
    simp only [Bool.false_eq_true, if_false]
    exact ⟨tag₁, h₁.storeLeaf hleaf _⟩
  | true =>
    simp only [if_true]
    obtain ⟨hwalk₂, hshare⟩ := hshare rfl
    obtain ⟨tag₂, h₂, hkeep₂, hslot₂⟩ := h₁.getPage hcr3 (hsource rfl) hwalk₂
    have hleaf₂ : tag₂ tp.table = some (3, userHalf (pmlIndex (add64 tostart offs))) := by
      rw [hkeep₂ tp.table (by simp [hleaf]), hleaf]
    generalize target.2.getPage (add64 start offs) cr3 true false = source at h₂ hslot₂ hshare
    cases hres : source.1 with
    | none => exact ⟨tag₂, h₂⟩
    | some sp =>
      simp only
      rw [← (hslot₂ sp hres).2] at hshare
      by_cases hzero : align (source.2.load sp) = 0
      · simp only [hzero, if_true]
        exact ⟨tag₂, h₂⟩
      · simp only [hzero, if_false]
        have hraised := h₂.share hshare
        exact ⟨tag₂, (hraised.storeLeaf hleaf₂ _).same rfl rfl⟩

/-- `map_range` keeps the halves. -/
theorem Halved.mapRange (h : Halved R m) (hcr3 : align cr3 = R) {start endAddr tostart : ℕ}
    {virtualMemory readonly kernel : Bool}
    (hout : ∀ offs ∈ pageRange 0 (sub64 endAddr start), pmlIndex (add64 tostart offs) ≠ 510 ∧
      (virtualMemory = true → pmlIndex (add64 start offs) ≠ 510))
    (hready : Guarded (Machine.mapPage start tostart virtualMemory readonly kernel cr3)
      (Machine.MapReady start tostart virtualMemory kernel cr3) (m.lock .tlb, none)
      (pageRange 0 (sub64 endAddr start))) :
    Halved R (m.mapRange start endAddr tostart virtualMemory readonly kernel cr3).2 := by
  have hrun := (hready.and_mem hout).invariant (fun st => Halved R st.1)
    (fun st offs hst hguard => hst.mapPage hcr3 readonly hguard.1.1 hguard.1.2 hguard.2)
    (show Halved R (m.lock .tlb) from h.same rfl rfl)
  unfold Machine.mapRange
  dsimp only
  split
  · exact hrun.same rfl rfl
  · exact hrun.same rfl rfl
  · exact hrun

/-- `create_pml4` keeps the halves of the address space: its new root is another frame. -/
theorem Halved.createPml4 (h : Halved R m) : Halved R m.createPml4.2 := by
  obtain ⟨tag, h⟩ := h
  have htaken := Machine.getFreeFrame_eq (m := m.lock .frame) h.nonempty
  unfold Machine.createPml4
  dsimp only
  rw [htaken]
  by_cases hzero : (getFreeFrame (m.lock .frame).framePool).1 = 0
  · simp only [hzero, if_true]
    exact ⟨tag, h.same rfl rfl⟩
  · simp only [hzero, if_false]
    refine ⟨tag, h.takeFrame hzero rfl fun hplace hT => ?_⟩
    simp only [Machine.unlock, Machine.lock, Machine.fill, Function.update_of_ne hT]

end Loops

/-- What the callers promise: the calls are on the address space of the root, and outside the mirror. -/
def PagingCall.On (R : ℕ) (m : Machine) : PagingCall → Prop
  | .allocate start amount _ _ cr3 => align cr3 = R ∧ ∀ a ∈ Machine.allocatePages start amount, pmlIndex a ≠ 510
  | .allocateMem ainfo _ _ cr3 _ =>
    align cr3 = R ∧ ∀ a ∈ Machine.allocatePages ainfo.start ainfo.amount, pmlIndex a ≠ 510
  | .allocatePhysret blockAddr _ _ _ cr3 => align cr3 = R ∧ pmlIndex blockAddr ≠ 510
  | .createPml4 => True
  | .deallocate start amount cr3 => align cr3 = R ∧ ∀ a ∈ Machine.deallocatePages start amount, pmlIndex a ≠ 510
  | .pageFault address _ _ => align m.activePage = R ∧ pmlIndex address ≠ 510
  | .memChangeType start amount _ _ cr3 =>
    align cr3 = R ∧ ∀ a ∈ pageRange start (add64 start (pageAlignUp amount)), pmlIndex a ≠ 510
  | .mapRange start endAddr tostart virtualMemory _ _ cr3 =>
    align cr3 = R ∧ ∀ offs ∈ pageRange 0 (sub64 endAddr start), pmlIndex (add64 tostart offs) ≠ 510 ∧
      (virtualMemory = true → pmlIndex (add64 start offs) ≠ 510)

/-- The condition on a call: where it walks in the user half with the kernel variant the tables are there,
and it frees no table and shares no frame that is not in use. -/
def PagingCall.KeepsOpen (m : Machine) : PagingCall → Prop
  | .allocate start amount kernel readonly cr3 =>
    Guarded (Machine.allocatePage kernel readonly cr3) (fun st va => st.2 = none → st.1.WalkReady va cr3 !kernel)
      (m, none) (Machine.allocatePages start amount) ∧
    ∀ addr, (run (Machine.allocatePage kernel readonly cr3) (m, none)
        (Machine.allocatePages start amount)).2 = some addr →
      ((run (Machine.allocatePage kernel readonly cr3) (m, none)
        (Machine.allocatePages start amount)).1.unlock .frame).DeallocateReady (align start) (addr - align start) cr3
  | .allocateMem ainfo kernel readonly cr3 stale => m.AllocateMemReady ainfo kernel readonly cr3 stale
  | .allocatePhysret blockAddr _ _ _ cr3 => m.WalkReady blockAddr cr3 false
  | .createPml4 => True
  | .deallocate start amount cr3 => m.DeallocateReady start amount cr3
  | .pageFault address errcode _ =>
    ∀ p, (m.getPage address m.activePage false false).1 = some p → bit errcode 0 = true →
      IsFrame m.framePool (align (m.load p)) ∨ Unmanaged m.framePool (align (m.load p))
  | .memChangeType start amount changeType newValue cr3 =>
    Guarded (Machine.changePage changeType newValue cr3) (fun st va => st.2 = false → st.1.WalkReady va cr3 false)
      (m.lock .tlb, false) (pageRange start (add64 start (pageAlignUp amount)))
  | .mapRange start endAddr tostart virtualMemory readonly kernel cr3 =>
    Guarded (Machine.mapPage start tostart virtualMemory readonly kernel cr3)
      (Machine.MapReady start tostart virtualMemory kernel cr3) (m.lock .tlb, none) (pageRange 0 (sub64 endAddr start))

section Runs

variable {R : ℕ} {m : Machine}

/-- A call that meets its condition keeps the halves. -/
theorem Halved.exec (h : Halved R m) {c : PagingCall} (hon : c.On R m) (hopen : c.KeepsOpen m) : Halved R (c.exec m) := by
  cases c with
  | allocate start amount kernel readonly cr3 => exact h.allocate hon.1 hon.2 hopen.1 hopen.2
  | allocateMem ainfo kernel readonly cr3 stale => exact h.allocateMem hon.1 hon.2 hopen
  | allocatePhysret blockAddr kernel rw exec cr3 =>
    obtain ⟨tag, h⟩ := h
    obtain ⟨tag', h', -, hslot⟩ := h.getPage hon.1 hon.2 hopen
    unfold PagingCall.exec Machine.allocatePhysret
    dsimp only
    split
    next => exact ⟨tag', h'⟩
    next p hp => exact ⟨tag', h'.allocateFrame (hslot p hp).1 kernel rw exec⟩
  | createPml4 => exact h.createPml4
  | deallocate start amount cr3 => exact h.deallocate hon.1 hon.2 hopen
  | pageFault address errcode stale => exact h.pageFault hon.1 hon.2 stale hopen
  | memChangeType start amount changeType newValue cr3 =>
    have hrun := (Guarded.and_mem hopen hon.2).invariant (fun st => Halved R st.1)
      (fun st a hst hguard => hst.changePage hon.1 hguard.1 changeType newValue hguard.2)
      (show Halved R (m.lock .tlb) from h.same rfl rfl)
    unfold PagingCall.exec Machine.memChangeType
    dsimp only
    split
    · exact hrun
    · exact hrun.same rfl rfl
  | mapRange start endAddr tostart virtualMemory readonly kernel cr3 => exact h.mapRange hon.1 hon.2 hopen

/-- The entries of the pml4, the pointer table and the directory on the path of an address. -/
def Machine.upperEntries (m : Machine) (va cr3 : ℕ) : List ℕ :=
  let pml := m.memory (align cr3) (pmlIndex va)
  let ptr := m.memory (align pml) (directoryPtrIndex va)
  let dir := m.memory (align ptr) (directoryIndex va)
  [pml, ptr, dir]

/-- User mappings are reachable from user mode: above a present leaf entry of the user half that
has the user bit, every entry has it. -/
def Machine.UserReachable (m : Machine) (cr3 : ℕ) : Prop :=
  ∀ va p, pmlIndex va < 256 → (m.getPage va cr3 false false).1 = some p → present (m.load p) = true →
    bit (m.load p) 2 = true → ∀ w ∈ m.upperEntries va cr3, bit w 2 = true

/-- Where the user half is open, user mappings are reachable. -/
theorem Halved.userReachable (h : Halved R m) {cr3 : ℕ} (hcr3 : align cr3 = R) : m.UserReachable cr3 := by
  obtain ⟨tag, h⟩ := h
  intro va p hlow hpage _ _
  have hhalf : userHalf (pmlIndex va) = true := decide_eq_true hlow
  rw [m.getPage_false cr3 false (by omega), hcr3] at hpage
  obtain ⟨pt, hwalk, -⟩ := Option.map_eq_some_iff.mp hpage
  obtain ⟨pdpt, pdir, hchild₀, hchild₁, hchild₂, hplace₁, hplace₂, -⟩ := h.path hwalk
  have hpdpt := (present_align_of_child (by decide) hchild₀).2
  have hpdir := (present_align_of_child (by decide) hchild₁).2
  unfold Machine.upperEntries
  rw [hcr3]
  dsimp only
  rw [hpdpt, hpdir]
  simp only [List.forall_mem_cons, List.not_mem_nil, false_implies, implies_true, and_true]
  exact ⟨(h.sided.link (above_root R tag va) hchild₀).2 hhalf, (h.sided.link hplace₁ hchild₁).2 hhalf,
    (h.sided.link hplace₂ hchild₂).2 hhalf⟩

/-- A new address space: its user half is empty, no free frame is one of its tables, and its tables
in the pool, those of the kernel half, are linked once. -/
structure NewSpace (R : ℕ) (m : Machine) : Prop where
  pool : PoolInv m.framePool
  nonempty : m.framePool ≠ []
  high : ∀ f, IsFrame m.framePool f → 0x200000 ≤ f
  below : ∀ s ∈ m.framePool, s.endWord ≤ 2 ^ 62
  cow : CowFree m.framePool
  leveled : paging.Leveled m.memory {R}
  held : ∀ f ∈ freeFrames m.framePool, ¬ paging.IsTable m.memory {R} f
  named : ∀ T, paging.IsTable m.memory {R} T → IsFrame m.framePool T ∨ Unmanaged m.framePool T
  single : ∀ l l', l + 1 < 4 → l' + 1 < 4 → ∀ T ∈ paging.tables m.memory {R} l, ∀ T' ∈ paging.tables m.memory {R} l',
    ∀ i ∈ paging.slots, ∀ i' ∈ paging.slots, ∀ C, IsFrame m.framePool C →
      paging.child l i (m.memory T i) = some C → paging.child l' i' (m.memory T' i') = some C → T = T' ∧ i = i'
  empty : ∀ i < 256, present (m.memory R i) = false

/-- In a new address space every table is of the kernel half. -/
theorem NewSpace.halved (h : NewSpace R m) : Halved R m := by
  have hside : ∀ i ∈ paging.slots, paging.child 0 i (m.memory R i) ≠ none → userHalf i = false := by
    intro i _ hlinked
    by_contra hhalf
    have hlow : i < 256 := by simpa [userHalf] using hhalf
    exact hlinked (child_of_not_present (h.empty i hlow))
  obtain ⟨tag, hsided, htable⟩ : ∃ tag, paging.Sided R userHalf Opens (IsFrame m.framePool) tag m.memory ∧
      ∀ T, tag T ≠ none → paging.IsTable m.memory {R} T :=
    h.leveled.sided (by decide) false hside (fun _ hfalse => absurd hfalse (by decide)) h.single
  refine ⟨tag, h.pool, h.nonempty, h.high, h.below, h.cow, hsided, fun f hf => ?_, fun T hT => h.named T (htable T hT)⟩
  refine ⟨fun hroot => h.held f hf ⟨0, by decide, ?_⟩, ?_⟩
  · rw [hroot]
    exact Finset.mem_singleton_self R
  · by_contra htagged
    exact h.held f hf (htable f htagged)

end Runs

/-- In every run on a new address space whose calls all meet their condition, user mappings are
reachable from user mode. -/
theorem userMappings_reachable (R cr3 : ℕ) (hcr3 : align cr3 = R) (m : Machine) (hnew : NewSpace R m)
    (calls : List PagingCall) (hcalls : Guarded PagingCall.exec (fun m c => c.On R m ∧ c.KeepsOpen m) m calls) :
    (run PagingCall.exec m calls).UserReachable cr3 :=
  (hcalls.invariant (Halved R) (fun _ _ h hguard => h.exec hguard.1 hguard.2) hnew.halved).userReachable hcr3

/-- The blank machine is a new address space. -/
theorem blankMachine_newSpace : NewSpace 0x100000 blankMachine := by
  have hcounted : Counted {0x100000} blankMachine := blankSpaces_booted.counted
  have hchild (l i T : ℕ) : paging.child l i (blankMachine.memory T i) = none := child_zero l i
  refine {
    pool := hcounted.pool
    nonempty := hcounted.nonempty
    high := hcounted.high
    below := hcounted.below
    cow := hcounted.cow
    leveled := hcounted.leveled
    held := fun f hf => not_isTable_of_references (hcounted.growable.unreferenced f hf)
    named := ?_
    single := fun l _ _ _ T _ _ _ i _ _ _ C _ hC => absurd ((hchild l i T).symm.trans hC) (by simp)
    empty := fun _ _ => show present 0 = false by decide }
  rintro T ⟨l, -, hT⟩
  cases l with
  | zero =>
    obtain rfl : T = 0x100000 := Finset.mem_singleton.mp hT
    exact Or.inr (by unfold Unmanaged; decide +kernel)
  | succ l =>
    obtain ⟨T', -, i, -, hlinked⟩ := Links.mem_tables_succ.mp hT
    exact absurd ((hchild l i T').symm.trans hlinked) (by simp)

/-- A user page is mapped and its type changed, in the tables that are there. -/
theorem userMappings_reachable_blank :
    (run PagingCall.exec blankMachine
      [.allocate 0x400000 0x1000 false false 0x100000,
        .memChangeType 0x400000 0x1000 .rw true 0x100000]).UserReachable 0x100000 := by
  refine userMappings_reachable 0x100000 0x100000 (by decide) blankMachine blankMachine_newSpace _
    ⟨⟨⟨by decide, by decide⟩, .of_forall (fun _ _ _ _ => Or.inl rfl) _ _, fun addr haddr => ?_⟩,
      ⟨⟨by decide, by decide⟩, ⟨fun _ _ => Or.inr ?_, trivial⟩⟩, trivial⟩
  · have hdone : (run (Machine.allocatePage false false 0x100000) (blankMachine, none)
        (Machine.allocatePages 0x400000 0x1000)).2 = none := by decide +kernel
    rw [hdone] at haddr
    exact absurd haddr (by simp)
  · have hfound : ((((PagingCall.allocate 0x400000 0x1000 false false 0x100000).exec blankMachine).lock .tlb).getPage
        0x400000 0x100000 false false).1 = some ⟨0x203000, 0⟩ := by decide +kernel
    exact ne_of_eq_of_ne hfound (by simp)

/-- A user page is given a type before it is mapped. -/
def closedRun : List PagingCall :=
  [.memChangeType 0x400000 0x1000 .rw true 0x100000, .allocate 0x400000 0x1000 false false 0x100000]

/-- Changing the type of a page that has no tables creates them for the kernel, and the page mapped there
afterwards is out of reach. -/
theorem userMappings_reachable_fails :
    ¬ ∀ (R cr3 : ℕ), align cr3 = R → ∀ m : Machine, NewSpace R m → ∀ calls : List PagingCall,
      Guarded PagingCall.exec (fun m c => c.On R m) m calls → (run PagingCall.exec m calls).UserReachable cr3 := by
  intro hall
  have hopen := hall 0x100000 0x100000 (by decide) blankMachine blankMachine_newSpace closedRun
    ⟨⟨by decide, by decide⟩, ⟨by decide, by decide⟩, trivial⟩ 0x400000 ⟨0x203000, 0⟩ (by decide) (by decide +kernel)
    (by decide +kernel) (by decide +kernel)
  exact absurd hopen (by decide +kernel)

end Cthulhu
