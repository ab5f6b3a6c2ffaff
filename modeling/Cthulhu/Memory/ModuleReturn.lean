import Cthulhu.Memory.BootPool
import Cthulhu.Memory.PoolGeometry
import Cthulhu.Memory.TableTree

/-!
# Boot modules given back to the pool

`deallocate_starting_address` makes a section of a boot module's memory and appends it to the pool. Its address is
physical, and `get_module` passes one. `free_initramfs` passes the address at which the kernel reads the module,
which lies in the mirror of physical memory, and the section would record its frames there.

The walk to the last section goes along physical addresses, which the other functions of the pool convert
first. It reaches a section where the active page tables map its physical address to itself, as the boot
page tables do until `deallocate_start_memory` clears them; elsewhere it faults or reads other memory.

`make_pool` maps the pages of its metadata to themselves before it writes there. A page table that is missing on the way
takes a frame from the pool, that is from one of the earlier sections.
-/

namespace Cthulhu

open Lib

/-- `physical_to_virtual` once the mirror of physical memory is there. -/
def physicalToVirtual (paddress : ℕ) : ℕ := if paddress = 0 then 0 else add64 paddress 0xFFFFFF0000000000

/-- The physical address that the tables of a root map an address to. -/
def Machine.mapped (m : Machine) (cr3 a : ℕ) : Option ℕ :=
  if canonical a && present (m.pageEntry a cr3) then some (frameOf (m.pageEntry a cr3) + a % 0x1000) else none

/-- A section with its own address. -/
structure PlacedSection where
  base : ℕ
  info : SectionInfo

/-- The sections along the `next_section` links from `frame_pool` on, and the other globals of `paging.c` with the page
tables. -/
structure LinkedPool where
  sections : List PlacedSection
  machine : Machine

namespace LinkedPool

/-- The machine with these sections for its pool. -/
def loaded (pool : LinkedPool) : Machine := { pool.machine with framePool := pool.sections.map PlacedSection.info }

/-- The sections at their addresses, as a machine has left them. -/
def stored (pool : LinkedPool) (m : Machine) : LinkedPool :=
  ⟨List.zipWith (fun s info => ⟨s.base, info⟩) pool.sections m.framePool, m⟩

/-- The active page tables map the address to itself. -/
def Selfmapped (pool : LinkedPool) (a : ℕ) : Prop := pool.loaded.mapped pool.machine.activePage a = some a

instance (pool : LinkedPool) (a : ℕ) : Decidable (pool.Selfmapped a) := inferInstanceAs (Decidable (_ = _))

/-- The walk along the links reaches the last section, each of them at its physical address. -/
def reachesLast (pool : LinkedPool) : List PlacedSection → Bool
  | [] => false
  | [s] => pool.Selfmapped s.base
  | s :: next :: rest => pool.Selfmapped s.base && pool.reachesLast (next :: rest)

end LinkedPool

/-- The entry that `make_pool` gives a page of its metadata. -/
def metadataEntry (addr : ℕ) : ℕ := setBit (setBit (setBit addr 0 true) 1 true) 2 true

/-- A round of the loop of `make_pool` over its metadata; no value where it stores through `NULL`. -/
def mapMetadataPage (cr3 : ℕ) (m : Machine) (addr : ℕ) : Option Machine :=
  let r := m.getPage addr cr3 true false
  r.1.map fun p => r.2.store p (metadataEntry addr)

/-- The addresses that the loop goes through. -/
def metadataPages (size address : ℕ) : List ℕ := pageRange address (add64 address (poolMetadata size))

/-- `deallocate_starting_address`; no value where a link or the metadata is not mapped to itself, so that the access faults
or leaves the section elsewhere than its link says. A section at address zero is the `NULL` link that was there before. -/
def deallocateStartingAddress (stale : StaleMetadata) (pool : LinkedPool) (address size : ℕ) : Option LinkedPool :=
  if size < 0x10000 then some pool
  else if pool.reachesLast pool.sections then
    ((metadataPages size address).foldlM (mapMetadataPage pool.machine.activePage) pool.loaded).bind fun m =>
      let pool := pool.stored m
      if (∀ s ∈ pool.sections.getLast?, pool.Selfmapped s.base) ∧ ∀ k < poolMetadata size, pool.Selfmapped (address + k)
      then some { pool with
        sections := pool.sections ++ if address = 0 then [] else [⟨address, makePool size address stale⟩] }
      else none
  else none

/-- `module->mod_end - module->mod_start`, a 32-bit difference. -/
def BootModule.size (m : BootModule) : ℕ := (m.modEnd + 2 ^ 32 - m.modStart) % 2 ^ 32

/-- A module with its name, the string at its `cmdline`. -/
structure NamedModule where
  name : List ℕ
  module : BootModule

/-- What `get_module` returns, with the size it stores when it found the module, and the pool it leaves. -/
structure ModuleResult where
  address : ℕ
  size : ℕ
  pool : LinkedPool

/-- `get_module`, with the address that `malloc` returns when the module is reallocated. -/
def getModule (stale : StaleMetadata) (pool : LinkedPool) (modules : List NamedModule) (name : List ℕ)
    (reallocate delete : Bool) (modNa : ℕ) : Option ModuleResult :=
  match modules.find? fun m => m.name = name with
  | none => some ⟨0, (modules.getLast?.map fun m => m.module.size).getD 0, pool⟩
  | some ⟨_, m⟩ =>
    if reallocate && modNa = 0 then some ⟨0, m.size, pool⟩
    else
      let moduleAddress := if reallocate then modNa else physicalToVirtual m.modStart
      if delete then (deallocateStartingAddress stale pool m.modStart m.size).map (⟨moduleAddress, m.size, ·⟩)
      else some ⟨moduleAddress, m.size, pool⟩

/-- The name `initrd`. -/
def initrdName : List ℕ := [0x69, 0x6E, 0x69, 0x74, 0x72, 0x64]

/-- `free_initramfs`, with the module and its size as `init_initramfs` obtained them. -/
def freeInitramfs (stale : StaleMetadata) (pool : LinkedPool) (modules : List NamedModule) : Option LinkedPool :=
  (getModule stale pool modules initrdName false false 0).bind fun r =>
    deallocateStartingAddress stale r.pool r.address r.size

/-- The calls that give a module back. -/
inductive ReturnCall
  | getModule (name : List ℕ) (reallocate : Bool) (modNa : ℕ)
  | freeInitramfs
  deriving DecidableEq, Repr

namespace ReturnCall

/-- The name of the module that the call gives back. -/
def name : ReturnCall → List ℕ
  | getModule name _ _ => name
  | freeInitramfs => initrdName

/-- The call comes to `deallocate_starting_address` when it found the module: no reallocation failed. -/
def Deallocates : ReturnCall → Prop
  | getModule _ reallocate modNa => reallocate = true → modNa ≠ 0
  | freeInitramfs => True

/-- The pool after the call. -/
def run (stale : StaleMetadata) (pool : LinkedPool) (modules : List NamedModule) : ReturnCall → Option LinkedPool
  | getModule name reallocate modNa =>
    (Cthulhu.getModule stale pool modules name reallocate true modNa).map ModuleResult.pool
  | freeInitramfs => Cthulhu.freeInitramfs stale pool modules

/-- The address that the call passes to `deallocate_starting_address`. -/
def address (m : BootModule) : ReturnCall → ℕ
  | getModule _ _ _ => m.modStart
  | freeInitramfs => physicalToVirtual m.modStart

end ReturnCall

/-- Two sections have no address in common, their metadata included. -/
def PlacedSection.Apart (s t : PlacedSection) : Prop := s.info.endWord ≤ t.base ∨ t.info.endWord ≤ s.base

/-- One section was appended, its frames are physical pages of the module, and it meets no earlier section. -/
structure Returned (m : BootModule) (before after : LinkedPool) (s : PlacedSection) : Prop where
  appended : after.sections = before.sections ++ [s]
  inside : ∀ i < s.info.totalFrames, m.modStart ≤ (s.info.elements i).frameAddress ∧
    (s.info.elements i).frameAddress + 0x1000 ≤ m.modStart + m.size
  apart : ∀ t ∈ before.sections, t.Apart s

/-- The call gives the module back to the pool. -/
def ReturnsModule (stale : StaleMetadata) (pool : LinkedPool) (modules : List NamedModule) (m : BootModule)
    (c : ReturnCall) : Prop :=
  ∃ after s, c.run stale pool modules = some after ∧ Returned m pool after s

/-- The pool has sections, and the active page tables map the address of each to itself. -/
def LinkedPool.Identity (pool : LinkedPool) : Prop := pool.sections ≠ [] ∧ ∀ s ∈ pool.sections, pool.Selfmapped s.base

/-- The page tables for the pages of the metadata are there. -/
def LinkedPool.TablesReady (pool : LinkedPool) (size address : ℕ) : Prop :=
  ∀ a ∈ metadataPages size address, (pool.loaded.getPage a pool.machine.activePage false false).1 ≠ none

/-- The loop of `make_pool` goes on by a page from the address, and may leave out the page of the last bytes where the
address is within a page. They are mapped to themselves then. -/
def LinkedPool.TailReady (pool : LinkedPool) (size address : ℕ) : Prop :=
  ∀ k < poolMetadata size, (∀ a ∈ metadataPages size address, ¬ SamePage (address + k) a) → pool.Selfmapped (address + k)

/-- No existing section has an address of the module. -/
def LinkedPool.Without (pool : LinkedPool) (m : BootModule) : Prop :=
  ∀ t ∈ pool.sections, t.info.endWord ≤ m.modStart ∨ m.modStart + m.size ≤ t.base

section Mapping

variable {cr3 : ℕ} {m m' : Machine} {pages : List ℕ}

/-- What the loop of `make_pool` over its metadata leaves. -/
structure MetadataMapped (cr3 : ℕ) (pages : List ℕ) (m m' : Machine) : Prop where
  active : m'.activePage = m.activePage
  length : m'.framePool.length = m.framePool.length
  fewer : (freeFrames m'.framePool).length ≤ (freeFrames m.framePool).length
  ready : (freeFrames m.framePool).length ≤ (freeFrames m'.framePool).length →
    ∀ a ∈ pages, ∃ pt, paging.walk m.memory 0 (align cr3) (indices a) = some pt
  outside : ∀ page, (∀ a ∈ pages, ¬ SamePage page a) → leafEntry m'.memory cr3 page = leafEntry m.memory cr3 page
  inside : ∀ page, (∃ a ∈ pages, SamePage page a) →
    ∃ a ∈ pages, SamePage page a ∧ leafEntry m'.memory cr3 page = metadataEntry a

/-- A level of a walk stays in the active address space. -/
theorem Machine.descend_activePage (m : Machine) (entry : Slot) (allocateNew user : Bool) :
    (m.descend entry allocateNew user).2.activePage = m.activePage := by
  have htaken : m.getFreeFrame.2.activePage = m.activePage := by
    unfold Machine.getFreeFrame
    split
    · rfl
    · dsimp only
      split <;> rfl
  unfold Machine.descend
  split
  · rfl
  · split
    · dsimp only
      split <;> exact htaken
    · rfl

/-- So does a round of the loop of `make_pool`. -/
theorem mapMetadataPage_activePage {a : ℕ} (hrun : mapMetadataPage cr3 m a = some m') :
    m'.activePage = m.activePage := by
  have hwalk : (m.getPage a cr3 true false).2.activePage = m.activePage := by
    unfold Machine.getPage
    dsimp only
    split
    · exact m.descend_activePage _ true false
    · split
      · rw [Machine.descend_activePage, Machine.descend_activePage]
      · split <;> rw [Machine.descend_activePage, Machine.descend_activePage, Machine.descend_activePage]
  unfold mapMetadataPage at hrun
  obtain ⟨p, -, rfl⟩ := Option.map_eq_some_iff.mp hrun
  exact hwalk

/-- A round that stores does it in the slot of its page. -/
theorem TableTree.mapMetadataPage (h : TableTree {align cr3} m) {a : ℕ} (hout : pmlIndex a ≠ 510)
    (hrun : Cthulhu.mapMetadataPage cr3 m a = some m') : TableTree {align cr3} m' ∧ MetadataMapped cr3 [a] m m' ∧
      ((freeFrames m.framePool).length ≤ (freeFrames m'.framePool).length → ∀ page,
        paging.walk m'.memory 0 (align cr3) (indices page) = paging.walk m.memory 0 (align cr3) (indices page)) := by
  have hroot : align cr3 ∈ ({align cr3} : Finset ℕ) := Finset.mem_singleton_self _
  obtain ⟨htree, hentries, hresult⟩ := h.getPage hroot hout false
  obtain ⟨hlength, hfewer, htaken⟩ := h.getPage_takes hroot hout false
  have hactive := mapMetadataPage_activePage hrun
  unfold Cthulhu.mapMetadataPage at hrun
  dsimp only at hrun
  rcases hresult with hnone | ⟨pt, hsome, hwalk⟩
  · rw [hnone] at hrun
    exact absurd hrun nofun
  · rw [hsome] at hrun
    obtain rfl := Option.some.inj hrun
    obtain ⟨htree', hstored⟩ := htree.store hroot hwalk (metadataEntry a)
    refine ⟨htree', ⟨hactive, hlength, hfewer, fun hle b hb => ?_, fun page hother => ?_, fun page hpage => ?_⟩,
      fun hle page => ?_⟩
    · rw [List.mem_singleton.mp hb]
      exact htaken (by rw [hsome]; simp) hle
    · rw [(hstored page).2 (hother a (List.mem_singleton_self a)), hentries cr3 page hroot]
    · obtain ⟨b, hb, hsame⟩ := hpage
      obtain rfl := List.mem_singleton.mp hb
      exact ⟨b, hb, hsame, (hstored page).1 hsame⟩
    · obtain ⟨pt', hwalk'⟩ := htaken (by rw [hsome]; simp) hle
      rw [htree.walk_store hroot hwalk, Machine.getPage_of_walk hwalk']

/-- The whole loop. -/
theorem TableTree.mapMetadata (h : TableTree {align cr3} m) (hout : ∀ a ∈ pages, pmlIndex a ≠ 510)
    (hrun : pages.foldlM (Cthulhu.mapMetadataPage cr3) m = some m') : MetadataMapped cr3 pages m m' := by
  induction pages generalizing m with
  | nil =>
    obtain rfl := Option.some.inj hrun
    exact ⟨rfl, rfl, Nat.le_refl _, fun _ a ha => absurd ha List.not_mem_nil, fun _ _ => rfl,
      fun _ ⟨a, ha, _⟩ => absurd ha List.not_mem_nil⟩
  | cons a pages ih =>
    rw [List.forall_mem_cons] at hout
    rw [List.foldlM_cons] at hrun
    obtain ⟨m₁, hround, hrest⟩ := Option.bind_eq_some_iff.mp hrun
    obtain ⟨htree, hfirst, hwalks⟩ := h.mapMetadataPage hout.1 hround
    have hlast := ih htree hout.2 hrest
    refine ⟨hlast.active.trans hfirst.active, hlast.length.trans hfirst.length, hlast.fewer.trans hfirst.fewer, fun hle => ?_, fun page hother => ?_,
      fun page hpage => ?_⟩
    · have hle₁ := hle.trans hlast.fewer
      refine List.forall_mem_cons.mpr ⟨hfirst.ready hle₁ a (List.mem_singleton_self a), fun b hb => ?_⟩
      obtain ⟨pt, hwalk⟩ := hlast.ready (hfirst.fewer.trans hle) b hb
      exact ⟨pt, (hwalks hle₁ b).symm.trans hwalk⟩
    · rw [List.forall_mem_cons] at hother
      rw [hlast.outside page hother.2]
      exact hfirst.outside page fun b hb => by rw [List.mem_singleton.mp hb]; exact hother.1
    · by_cases hlater : ∃ b ∈ pages, SamePage page b
      · obtain ⟨b, hb, hsame, hentry⟩ := hlast.inside page hlater
        exact ⟨b, List.mem_cons_of_mem a hb, hsame, hentry⟩
      · obtain ⟨b, hb, hsame⟩ := hpage
        have hba := (List.mem_cons.mp hb).resolve_right fun hmem => hlater ⟨b, hmem, hsame⟩
        rw [hba] at hsame
        push Not at hlater
        obtain ⟨c, hc, hsame', hentry⟩ := hfirst.inside page ⟨a, List.mem_singleton_self a, hsame⟩
        rw [List.mem_singleton.mp hc] at hsame' hentry
        exact ⟨a, List.mem_cons_self, hsame', (hlast.outside page hlater).trans hentry⟩

/-- The loop keeps the trees. -/
theorem TableTree.mapMetadata_tree (h : TableTree {align cr3} m) (hout : ∀ a ∈ pages, pmlIndex a ≠ 510)
    (hrun : pages.foldlM (Cthulhu.mapMetadataPage cr3) m = some m') : TableTree {align cr3} m' := by
  induction pages generalizing m with
  | nil =>
    obtain rfl := Option.some.inj hrun
    exact h
  | cons a pages ih =>
    rw [List.forall_mem_cons] at hout
    rw [List.foldlM_cons] at hrun
    obtain ⟨m₁, hround, hrest⟩ := Option.bind_eq_some_iff.mp hrun
    exact ih (h.mapMetadataPage hout.1 hround).1 hout.2 hrest

/-- With its tables there the loop takes no frame. -/
theorem TableTree.mapMetadata_ready (h : TableTree {align cr3} m) (hout : ∀ a ∈ pages, pmlIndex a ≠ 510)
    (hready : ∀ a ∈ pages, ∃ pt, paging.walk m.memory 0 (align cr3) (indices a) = some pt) :
    ∃ m', pages.foldlM (Cthulhu.mapMetadataPage cr3) m = some m' ∧ m'.framePool = m.framePool := by
  have hroot : align cr3 ∈ ({align cr3} : Finset ℕ) := Finset.mem_singleton_self _
  induction pages generalizing m with
  | nil => exact ⟨m, rfl, rfl⟩
  | cons a pages ih =>
    rw [List.forall_mem_cons] at hout hready
    obtain ⟨pt, hwalk⟩ := hready.1
    have hround : Cthulhu.mapMetadataPage cr3 m a = some (m.store ⟨pt, tableIndex a⟩ (metadataEntry a)) := by
      unfold Cthulhu.mapMetadataPage
      rw [Machine.getPage_of_walk hwalk]
      rfl
    obtain ⟨m', hrest, hpool⟩ := ih (h.store hroot hwalk (metadataEntry a)).1 hout.2 fun b hb => by
      rw [h.walk_store hroot hwalk]
      exact hready.2 b hb
    refine ⟨m', ?_, hpool⟩
    rw [List.foldlM_cons, hround]
    exact hrest

/-- The entry of a page of the metadata leads to the page itself. -/
theorem metadataEntry_self {addr : ℕ} (haddr : addr < 2 ^ 62) :
    present (metadataEntry addr) = true ∧ frameOf (metadataEntry addr) = align addr := by
  unfold metadataEntry
  rw [frameOf_setBit_low _ _ (by decide), frameOf_setBit_low _ _ (by decide), frameOf_setBit_low _ _ (by decide),
    frameOf_of_lt haddr]
  refine ⟨?_, rfl⟩
  unfold present
  rw [bit_setBit_of_ne _ _ (by decide), bit_setBit_of_ne _ _ (by decide), bit_setBit_self]

end Mapping

section Return

variable {stale : StaleMetadata} {pool after : LinkedPool} {modules : List NamedModule} {m : BootModule} {c : ReturnCall}

/-- What an address that is mapped to itself has for an entry. -/
theorem LinkedPool.selfmapped_iff (pool : LinkedPool) (a : ℕ) : pool.Selfmapped a ↔ a < 2 ^ 47 ∧
    present (leafEntry pool.machine.memory pool.machine.activePage a) = true ∧
      frameOf (leafEntry pool.machine.memory pool.machine.activePage a) = align a := by
  have hframe (w : ℕ) : frameOf w < 2 ^ 62 := by
    unfold frameOf
    omega
  have halign : align a + a % 0x1000 = a := by
    unfold align
    omega
  unfold Selfmapped Machine.mapped
  by_cases hlow : a < 2 ^ 47
  · have hcanonical : canonical a = true := by
      unfold canonical
      exact (Bool.or_eq_true _ _).mpr (Or.inl (decide_eq_true hlow))
    have hslot : pmlIndex a ≠ 510 := by
      unfold pmlIndex
      omega
    rw [hcanonical, Bool.true_and, Machine.pageEntry_eq _ _ hslot,
      show pool.loaded.memory = pool.machine.memory from rfl]
    cases present (leafEntry pool.machine.memory pool.machine.activePage a) with
    | false => simp
    | true =>
      simp only [if_true, Option.some.injEq, true_and]
      omega
  · refine iff_of_false (fun hmapped => ?_) fun h => hlow h.1
    split at hmapped
    next hboth =>
      have hvalue := Option.some.inj hmapped
      have hcanonical := (Bool.and_eq_true _ _ ▸ hboth).1
      unfold canonical at hcanonical
      simp only [hlow, decide_false, Bool.false_or, decide_eq_true_eq] at hcanonical
      have hbound := hframe (pool.loaded.pageEntry a pool.machine.activePage)
      omega
    next => exact absurd hmapped nofun

/-- The walk reaches the last section exactly when every section is mapped to itself. -/
theorem LinkedPool.reachesLast_iff (pool : LinkedPool) : pool.reachesLast pool.sections = true ↔ pool.Identity := by
  unfold Identity
  generalize pool.sections = sections
  induction sections with
  | nil => simp [reachesLast]
  | cons s rest ih =>
    cases rest with
    | nil => simp [reachesLast]
    | cons next rest =>
      rw [reachesLast, Bool.and_eq_true, ih]
      simp

/-- The sections are as they were where the machine has left the pool as it was, and nowhere else. -/
theorem LinkedPool.stored_sections (pool : LinkedPool) {m : Machine} (hlength : m.framePool.length = pool.sections.length) :
    (pool.stored m).sections = pool.sections ↔ m.framePool = pool.loaded.framePool := by
  unfold stored loaded
  dsimp only
  generalize m.framePool = infos at hlength ⊢
  generalize pool.sections = sections at hlength ⊢
  induction sections generalizing infos with
  | nil => simpa using hlength
  | cons s rest ih =>
    cases infos with
    | nil => exact absurd hlength (by simp)
    | cons info infos =>
      rw [List.length_cons, List.length_cons, Nat.add_right_cancel_iff] at hlength
      rw [List.zipWith_cons_cons, List.cons.injEq, List.map_cons, List.cons.injEq, ih infos hlength]
      refine and_congr_left fun _ => ⟨fun h => congrArg PlacedSection.info h, fun h => by rw [h]⟩

/-- A call that found the module and whose reallocation succeeded deallocates it. -/
theorem ReturnCall.run_eq {name : List ℕ} (hfound : (modules.find? fun m => m.name = c.name) = some ⟨name, m⟩)
    (hreach : c.Deallocates) : c.run stale pool modules = deallocateStartingAddress stale pool (c.address m) m.size := by
  cases c with
  | getModule wanted reallocate modNa =>
    have hgo : ¬ (reallocate && decide (modNa = 0)) = true := by
      intro h
      rw [Bool.and_eq_true, decide_eq_true_eq] at h
      exact hreach h.1 h.2
    have hname : (modules.find? fun m => m.name = wanted) = some ⟨name, m⟩ := hfound
    rw [run, Cthulhu.getModule, hname]
    dsimp only
    rw [if_neg hgo, if_pos rfl, Option.map_map]
    exact Option.map_id'
  | freeInitramfs =>
    have hname : (modules.find? fun m => m.name = initrdName) = some ⟨name, m⟩ := hfound
    have hget : Cthulhu.getModule stale pool modules initrdName false false 0 =
        some ⟨physicalToVirtual m.modStart, m.size, pool⟩ := by
      rw [Cthulhu.getModule, hname]
      simp
    rw [run, Cthulhu.freeInitramfs, hget, Option.bind_some, address]

/-- The metadata lies in the region. -/
theorem poolMetadata_le {size address : ℕ} (hlarge : 0x10000 ≤ size) (hfits : address + size < 2 ^ 64) :
    add64 address (poolMetadata size) = address + poolMetadata size ∧ poolMetadata size ≤ size := by
  have hmetadata := poolMetadata_eq hlarge (by omega)
  have hbounds := poolStart_bounds hlarge hfits
  have hle : poolMetadata size ≤ size := by omega
  exact ⟨add64_of_lt (by omega), hle⟩

/-- The pages of metadata in the lower half. -/
theorem metadataPages_low {size address : ℕ} (hlarge : 0x10000 ≤ size) (hfits : address + size ≤ 2 ^ 47) :
    ∀ a ∈ metadataPages size address, a < 2 ^ 47 ∧ pmlIndex a ≠ 510 := by
  obtain ⟨hend, hmetadata⟩ := poolMetadata_le hlarge (show address + size < 2 ^ 64 by omega)
  intro a ha
  unfold metadataPages at ha
  rw [hend] at ha
  obtain ⟨-, -, hlt⟩ := mem_pageRange.mp ha
  unfold pmlIndex
  omega

/-- A deallocation of 64 KiB or more in the lower half appends a section when the walk stays in the pool and the metadata can be
mapped there. -/
theorem deallocateStartingAddress_eq (stale : StaleMetadata) {address size : ℕ} (hlarge : 0x10000 ≤ size)
    (hfits : address + size ≤ 2 ^ 47) (hidentity : pool.Identity) (haddress : address ≠ 0)
    (htree : TableTree {align pool.machine.activePage} pool.loaded) (hready : pool.TablesReady size address)
    (htail : pool.TailReady size address) : ∃ after, deallocateStartingAddress stale pool address size = some after ∧
      after.sections = pool.sections ++ [⟨address, makePool size address stale⟩] := by
  obtain ⟨hend, hmetadata⟩ := poolMetadata_le hlarge (show address + size < 2 ^ 64 by omega)
  have hpages := metadataPages_low hlarge hfits
  have hwalks (a : ℕ) (ha : a ∈ metadataPages size address) : ∃ pt,
      paging.walk pool.loaded.memory 0 (align pool.machine.activePage) (indices a) = some pt := by
    have hfound := hready a ha
    rw [Machine.getPage_false _ _ _ (hpages a ha).2] at hfound
    cases hwalk : paging.walk pool.loaded.memory 0 (align pool.machine.activePage) (indices a) with
    | none =>
      rw [hwalk] at hfound
      exact absurd rfl hfound
    | some pt => exact ⟨pt, rfl⟩
  obtain ⟨m, hrun, hpool⟩ := htree.mapMetadata_ready (fun a ha => (hpages a ha).2) hwalks
  have hmapped := htree.mapMetadata (fun a ha => (hpages a ha).2) hrun
  have hsections : (pool.stored m).sections = pool.sections :=
    (pool.stored_sections (hmapped.length.trans (List.length_map _))).mpr hpool
  -- a page of the metadata is mapped to itself now, and the others are mapped as before
  have hkept (a : ℕ) (hlow : a < 2 ^ 47)
      (hbefore : (∀ b ∈ metadataPages size address, ¬ SamePage a b) → pool.Selfmapped a) : (pool.stored m).Selfmapped a := by
    have hactive : (pool.stored m).machine.activePage = pool.machine.activePage := hmapped.active
    rw [LinkedPool.selfmapped_iff, hactive]
    by_cases hinside : ∃ b ∈ metadataPages size address, SamePage a b
    · obtain ⟨b, hb, hsame, hentry⟩ := hmapped.inside a hinside
      obtain ⟨hpresent, hframe⟩ := metadataEntry_self (show b < 2 ^ 62 by have hlow := (hpages b hb).1; omega)
      rw [show (pool.stored m).machine.memory = m.memory from rfl, hentry]
      refine ⟨hlow, hpresent, hframe.trans ?_⟩
      have hlow' := (hpages b hb).1
      unfold SamePage at hsame
      unfold align
      omega
    · push Not at hinside
      have hself := hbefore hinside
      rw [LinkedPool.selfmapped_iff] at hself
      rw [show (pool.stored m).machine.memory = m.memory from rfl, hmapped.outside a hinside]
      exact hself
  have hlast : ∀ s ∈ (pool.stored m).sections.getLast?, (pool.stored m).Selfmapped s.base := by
    intro s hs
    rw [hsections] at hs
    have hself := hidentity.2 s (List.mem_of_getLast? hs)
    exact hkept s.base ((pool.selfmapped_iff s.base).mp hself).1 fun _ => hself
  have hdata : ∀ k < poolMetadata size, (pool.stored m).Selfmapped (address + k) := fun k hk =>
    hkept (address + k) (by omega) (htail k hk)
  refine ⟨{ pool.stored m with sections := (pool.stored m).sections ++ [⟨address, makePool size address stale⟩] }, ?_,
    congrArg (· ++ _) hsections⟩
  unfold deallocateStartingAddress
  rw [if_neg (by omega), if_pos (pool.reachesLast_iff.mpr hidentity), hrun, Option.bind_some]
  dsimp only
  rw [if_pos ⟨hlast, hdata⟩, if_neg haddress]

/-- A deallocation that appends a section reached the last one and mapped its metadata, with the earlier sections left as they
were. -/
theorem deallocateStartingAddress_appended {address size : ℕ} {s : PlacedSection} (hlarge : 0x10000 ≤ size)
    (hrun : deallocateStartingAddress stale pool address size = some after)
    (happended : after.sections = pool.sections ++ [s]) :
    pool.Identity ∧ address ≠ 0 ∧ (s.base = address ∧ s.info = makePool size address stale) ∧
      ∃ m, (metadataPages size address).foldlM (mapMetadataPage pool.machine.activePage) pool.loaded = some m ∧
        (pool.stored m).sections = pool.sections ∧ ∀ k < poolMetadata size, (pool.stored m).Selfmapped (address + k) := by
  unfold deallocateStartingAddress at hrun
  rw [if_neg (by omega)] at hrun
  by_cases hreach : pool.reachesLast pool.sections = true
  · rw [if_pos hreach] at hrun
    obtain ⟨m, hfold, hend⟩ := Option.bind_eq_some_iff.mp hrun
    dsimp only at hend
    split at hend
    next hmapped =>
      obtain rfl := Option.some.inj hend
      dsimp only at happended
      have hlength : (pool.stored m).sections.length ≤ pool.sections.length := by
        simp [LinkedPool.stored]
      by_cases hzero : address = 0
      · rw [if_pos hzero, List.append_nil] at happended
        rw [happended, List.length_append, List.length_singleton] at hlength
        omega
      · rw [if_neg hzero] at happended
        obtain ⟨hkept, hnew⟩ := List.append_inj' happended rfl
        obtain rfl := List.singleton_inj.mp hnew
        exact ⟨pool.reachesLast_iff.mp hreach, hzero, ⟨rfl, rfl⟩, m, hfold, hkept, hmapped.2⟩
    next => exact absurd hend nofun
  · rw [if_neg hreach] at hrun
    exact absurd hrun nofun

/-- In the lower half the earlier sections are left as they were only where the page tables of the metadata were there. -/
theorem tablesReady_of_kept {address size : ℕ} {m : Machine} (hlarge : 0x10000 ≤ size) (hfits : address + size ≤ 2 ^ 47)
    (htree : TableTree {align pool.machine.activePage} pool.loaded)
    (hrun : (metadataPages size address).foldlM (mapMetadataPage pool.machine.activePage) pool.loaded = some m)
    (hkept : (pool.stored m).sections = pool.sections)
    (hself : ∀ k < poolMetadata size, (pool.stored m).Selfmapped (address + k)) :
    pool.TablesReady size address ∧ pool.TailReady size address := by
  have hpages := metadataPages_low hlarge hfits
  have hmapped := htree.mapMetadata (fun a ha => (hpages a ha).2) hrun
  have hpool : m.framePool = pool.loaded.framePool :=
    (pool.stored_sections (hmapped.length.trans (List.length_map _))).mp hkept
  refine ⟨fun a ha => ?_, fun k hk hother => ?_⟩
  · obtain ⟨pt, hwalk⟩ := hmapped.ready (by rw [hpool]) a ha
    rw [Machine.getPage_of_walk hwalk]
    exact Option.some_ne_none _
  · have hafter := hself k hk
    have hactive : (pool.stored m).machine.activePage = pool.machine.activePage := hmapped.active
    rw [LinkedPool.selfmapped_iff, hactive, show (pool.stored m).machine.memory = m.memory from rfl,
      hmapped.outside _ hother] at hafter
    exact (pool.selfmapped_iff _).mpr hafter

/-- The address at which the kernel reads a module. -/
theorem physicalToVirtual_eq (hstart : m.modStart < 2 ^ 32) (hzero : m.modStart ≠ 0) :
    physicalToVirtual m.modStart = m.modStart + 0xFFFFFF0000000000 := by
  rw [physicalToVirtual, if_neg hzero]
  exact add64_of_lt (by omega)

/-- A module that is given back at its own address: its section lies in it. -/
theorem moduleSection_inside (hlarge : 0x10000 ≤ m.size) (hfits : m.modStart + m.size < 2 ^ 64) {info : SectionInfo}
    (hinfo : info = makePool m.size m.modStart stale) : info.endWord = m.modStart + m.size ∧
      ∀ i < info.totalFrames, m.modStart ≤ (info.elements i).frameAddress ∧
        (info.elements i).frameAddress + 0x1000 ≤ m.modStart + m.size := by
  have hgeometry := makePool_geometry m.size m.modStart stale hlarge hfits
  have hlayout := makePool_layout hfits stale
  rw [← hinfo] at hgeometry hlayout
  simp only [SectionInfo.layout, Prod.mk.injEq] at hlayout
  refine ⟨hlayout.2.1, fun i hi => ?_⟩
  obtain ⟨-, -, hlow, hhigh⟩ := hgeometry.inside i hi
  exact ⟨by omega, hhigh⟩

/-- A module that is given back at an address of the mirror: its section has a frame that is none of its pages. -/
theorem mirrorSection_outside (hlarge : 0x10000 ≤ m.size) (hsize : m.size < 2 ^ 32) (hstart : m.modStart < 2 ^ 32)
    (hzero : m.modStart ≠ 0) {info : SectionInfo} (hinfo : info = makePool m.size (physicalToVirtual m.modStart) stale) :
    ∃ i < info.totalFrames, m.modStart + m.size < (info.elements i).frameAddress := by
  have hmirror := physicalToVirtual_eq hstart hzero
  have hgeometry := makePool_geometry m.size (physicalToVirtual m.modStart) stale hlarge (by omega)
  rw [← hinfo] at hgeometry
  have hframes := hgeometry.frames.2
  have hfirst := (hgeometry.inside 0 (by omega)).2.2.1
  exact ⟨0, by omega, by omega⟩

/-- When a module is given back: `get_module` does it where every section is mapped to itself, with a module in
memory that no section has and the page tables of its first pages there, and `free_initramfs` never does. -/
theorem returnsModule_iff (stale : StaleMetadata) (pool : LinkedPool) (modules : List NamedModule) (m : BootModule)
    (c : ReturnCall) (name : List ℕ) (hfound : (modules.find? fun m => m.name = c.name) = some ⟨name, m⟩)
    (hreach : c.Deallocates) (hstart : m.modStart < 2 ^ 32) (hlarge : 0x10000 ≤ m.size)
    (htree : pool.sections ≠ [] → TableTree {align pool.machine.activePage} pool.loaded) :
    ReturnsModule stale pool modules m c ↔
      c ≠ .freeInitramfs ∧ pool.Identity ∧ m.modStart ≠ 0 ∧ pool.Without m ∧ pool.TablesReady m.size m.modStart ∧
        pool.TailReady m.size m.modStart := by
  have hsize : m.size < 2 ^ 32 := Nat.mod_lt _ (by decide)
  unfold ReturnsModule
  rw [ReturnCall.run_eq hfound hreach]
  constructor
  · rintro ⟨after, s, hrun, hreturned⟩
    obtain ⟨hidentity, hzero, ⟨hbase, hinfo⟩, mapped, hfold, hkept, hself⟩ :=
      deallocateStartingAddress_appended hlarge hrun hreturned.appended
    cases c with
    | getModule _ _ _ =>
      obtain ⟨hend, -⟩ := moduleSection_inside hlarge (by omega) hinfo
      have hfits : m.modStart + m.size ≤ 2 ^ 47 := by omega
      obtain ⟨hready, htail⟩ := tablesReady_of_kept hlarge hfits (htree hidentity.1) hfold hkept hself
      refine ⟨nofun, hidentity, hzero, fun t ht => ?_, hready, htail⟩
      have hapart := hreturned.apart t ht
      rw [PlacedSection.Apart, hbase, hend] at hapart
      exact hapart
    | freeInitramfs =>
      have hmodule : m.modStart ≠ 0 := fun h => hzero (if_pos h)
      obtain ⟨i, hi, houtside⟩ := mirrorSection_outside hlarge hsize hstart hmodule hinfo
      have hinside := (hreturned.inside i hi).2
      omega
  · rintro ⟨hcall, hidentity, hzero, hwithout, hready, htail⟩
    cases c with
    | freeInitramfs => exact absurd rfl hcall
    | getModule _ _ _ =>
      obtain ⟨info, hinfo⟩ : ∃ info, info = makePool m.size m.modStart stale := ⟨_, rfl⟩
      obtain ⟨hend, hinside⟩ := moduleSection_inside hlarge (by omega) hinfo
      obtain ⟨after, hrun, hsections⟩ := deallocateStartingAddress_eq stale hlarge (by omega) hidentity hzero
        (htree hidentity.1) hready htail
      rw [← hinfo] at hsections
      refine ⟨after, ⟨m.modStart, info⟩, hrun, hsections, hinside, fun t ht => ?_⟩
      rw [PlacedSection.Apart, hend]
      exact hwithout t ht

end Return

/-- A module of 64 KiB named `initrd`. -/
def smallModule : NamedModule := ⟨initrdName, ⟨0x400000, 0x410000, 0x1000, 6⟩⟩

/-- A machine with one section, mapped to itself, and with a page table for the first page of the module. -/
def moduleMachine : Machine := ([0x200000, 0x400000].foldlM (mapMetadataPage 0x100000) blankMachine).getD blankMachine

/-- Its pool. -/
def bootPool : LinkedPool := ⟨moduleMachine.framePool.map fun s => ⟨0x200000, s⟩, moduleMachine⟩

/-- The machine got both pages. -/
theorem moduleMachine_mapped :
    TableTree {0x100000} moduleMachine ∧ MetadataMapped 0x100000 [0x200000, 0x400000] blankMachine moduleMachine := by
  have hsome : ([0x200000, 0x400000].foldlM (mapMetadataPage 0x100000) blankMachine).isSome = true := by decide +kernel
  obtain ⟨m, hrun⟩ := Option.isSome_iff_exists.mp hsome
  have hboot : moduleMachine = m := by
    unfold moduleMachine
    rw [hrun]
    rfl
  have hout : ∀ a ∈ [0x200000, 0x400000], pmlIndex a ≠ 510 := by decide
  rw [hboot]
  have htree : TableTree {align 0x100000} blankMachine := blankMachine_tableTree
  exact ⟨htree.mapMetadata_tree hout hrun, htree.mapMetadata hout hrun⟩

/-- The pool is the one of the machine. -/
theorem bootPool_loaded : bootPool.loaded = moduleMachine := by
  unfold LinkedPool.loaded bootPool
  dsimp only
  rw [List.map_map, show PlacedSection.info ∘ (fun s => ⟨0x200000, s⟩) = id from rfl, List.map_id]

/-- A mapped page has its table, and leads to itself. -/
theorem bootPool_page {a : ℕ} (ha : a = 0x200000 ∨ a = 0x400000) : bootPool.Selfmapped a ∧
    (bootPool.loaded.getPage a bootPool.machine.activePage false false).1 ≠ none := by
  obtain ⟨-, hmapped⟩ := moduleMachine_mapped
  have hactive : moduleMachine.activePage = 0x100000 := hmapped.active
  have hmem : a ∈ [0x200000, 0x400000] := by simpa using ha
  obtain ⟨b, hb, hsame, hentry⟩ := hmapped.inside a ⟨a, hmem, rfl⟩
  obtain rfl : a = b := by
    have hb' : b = 0x200000 ∨ b = 0x400000 := by simpa using hb
    unfold SamePage at hsame
    omega
  obtain ⟨hpresent, hframe⟩ := metadataEntry_self (show a < 2 ^ 62 by omega)
  rw [LinkedPool.selfmapped_iff, bootPool_loaded, show bootPool.machine = moduleMachine from rfl, hactive, hentry]
  refine ⟨⟨by omega, hpresent, hframe⟩, ?_⟩
  rw [Machine.getPage_false _ _ _ (by unfold pmlIndex; omega)]
  cases hwalk : paging.walk moduleMachine.memory 0 (align 0x100000) (indices a) with
  | none =>
    rw [leafEntry_of_none hwalk] at hentry
    rw [← hentry] at hpresent
    exact absurd hpresent (by decide)
  | some pt => exact Option.some_ne_none _

/-- The return of a module by `get_module`. -/
theorem returnsModule_iff_boot :
    ReturnsModule zeroMetadata bootPool [smallModule] smallModule.module (.getModule initrdName false 0) := by
  have hactive : bootPool.machine.activePage = 0x100000 := moduleMachine_mapped.2.active
  have hpages : metadataPages smallModule.module.size smallModule.module.modStart = [0x400000] := by decide +kernel
  have htree : TableTree {align bootPool.machine.activePage} bootPool.loaded := by
    rw [hactive, bootPool_loaded]
    exact moduleMachine_mapped.1
  have hlength : moduleMachine.framePool.length = 1 := moduleMachine_mapped.2.length
  have hidentity : bootPool.Identity := by
    refine ⟨fun hnil => ?_, fun s hs => ?_⟩
    · have hempty := congrArg List.length hnil
      rw [bootPool, List.length_map, hlength] at hempty
      exact absurd hempty (by decide)
    · obtain ⟨info, -, rfl⟩ := List.mem_map.mp hs
      exact (bootPool_page (Or.inl rfl)).1
  have hwithout : bootPool.Without smallModule.module := by
    intro t ht
    obtain ⟨info, hinfo, rfl⟩ := List.mem_map.mp ht
    have hends : ∀ info ∈ moduleMachine.framePool, info.endWord ≤ 0x400000 := by decide +kernel
    exact Or.inl (hends info hinfo)
  have hready : bootPool.TablesReady smallModule.module.size smallModule.module.modStart := by
    intro a ha
    rw [hpages] at ha
    exact (bootPool_page (Or.inr (List.mem_singleton.mp ha))).2
  have htail : bootPool.TailReady smallModule.module.size smallModule.module.modStart := by
    intro k hk hother
    have hsmall : poolMetadata smallModule.module.size ≤ 0x1000 := by decide
    refine absurd ?_ (hother 0x400000 (by rw [hpages]; exact List.mem_singleton_self _))
    have hstart : smallModule.module.modStart = 0x400000 := rfl
    unfold SamePage
    omega
  exact (returnsModule_iff zeroMetadata bootPool [smallModule] smallModule.module (.getModule initrdName false 0) initrdName
    rfl nofun (by decide) (by decide) fun _ => htree).mpr
      ⟨nofun, hidentity, by decide, hwithout, hready, htail⟩

/-- `free_initramfs` passes an address of the mirror, and the first frame of a section that is made there is an address of
the mirror. -/
theorem freeInitramfs_passes_mirror : freeInitramfs zeroMetadata bootPool [smallModule] =
      deallocateStartingAddress zeroMetadata bootPool 0xFFFFFF0000400000 0x10000 ∧
    ((makePool 0x10000 0xFFFFFF0000400000 zeroMetadata).elements 0).frameAddress = 0xFFFFFF0000401000 ∧
    ¬ ReturnsModule zeroMetadata bootPool [smallModule] smallModule.module .freeInitramfs := by
  have hfound : ([smallModule].find? fun m => m.name = ReturnCall.freeInitramfs.name) =
      some ⟨initrdName, smallModule.module⟩ := rfl
  have hsize : smallModule.module.size = 0x10000 := by decide
  have haddress : ReturnCall.freeInitramfs.address smallModule.module = 0xFFFFFF0000400000 := by decide
  have hcall : freeInitramfs zeroMetadata bootPool [smallModule] =
      deallocateStartingAddress zeroMetadata bootPool 0xFFFFFF0000400000 0x10000 := by
    have hrun : ReturnCall.freeInitramfs.run zeroMetadata bootPool [smallModule] = _ := ReturnCall.run_eq hfound True.intro
    rw [haddress, hsize] at hrun
    exact hrun
  have hmirror : physicalToVirtual smallModule.module.modStart = 0xFFFFFF0000400000 := haddress
  obtain ⟨info, hinfo⟩ : ∃ info, info = makePool 0x10000 0xFFFFFF0000400000 zeroMetadata := ⟨_, rfl⟩
  have hfirst : (info.elements 0).frameAddress = 0xFFFFFF0000401000 := by
    have hgeometry := makePool_geometry 0x10000 0xFFFFFF0000400000 zeroMetadata (by decide) (by decide)
    have hlayout := makePool_layout (show 0xFFFFFF0000400000 + 0x10000 < 2 ^ 64 by decide) zeroMetadata
    rw [← hinfo] at hgeometry hlayout
    simp only [SectionInfo.layout, Prod.mk.injEq] at hlayout
    rw [(hgeometry.inside 0 hgeometry.frames.2).1, hlayout.1]
    decide
  rw [← hinfo]
  refine ⟨hcall, hfirst, ?_⟩
  rintro ⟨after, s, hrun, hreturned⟩
  obtain ⟨-, -, ⟨-, hsection⟩, -⟩ :=
    deallocateStartingAddress_appended (by decide) (hcall.symm.trans hrun) hreturned.appended
  obtain ⟨i, hi, houtside⟩ := mirrorSection_outside (by decide) (by decide) (by decide) (by decide)
    (show s.info = makePool smallModule.module.size (physicalToVirtual smallModule.module.modStart) zeroMetadata by
      rw [hsize, hmirror]
      exact hsection)
  have hinside := (hreturned.inside i hi).2
  omega

end Cthulhu
