import Cthulhu.Memory.Mirror
import Cthulhu.Memory.ModuleReturn
import Cthulhu.Process.KernelHalf

/-!
# The address space of the kernel

`entry.s` has seven page tables in its image. They map the lowest two megabytes to themselves and again behind the offset
of the kernel, and nothing else. While the frame pool is made, pages of its metadata are mapped in the lower half, and
`remap` moves the two pages of `_frame_block` about. `initialize_memory_mirror` then adds the mirror of the memory, the
kernel heap grows in a slot of its own, and `deallocate_start_memory` takes the lower half away. What is left at every other
address is the kernel, the mirror, or nothing.
-/

namespace Cthulhu

open Lib

/-- The tables of `entry.s`, from `_gpInitial_PML4` to `_gpInitial_PT_KS`, for the address that the first one is linked to. -/
def entryTables (pml4 : ℕ) : List (List ℕ) :=
  let pdpMirror := pml4 + 0x1000
  let pdpKs := pml4 + 0x2000
  let pdMirror := pml4 + 0x3000
  let pdKs := pml4 + 0x4000
  let ptMirror := pml4 + 0x5000
  let ptKs := pml4 + 0x6000
  [(pdpMirror + 3) :: (List.replicate 510 0 ++ [pdpKs + 3]),
    (pdMirror + 3) :: List.replicate 511 0,
    List.replicate 510 0 ++ [pdKs + 3, 0],
    (ptMirror + 3) :: List.replicate 511 0,
    (ptKs + 3) :: List.replicate 511 0,
    (List.range 512).map fun i => i * 4096 + 3,
    (List.range 512).map fun i => i * 4096 + 3]

/-- The memory has them where they are linked to. -/
def Machine.HoldsTables (m : Machine) (pml4 : ℕ) : Prop :=
  ∀ j t, (entryTables pml4)[j]? = some t → ∀ i w, t[i]? = some w → m.load ⟨pml4 + 0x1000 * j, i⟩ = w

/-- `deallocate_start_memory`. -/
def Machine.deallocateStartMemory (m : Machine) : Machine :=
  { m with memory := fun T i => if T = m.activePage ∧ i < 256 then 0 else m.memory T i }

/-- The tables of `entry.s` below the root. -/
def tablesAt (pml4 : ℕ) : BootTables :=
  ⟨pml4 + 0x1000, pml4 + 0x3000, pml4 + 0x5000, pml4 + 0x2000, pml4 + 0x4000, pml4 + 0x6000⟩

/-- What `entry.s` maps. -/
def entrySpace (va : ℕ) : Option ℕ :=
  if va < 0x200000 then some va
  else if 0xFFFFFFFF80000000 ≤ va ∧ va < 0xFFFFFFFF80200000 then some (va - 0xFFFFFFFF80000000)
  else none

/-- What is mapped when the kernel is up, with so many pages of 1 GB in the mirror. -/
def kernelSpace (pages va : ℕ) : Option ℕ :=
  if 0xFFFFFFFF80000000 ≤ va ∧ va < 0xFFFFFFFF80200000 then some (va - 0xFFFFFFFF80000000)
  else if addressOffset reservedRamMappings ≤ va ∧ va < addressOffset reservedRamMappings + 2 ^ 30 * pages then
    some (va - addressOffset reservedRamMappings)
  else none

/-- The kernel when it starts: its tables are those of the image, in the lowest two megabytes. -/
structure KernelStarted (m : Machine) (pml4 : ℕ) : Prop where
  tables : m.HoldsTables pml4
  aligned : pml4 % 0x1000 = 0
  low : pml4 + 0x7000 ≤ 0x200000
  root : m.activePage = pml4

/-- The entries of the two pages of `_frame_block`. -/
def InFrameBlock (frameBlock i : ℕ) : Prop := i = tableIndex frameBlock ∨ i = tableIndex (frameBlock + 0x1000)

instance (frameBlock i : ℕ) : Decidable (InFrameBlock frameBlock i) := inferInstanceAs (Decidable (_ ∨ _))

/-- The kernel's window through the tables of its image, but for the pages that are left out. -/
structure KernelWindow (m : Machine) (pml4 : ℕ) (except : ℕ → Prop) : Prop where
  aligned : pml4 % 0x1000 = 0
  low : pml4 + 0x7000 ≤ 0x200000
  root : m.activePage = pml4
  pml : m.load ⟨pml4, 511⟩ = pml4 + 0x2000 + 3
  pdp : m.load ⟨pml4 + 0x2000, 510⟩ = pml4 + 0x4000 + 3
  pd : ∀ i < 512, m.load ⟨pml4 + 0x4000, i⟩ = if i = 0 then pml4 + 0x6000 + 3 else 0
  pt : ∀ i < 512, ¬ except i → MapsFrame (m.load ⟨pml4 + 0x6000, i⟩) (4096 * i)

/-- The machine when the mirror is to be built: the upper half has the kernel's window and nothing else. Whatever is mapped in
the lower half by then, the root is still found there. -/
structure KernelLoaded (m : Machine) (pml4 kernelTmpHeapStart frameBlock : ℕ) : Prop where
  ready : MirrorReady m (tablesAt pml4) kernelTmpHeapStart
  window : KernelWindow m pml4 (InFrameBlock frameBlock)
  upper : ∀ i, 256 ≤ i → i < 511 → m.load ⟨pml4, i⟩ = 0
  beside : ∀ i < 512, i ≠ 510 → m.load ⟨pml4 + 0x2000, i⟩ = 0
  block : 0xFFFFFFFF80000000 ≤ frameBlock ∧ frameBlock + 0x2000 ≤ 0xFFFFFFFF80200000
  behind : pml4 + 0x7000 ≤ heapFrame m
  pool : PoolInv m.framePool
  below : ∀ s ∈ m.framePool, s.endWord ≤ 2 ^ 62

/-- What the calls of the kernel heap leave alone: every word of the lowest two megabytes but the entry of its slot. -/
structure HeapUsed (pml4 : ℕ) (m m' : Machine) : Prop where
  active : m'.activePage = m.activePage
  words : ∀ T < 0x200000, ∀ i, ¬ (T = pml4 ∧ i = reservedHeapMappings) → m'.memory T i = m.memory T i

/-- The call is one of the kernel heap and stays in its slot. -/
def HeapCall.OfHeap (st : KernelHeap) (c : HeapCall) : Prop :=
  c.OnSlot st ∧ match c with
    | .allocate _ => True
    | .deallocate _ _ => True
    | _ => False

section Tables

variable {m m' : Machine} {pml4 : ℕ}

/-- A table whose first entry only is used. -/
theorem getElem_cons_zeros {a n i : ℕ} (hi : i < n + 1) : (a :: List.replicate n 0)[i]? = some (if i = 0 then a else 0) := by
  cases i with
  | zero => rfl
  | succ i =>
    rw [List.getElem?_cons_succ, List.getElem?_replicate_of_lt (Nat.lt_of_succ_lt_succ hi)]
    rfl

/-- The entries of the tables that lead to other tables. -/
theorem Machine.HoldsTables.links (h : m.HoldsTables pml4) {i : ℕ} (hi : i < 512) :
    m.load ⟨pml4, i⟩ = (if i = 0 then pml4 + 0x1000 + 3 else if i = 511 then pml4 + 0x2000 + 3 else 0) ∧
      m.load ⟨pml4 + 0x1000, i⟩ = (if i = 0 then pml4 + 0x3000 + 3 else 0) ∧
      m.load ⟨pml4 + 0x2000, i⟩ = (if i = 510 then pml4 + 0x4000 + 3 else 0) ∧
      m.load ⟨pml4 + 0x3000, i⟩ = (if i = 0 then pml4 + 0x5000 + 3 else 0) ∧
      m.load ⟨pml4 + 0x4000, i⟩ = (if i = 0 then pml4 + 0x6000 + 3 else 0) := by
  refine ⟨?_, ?_, ?_, ?_, ?_⟩
  · apply h 0 _ rfl
    cases i with
    | zero => rfl
    | succ i =>
      rw [List.getElem?_cons_succ, List.getElem?_append]
      simp only [List.length_replicate]
      split
      · rw [List.getElem?_replicate_of_lt (by omega), if_neg (by omega), if_neg (by omega)]
      · obtain rfl : i = 510 := by omega
        rfl
  · exact h 1 _ rfl _ _ (getElem_cons_zeros (n := 511) hi)
  · apply h 2 _ rfl
    rw [List.getElem?_append]
    simp only [List.length_replicate]
    split
    · rw [List.getElem?_replicate_of_lt (by omega), if_neg (by omega)]
    · rcases (by omega : i = 510 ∨ i = 511) with rfl | rfl <;> rfl
  · exact h 3 _ rfl _ _ (getElem_cons_zeros (n := 511) hi)
  · exact h 4 _ rfl _ _ (getElem_cons_zeros (n := 511) hi)

/-- The entries of the tables that map pages. -/
theorem Machine.HoldsTables.pages (h : m.HoldsTables pml4) {i : ℕ} (hi : i < 512) :
    m.load ⟨pml4 + 0x5000, i⟩ = 4096 * i + 3 ∧ m.load ⟨pml4 + 0x6000, i⟩ = 4096 * i + 3 := by
  have hpage : ((List.range 512).map fun i => i * 4096 + 3)[i]? = some (4096 * i + 3) := by
    rw [List.getElem?_map, List.getElem?_range hi, Nat.mul_comm]
    rfl
  exact ⟨h 5 _ rfl _ _ hpage, h 6 _ rfl _ _ hpage⟩

/-- The kernel's window when it starts. -/
theorem KernelStarted.window (h : KernelStarted m pml4) : KernelWindow m pml4 fun _ => False where
  aligned := h.aligned
  low := h.low
  root := h.root
  pml := (h.tables.links (i := 511) (by decide)).1
  pdp := (h.tables.links (i := 510) (by decide)).2.2.1
  pd := fun i hi => (h.tables.links hi).2.2.2.2
  pt := fun i hi _ => by
    rw [(h.tables.pages hi).2]
    exact mapsFrame_boot hi

end Tables

section Walks

variable {m : Machine} {r pdp pd va : ℕ}

/-- An address whose upper bits are mixed is nowhere. -/
theorem translate_mixed (h : va / 2 ^ 47 ≠ 0 ∧ va / 2 ^ 47 ≠ 2 ^ 17 - 1) : m.hardwareTranslate va = none := if_pos h

/-- A walk that ends at the root. -/
theorem translate_root (hroot : entryFrame m.activePage = r) (hentry : m.load ⟨r, pmlIndex va⟩ = 0) :
    m.hardwareTranslate va = none := by
  unfold Machine.hardwareTranslate
  dsimp only
  rw [hroot, hentry]
  split <;> rfl

/-- A walk that ends at the second level. -/
theorem translate_second (hroot : entryFrame m.activePage = r) (hentry : entryFrame (m.load ⟨r, pmlIndex va⟩) = pdp)
    (hpdp : m.load ⟨pdp, directoryPtrIndex va⟩ = 0) : m.hardwareTranslate va = none := by
  unfold Machine.hardwareTranslate
  dsimp only
  rw [hroot, hentry, hpdp]
  split
  · rfl
  · split <;> rfl

/-- A walk that ends at the third level. -/
theorem translate_third (hroot : entryFrame m.activePage = r) (hentry : entryFrame (m.load ⟨r, pmlIndex va⟩) = pdp)
    (hpdp : entryFrame (m.load ⟨pdp, directoryPtrIndex va⟩) = pd) (hlarge : bit (m.load ⟨pdp, directoryPtrIndex va⟩) 7 = false)
    (hpd : m.load ⟨pd, directoryIndex va⟩ = 0) : m.hardwareTranslate va = none := by
  unfold Machine.hardwareTranslate
  dsimp only
  rw [hroot, hentry, hlarge, hpdp, hpd]
  split
  · rfl
  · split
    · rfl
    · split <;> rfl

/-- A walk that ends at a large page of the second level. -/
theorem translate_large {q : ℕ} (hcanonical : va / 2 ^ 47 = 0 ∨ va / 2 ^ 47 = 2 ^ 17 - 1) (hroot : entryFrame m.activePage = r)
    (hpresent : present (m.load ⟨r, pmlIndex va⟩) = true) (hentry : entryFrame (m.load ⟨r, pmlIndex va⟩) = pdp)
    (hpdp : m.load ⟨pdp, directoryPtrIndex va⟩ = directory1GB (2 ^ 30 * q)) (hq : q < 2 ^ 22) :
    m.hardwareTranslate va = some (2 ^ 30 * q + va % 2 ^ 30) := by
  unfold Machine.hardwareTranslate
  rw [if_neg (by omega)]
  dsimp only
  rw [hroot, hpresent, hentry, hpdp, directory1GB_present, directory1GB_large, directory1GB_address, Nat.mod_eq_of_lt hq]
  rfl

end Walks

section Boot

variable {m m' m'' : Machine} {pml4 kernelTmpHeapStart frameBlock k : ℕ} {except : ℕ → Prop}

/-- The rounds of the loop over pages of 1 GB, with what they have not come to yet. -/
structure MirrorExact (m : Machine) (t : BootTables) (k : ℕ) (m' : Machine) : Prop extends MirrorState m t k m' where
  rest : ∀ q, k ≤ q → q < 1022 → m'.load ⟨tableOfPage m t q, q % 512⟩ = 0

/-- The places of different pages are different. -/
theorem KernelLoaded.place_ne (h : KernelLoaded m pml4 kernelTmpHeapStart frameBlock) {q p : ℕ} (hlt : q < p) (hp : p < 1022) :
    ¬ (tableOfPage m (tablesAt pml4) p = tableOfPage m (tablesAt pml4) q ∧ p % 512 = q % 512) := by
  intro hsame
  exact (h.ready.tableOfPage_spec hp).2.2 q hlt ⟨hsame.1.symm, hsame.2.symm⟩

/-- The store of a page leaves the later ones away. -/
theorem MirrorExact.store (h : KernelLoaded m pml4 kernelTmpHeapStart frameBlock) (hk : k < 1022)
    (ha : MirrorExact m (tablesAt pml4) k m') : MirrorExact m (tablesAt pml4) (k + 1)
      (m'.store ⟨tableOfPage m (tablesAt pml4) k, k % 512⟩ (directory1GB (2 ^ 30 * k))) := by
  refine ⟨storePage_state h.ready hk ha.toMirrorState, fun q hq hlast => ?_⟩
  rw [load_store_elsewhere _ (h.place_ne hq hlast)]
  exact ha.rest q (Nat.le_of_succ_le hq) hlast

/-- The frame that is cleared. -/
theorem load_fill_self {a : Machine} {f w i : ℕ} : (a.fill f w).load ⟨f, i⟩ = w := by
  change Function.update a.memory f (fun _ => w) f i = w
  rw [Function.update_self]

/-- The first table is empty, and the kernel's one has no page of the mirror. -/
theorem KernelLoaded.firstTable (h : KernelLoaded m pml4 kernelTmpHeapStart frameBlock) : MirrorExact m (tablesAt pml4) 0
    ((({ m with framePool := m.framePool, tmpHeap := heapHead m + 0x1000 } : Machine).store ⟨m.activePage, 510⟩
      (tableEntry (heapFrame m) false)).fill (heapFrame m) 0) := by
  refine ⟨firstTable_state h.ready, fun q _ hlast => ?_⟩
  have hbehind := h.behind
  unfold tableOfPage
  split
  · exact load_fill_self
  · rw [load_fill_elsewhere (by dsimp only [tablesAt]; omega), load_store_elsewhere]
    · exact h.beside _ (Nat.mod_lt q (by decide)) (by omega)
    · dsimp only [tablesAt]
      rw [h.window.root]
      omega

/-- The first round. -/
theorem KernelLoaded.round_first (h : KernelLoaded m pml4 kernelTmpHeapStart frameBlock) :
    ∃ a, mirrorRound1GB m.framePool ({ m with framePool := [] }, false) (2 ^ 30 * 0) = (a, true) ∧
      MirrorExact m (tablesAt pml4) 1 a := by
  obtain ⟨hpml, hdirectory⟩ := @round_indices 0 (by decide)
  rw [if_pos (by decide)] at hpml
  have htable := h.firstTable
  have hentry : align (((({ m with framePool := [], tmpHeap := heapHead m + 0x1000 } : Machine).store ⟨m.activePage, 510⟩
      (tableEntry (heapFrame m) false)).fill (heapFrame m) 0).load ⟨m.activePage, 510⟩) = tableOfPage m (tablesAt pml4) 0 :=
    ((congrArg align htable.link).trans (align_tableEntry false h.ready.heapFrame_spec.1)).trans (if_pos (by decide)).symm
  refine ⟨_, ?_, MirrorExact.store h (by decide) htable⟩
  unfold mirrorRound1GB
  dsimp only
  rw [hpml, hdirectory, align_of_mod (h.window.root ▸ h.window.aligned), mirrorTable_first h.ready, hentry, if_neg Bool.false_ne_true]
  rw [store_withPool, fill_withPool, store_withPool]

/-- The loop, as long as it does not come to the kernel. -/
theorem KernelLoaded.rounds (h : KernelLoaded m pml4 kernelTmpHeapStart frameBlock) (hk : k < 1022) :
    ∃ a, mirrorRounds true kernelTmpHeapStart m (k + 1) = some (a, true) ∧ MirrorExact m (tablesAt pml4) (k + 1) a := by
  have hgoes {n : ℕ} (st : Machine × Bool) (hst : MirrorExact m (tablesAt pml4) n st.1) :
      (some st).filter (fun st => decide (st.1.FindsKernel kernelTmpHeapStart)) = some st :=
    Option.filter_some_pos (decide_eq_true (hst.findsKernel h.ready))
  induction k with
  | zero =>
    obtain ⟨a, hround, hstate⟩ := h.round_first
    refine ⟨a, ?_, hstate⟩
    rw [mirrorRounds_succ]
    change mirrorRound kernelTmpHeapStart m.framePool true ({ m with framePool := [] }, false) 0 = _
    rw [mirrorRound, if_pos rfl, hround, hgoes _ hstate]
  | succ k ih =>
    obtain ⟨a, hrounds, hstate⟩ := ih (Nat.lt_of_succ_lt hk)
    have hnext := hstate.store h hk
    refine ⟨_, ?_, hnext⟩
    rw [mirrorRounds_succ, hrounds, Option.bind_some, mirrorRound, if_pos rfl,
      mirrorRound1GB_later h.ready (by omega) hstate.toMirrorState, hgoes _ hnext]

/-- The root and the entries of `entry.s`, as the processor reads them. -/
theorem KernelWindow.frames (h : KernelWindow m pml4 except) :
    entryFrame pml4 = pml4 ∧ ∀ n < 7, entryFrame (pml4 + 0x1000 * n + 3) = pml4 + 0x1000 * n ∧
      present (pml4 + 0x1000 * n + 3) = true ∧ bit (pml4 + 0x1000 * n + 3) 7 = false := by
  have haligned := h.aligned
  have hlow := h.low
  constructor
  · unfold entryFrame
    omega
  · intro n hn
    obtain ⟨hpresent, hlarge, -, hframe⟩ := @bootEntry_spec (pml4 + 0x1000 * n) (by omega) (by omega)
    exact ⟨hframe, hpresent, hlarge⟩

/-- The walks through the tables of the window. -/
theorem KernelWindow.translate (h : KernelWindow m pml4 except) {va : ℕ} (hcanonical : va / 2 ^ 47 = 2 ^ 17 - 1)
    (hpml : pmlIndex va = 511) (hptr : directoryPtrIndex va = 510)
    (hpage : va < 0xFFFFFFFF80200000 → ¬ except (tableIndex va)) :
    m.hardwareTranslate va = if va < 0xFFFFFFFF80200000 then some (va - 0xFFFFFFFF80000000) else none := by
  have hdir : directoryIndex va < 512 := Nat.mod_lt _ (by decide)
  have hpd := h.pd _ hdir
  obtain ⟨haligned, hframes⟩ := h.frames
  have hwhole := h.aligned
  have hend := h.low
  split
  · next hlow =>
    have hzero : directoryIndex va = 0 := by
      unfold pmlIndex at hpml
      unfold directoryPtrIndex at hptr
      unfold directoryIndex
      omega
    have hsum : 4096 * tableIndex va + va % 2 ^ 12 = va - 0xFFFFFFFF80000000 := by
      unfold pmlIndex at hpml
      unfold directoryPtrIndex at hptr
      unfold directoryIndex at hzero
      unfold tableIndex
      omega
    rw [@translate_small _ _ (pml4 + 0x2000) (pml4 + 0x4000) (pml4 + 0x6000) (Or.inr hcanonical), hsum]
    · intro f hf
      simp only [h.root, List.mem_cons, List.not_mem_nil, or_false] at hf
      omega
    · rw [h.root, hpml, h.pml]
    · rw [hptr, h.pdp]
    · rw [hpd, hzero]
      rfl
    · exact h.pt _ (tableIndex_lt va) (hpage hlow)
  · next hhigh =>
    have hlater : directoryIndex va ≠ 0 := by
      unfold pmlIndex at hpml
      unfold directoryPtrIndex at hptr
      unfold directoryIndex
      omega
    apply @translate_third _ pml4 (pml4 + 0x2000) (pml4 + 0x4000)
    · rw [h.root, haligned]
    · rw [hpml, h.pml]
      exact (hframes 2 (by decide)).1
    · rw [hptr, h.pdp]
      exact (hframes 4 (by decide)).1
    · rw [hptr, h.pdp]
      exact (hframes 4 (by decide)).2.2
    · rw [hpd, if_neg hlater]

/-- What `entry.s` maps, for every address. -/
theorem KernelStarted.translate (h : KernelStarted m pml4) {va : ℕ} (hva : va < 2 ^ 64) :
    m.hardwareTranslate va = entrySpace va := by
  have hpml : pmlIndex va < 512 := Nat.mod_lt _ (by decide)
  have hptr : directoryPtrIndex va < 512 := Nat.mod_lt _ (by decide)
  have hdir : directoryIndex va < 512 := Nat.mod_lt _ (by decide)
  have htab : tableIndex va < 512 := Nat.mod_lt _ (by decide)
  obtain ⟨haligned, hframes⟩ := h.window.frames
  have hwhole := h.aligned
  have hend := h.low
  have hroot : entryFrame m.activePage = pml4 := by rw [h.root, haligned]
  have hpml4 := (h.tables.links hpml).1
  by_cases hmixed : va / 2 ^ 47 ≠ 0 ∧ va / 2 ^ 47 ≠ 2 ^ 17 - 1
  · rw [translate_mixed hmixed, entrySpace, if_neg (by omega), if_neg (by omega)]
  by_cases hfirst : pmlIndex va = 0
  · rw [if_pos hfirst] at hpml4
    have hpdp := (h.tables.links hptr).2.1
    by_cases hsecond : directoryPtrIndex va = 0
    · rw [if_pos hsecond] at hpdp
      have hpd := (h.tables.links hdir).2.2.2.1
      by_cases hthird : directoryIndex va = 0
      · rw [if_pos hthird] at hpd
        have hsum : 4096 * tableIndex va + va % 2 ^ 12 = va ∧ va / 2 ^ 47 = 0 ∧ va < 0x200000 := by
          unfold pmlIndex at hfirst
          unfold directoryPtrIndex at hsecond
          unfold directoryIndex at hthird
          unfold tableIndex
          omega
        rw [@translate_small _ _ (pml4 + 0x1000) (pml4 + 0x3000) (pml4 + 0x5000) (Or.inl hsum.2.1), hsum.1,
          entrySpace, if_pos hsum.2.2]
        · intro f hf
          simp only [h.root, List.mem_cons, List.not_mem_nil, or_false] at hf
          omega
        · rw [h.root, hpml4]
        · exact hpdp
        · exact hpd
        · rw [(h.tables.pages htab).1]
          exact mapsFrame_boot htab
      · have hhigh : ¬ va < 0x200000 ∧ va < 0xFFFFFFFF80000000 := by
          unfold pmlIndex at hfirst
          unfold directoryIndex at hthird
          omega
        rw [entrySpace, if_neg hhigh.1, if_neg (by omega)]
        apply @translate_third _ _ (pml4 + 0x1000) (pml4 + 0x3000) _ hroot
        · rw [hpml4]
          exact (hframes 1 (by decide)).1
        · rw [hpdp]
          exact (hframes 3 (by decide)).1
        · rw [hpdp]
          exact (hframes 3 (by decide)).2.2
        · rw [hpd, if_neg hthird]
    · have hhigh : ¬ va < 0x200000 ∧ va < 0xFFFFFFFF80000000 := by
        unfold pmlIndex at hfirst
        unfold directoryPtrIndex at hsecond
        omega
      rw [entrySpace, if_neg hhigh.1, if_neg (by omega)]
      apply @translate_second _ _ (pml4 + 0x1000) _ hroot
      · rw [hpml4]
        exact (hframes 1 (by decide)).1
      · rw [hpdp, if_neg hsecond]
  have hlow : ¬ va < 0x200000 := by
    unfold pmlIndex at hfirst
    omega
  rw [entrySpace, if_neg hlow]
  by_cases hlast : pmlIndex va = 511
  · rw [if_neg hfirst, if_pos hlast] at hpml4
    by_cases hkernel : directoryPtrIndex va = 510
    · have hcanonical : va / 2 ^ 47 = 2 ^ 17 - 1 ∧ 0xFFFFFFFF80000000 ≤ va := by
        unfold pmlIndex at hlast
        unfold directoryPtrIndex at hkernel
        omega
      rw [h.window.translate hcanonical.1 hlast hkernel fun _ => id]
      simp only [hcanonical.2, true_and]
    · have hnone : ¬ (0xFFFFFFFF80000000 ≤ va ∧ va < 0xFFFFFFFF80200000) := by
        unfold pmlIndex at hlast
        unfold directoryPtrIndex at hkernel
        omega
      rw [if_neg hnone]
      apply @translate_second _ _ (pml4 + 0x2000) _ hroot
      · rw [hpml4]
        exact (hframes 2 (by decide)).1
      · exact (h.tables.links hptr).2.2.1.trans (if_neg hkernel)
  · have hnone : ¬ (0xFFFFFFFF80000000 ≤ va ∧ va < 0xFFFFFFFF80200000) := by
      unfold pmlIndex at hlast
      omega
    rw [if_neg hnone]
    apply translate_root hroot
    rw [hpml4, if_neg hfirst, if_neg hlast]

/-- What the loops left at an entry, after the lower half is gone. -/
theorem load_deallocated (q : Slot) :
    m'.deallocateStartMemory.load q = if q.table = m'.activePage ∧ q.index < 256 then 0 else m'.load q := rfl

/-- The mirror leaves the kernel's window as it is. -/
theorem MirrorExact.window (h : KernelLoaded m pml4 kernelTmpHeapStart frameBlock)
    (ha : MirrorExact m (tablesAt pml4) k m') : KernelWindow m' pml4 (InFrameBlock frameBlock) := by
  have hbehind := h.behind
  have hroot := h.window.root
  have hsame (n i : ℕ) (hn : n = 0 ∨ n = 2 → i = 511 ∨ i = 510 ∧ n = 2) (hseven : n < 7) :
      m'.load ⟨pml4 + 0x1000 * n, i⟩ = m.load ⟨pml4 + 0x1000 * n, i⟩ := by
    apply ha.unchanged
    refine ⟨?_, fun hsame => ?_, fun hsame => ?_⟩
    · dsimp only
      omega
    · dsimp only at hsame
      omega
    · dsimp only [tablesAt] at hsame
      omega
  refine ⟨h.window.aligned, h.window.low, ha.root.trans hroot, ?_, ?_, fun i hi => ?_, fun i hi hout => ?_⟩
  · exact (hsame 0 511 (by omega) (by decide)).trans h.window.pml
  · exact (hsame 2 510 (by omega) (by decide)).trans h.window.pdp
  · exact (hsame 4 i (by omega) (by decide)).trans (h.window.pd i hi)
  · rw [hsame 6 i (by omega) (by decide)]
    exact h.window.pt i hi hout

/-- So do the calls of the heap, and the end of the lower half. -/
theorem KernelWindow.deallocated (h : KernelWindow m' pml4 except) (hused : HeapUsed pml4 m' m'') :
    KernelWindow m''.deallocateStartMemory pml4 except := by
  have haligned := h.aligned
  have hlow := h.low
  have hactive : m''.activePage = pml4 := hused.active.trans h.root
  have hsame (n i : ℕ) (hn : n = 0 → i = 511) (hseven : n < 7) :
      m''.deallocateStartMemory.load ⟨pml4 + 0x1000 * n, i⟩ = m'.load ⟨pml4 + 0x1000 * n, i⟩ := by
    rw [load_deallocated, if_neg (by dsimp only; omega)]
    refine hused.words _ (by dsimp only; omega) _ ?_
    unfold reservedHeapMappings
    dsimp only
    omega
  refine ⟨haligned, hlow, hactive, ?_, ?_, fun i hi => ?_, fun i hi hout => ?_⟩
  · exact (hsame 0 511 (fun _ => rfl) (by decide)).trans h.pml
  · exact (hsame 2 510 (by omega) (by decide)).trans h.pdp
  · exact (hsame 4 i (by omega) (by decide)).trans (h.pd i hi)
  · rw [hsame 6 i (by omega) (by decide)]
    exact h.pt i hi hout

/-- What is mapped when the mirror is there and the lower half is gone, outside the slot of the heap. -/
theorem MirrorExact.translate (h : KernelLoaded m pml4 kernelTmpHeapStart frameBlock) (hk : k ≤ 1022)
    (ha : MirrorExact m (tablesAt pml4) k m') (hused : HeapUsed pml4 m' m'') {va : ℕ} (hva : va < 2 ^ 64)
    (hheap : pmlIndex va ≠ reservedHeapMappings)
    (hblock : va / 0x1000 ≠ frameBlock / 0x1000 ∧ va / 0x1000 ≠ (frameBlock + 0x1000) / 0x1000) :
    m''.deallocateStartMemory.hardwareTranslate va = kernelSpace k va := by
  have hpml : pmlIndex va < 512 := Nat.mod_lt _ (by decide)
  have hptr : directoryPtrIndex va < 512 := Nat.mod_lt _ (by decide)
  have hwindow := (ha.window h).deallocated hused
  obtain ⟨haligned, hframes⟩ := hwindow.frames
  obtain ⟨hframe0, hheaplow, -⟩ := h.ready.heapFrame_spec
  have hend := h.window.low
  have hactive : m''.deallocateStartMemory.activePage = pml4 := hwindow.root
  have hroot : entryFrame m''.deallocateStartMemory.activePage = pml4 := by rw [hactive, haligned]
  have hused' (q : Slot) (hlow : q.table < 0x200000) (hslot : ¬ (q.table = pml4 ∧ q.index = reservedHeapMappings))
      (hhalf : q.table = pml4 → 256 ≤ q.index) : m''.deallocateStartMemory.load q = m'.load q := by
    rw [load_deallocated, if_neg]
    · exact hused.words _ hlow _ hslot
    · intro hsame
      have hroot' := hhalf (hsame.1.trans hactive)
      omega
  have hvacant (i : ℕ) (hi : 256 ≤ i) (hlink : i < 510) (hslot : i ≠ reservedHeapMappings) :
      m''.deallocateStartMemory.load ⟨pml4, i⟩ = 0 := by
    rw [hused' _ (by dsimp only; omega) (fun hsame => hslot hsame.2) fun _ => hi, ha.unchanged]
    · exact h.upper i hi (by omega)
    · have hbehind := h.behind
      refine ⟨?_, fun hsame => ?_, fun hsame => ?_⟩
      · dsimp only
        omega
      · dsimp only at hsame
        omega
      · dsimp only [tablesAt] at hsame
        omega
  have hplaces (q : ℕ) (hlast : q < 1022) : m''.deallocateStartMemory.load ⟨tableOfPage m (tablesAt pml4) q, q % 512⟩ =
      m'.load ⟨tableOfPage m (tablesAt pml4) q, q % 512⟩ := by
    have hroot' := (h.ready.tableOfPage_spec hlast).1
    rw [h.window.root] at hroot'
    refine hused' _ ?_ (fun hsame => hroot' hsame.1) fun hsame => absurd hsame hroot'
    dsimp only [tableOfPage]
    split
    · exact hheaplow
    · dsimp only [tablesAt]
      omega
  have hspace : ∀ q, k ≤ q → q < 1022 → m''.deallocateStartMemory.load ⟨tableOfPage m (tablesAt pml4) q, q % 512⟩ = 0 :=
    fun q hq hlast => (hplaces q hlast).trans (ha.rest q hq hlast)
  have hpage : ∀ q < k, m''.deallocateStartMemory.load ⟨tableOfPage m (tablesAt pml4) q, q % 512⟩ = directory1GB (2 ^ 30 * q) :=
    fun q hq => (hplaces q (by omega)).trans (ha.pages q hq)
  have hoffset : addressOffset reservedRamMappings = 0xFFFFFF0000000000 := by decide
  by_cases hmixed : va / 2 ^ 47 ≠ 0 ∧ va / 2 ^ 47 ≠ 2 ^ 17 - 1
  · rw [translate_mixed hmixed, kernelSpace, hoffset, if_neg (by omega), if_neg (by omega)]
  by_cases hlower : pmlIndex va < 510
  · have hnone : va < 0xFFFFFF0000000000 := by
      unfold pmlIndex at hlower
      omega
    rw [kernelSpace, hoffset, if_neg (by omega), if_neg (by omega)]
    apply translate_root hroot
    by_cases huser : pmlIndex va < 256
    · rw [load_deallocated, if_pos ⟨hactive.symm, huser⟩]
    · exact hvacant _ (by omega) hlower hheap
  have hcanonical : va / 2 ^ 47 = 2 ^ 17 - 1 := by
    unfold pmlIndex at hlower
    omega
  by_cases hlink : pmlIndex va = 510
  · have hentry : m''.deallocateStartMemory.load ⟨pml4, 510⟩ = tableEntry (heapFrame m) false := by
      have hslot : ¬ 510 = reservedHeapMappings := by decide
      rw [hused' _ (by dsimp only; omega) (fun hsame => hslot hsame.2) fun _ => Nat.le_of_lt_succ (by decide : 256 < 511)]
      exact (congrArg (fun r => m'.load ⟨r, 510⟩) h.window.root.symm).trans ha.link
    have hframe : entryFrame (tableEntry (heapFrame m) false) = heapFrame m :=
      (entryFrame_eq (by rw [align_tableEntry false hframe0]; omega)).trans (align_tableEntry false hframe0)
    have htable : tableOfPage m (tablesAt pml4) (directoryPtrIndex va) = heapFrame m := if_pos hptr
    have hmod : directoryPtrIndex va % 512 = directoryPtrIndex va := Nat.mod_eq_of_lt hptr
    have hplace : 0xFFFFFF0000000000 + 2 ^ 30 * directoryPtrIndex va + va % 2 ^ 30 = va := by
      unfold pmlIndex at hlink
      unfold directoryPtrIndex
      omega
    rw [kernelSpace, hoffset, if_neg (by omega)]
    by_cases hmapped : directoryPtrIndex va < k
    · have hentry' := hpage _ hmapped
      rw [htable, hmod] at hentry'
      rw [translate_large (Or.inr hcanonical) hroot (by rw [hlink, hentry, present_tableEntry]) (by rw [hlink, hentry, hframe])
        hentry' (by omega), if_pos (by omega)]
      refine congrArg some ?_
      omega
    · have hentry' := hspace (directoryPtrIndex va) (by omega) (by omega)
      rw [htable, hmod] at hentry'
      rw [translate_second hroot (by rw [hlink, hentry, hframe]) hentry', if_neg (by omega)]
  have hlast : pmlIndex va = 511 := by omega
  have hentry := hwindow.pml
  have hframe := (hframes 2 (by decide)).1
  have hbelow (q : ℕ) (hq : q = 512 + directoryPtrIndex va) : tableOfPage m (tablesAt pml4) q = pml4 + 0x2000 ∧
      q % 512 = directoryPtrIndex va := by
    refine ⟨?_, by omega⟩
    unfold tableOfPage
    rw [if_neg (by omega)]
    rfl
  have hplace : 0xFFFFFF8000000000 + 2 ^ 30 * directoryPtrIndex va + va % 2 ^ 30 = va := by
    unfold pmlIndex at hlast
    unfold directoryPtrIndex
    omega
  rcases lt_trichotomy (directoryPtrIndex va) 510 with hmirror | hkernel | hbehind'
  · obtain ⟨htable, hmod⟩ := hbelow _ rfl
    rw [kernelSpace, hoffset, if_neg (by omega)]
    by_cases hmapped : 512 + directoryPtrIndex va < k
    · have hentry' := hpage _ hmapped
      rw [htable, hmod] at hentry'
      rw [translate_large (Or.inr hcanonical) hroot (by rw [hlast, hentry]; exact (hframes 2 (by decide)).2.1)
        (by rw [hlast, hentry]; exact hframe) hentry' (by omega), if_pos (by omega)]
      refine congrArg some ?_
      omega
    · have hentry' := hspace (512 + directoryPtrIndex va) (by omega) (by omega)
      rw [htable, hmod] at hentry'
      rw [translate_second hroot (by rw [hlast, hentry]; exact hframe) hentry', if_neg (by omega)]
  · have hpage' : va < 0xFFFFFFFF80200000 → ¬ InFrameBlock frameBlock (tableIndex va) := by
      have hblock' := h.block
      unfold InFrameBlock
      intro hwithin hin
      unfold directoryPtrIndex at hkernel
      unfold tableIndex at hin
      omega
    rw [hwindow.translate hcanonical hlast hkernel hpage', kernelSpace, hoffset]
    split
    · rw [if_pos (by omega)]
    · rw [if_neg (by omega), if_neg (by omega)]
  · have hentry' : m''.deallocateStartMemory.load ⟨pml4 + 0x2000, directoryPtrIndex va⟩ = 0 := by
      rw [hused' _ (by dsimp only; omega) (fun hsame => absurd hsame.1 (by dsimp only; omega))
        fun hsame => absurd hsame (by dsimp only; omega), ha.unchanged]
      · exact h.beside _ hptr (by omega)
      · have hbehind := h.behind
        have hroot' := h.window.root
        refine ⟨?_, fun hsame => ?_, fun hsame => ?_⟩
        · dsimp only
          omega
        · dsimp only at hsame
          omega
        · dsimp only at hsame
          omega
    rw [kernelSpace, hoffset, if_neg (by omega), if_neg (by omega)]
    exact translate_second hroot (by rw [hlast, hentry]; exact hframe) hentry'

/-- The mirror is built with the heap still empty. -/
theorem MirrorExact.heapKept (h : KernelLoaded m pml4 kernelTmpHeapStart frameBlock)
    (ha : MirrorExact m (tablesAt pml4) k m') : HeapKept pml4 (· < 0x200000) m' := by
  have hbehind := h.behind
  have hlow := h.window.low
  have hempty : m'.memory pml4 reservedHeapMappings = 0 := by
    have hunused := h.upper reservedHeapMappings (by decide) (by decide)
    rw [← ha.unchanged ⟨pml4, reservedHeapMappings⟩] at hunused
    · exact hunused
    · have hother : ¬ reservedHeapMappings = 510 := by decide
      refine ⟨?_, fun hsame => hother hsame.2, fun hsame => ?_⟩
      · dsimp only
        omega
      · dsimp only [tablesAt] at hsame
        omega
  have hlink {l i T C : ℕ} {s : Unit} (hplace : heapLinks.Upper pml4 (fun _ => ()) (fun _ => none) l s T i) :
      heapLinks.child l i (m'.memory T i) ≠ some C := by
    cases hplace with
    | root _ _ =>
      intro hC
      obtain ⟨hpresent, -, hslot⟩ := heapLinks_child hC
      rw [hslot rfl, hempty] at hpresent
      exact absurd hpresent (by decide)
    | below hT _ _ => exact absurd hT (by simp)
  have hpool : PoolInv m'.framePool := ha.pool ▸ h.pool
  refine ⟨fun _ => none, hpool, ha.pool ▸ h.ready.pool, ha.pool ▸ h.below, ⟨rfl, fun hplace hC => absurd hC (hlink hplace),
    fun hC => absurd hC (by simp), fun _ hplace _ hC => absurd hC (hlink hplace)⟩, fun T hT => absurd rfl hT,
    fun f hf => ⟨?_, rfl⟩, fun _ _ => rfl, ?_, fun T s hT => absurd hT (by simp)⟩
  · have hhigh := ((hpool.mem_freeFrames f).mp hf).2.1
    omega
  · omega

/-- A call of the heap leaves the rest of the lowest two megabytes alone. -/
theorem HeapUsed.call {st : KernelHeap} {c : HeapCall} (haligned : pml4 % 0x1000 = 0) (hroot : m'.activePage = pml4)
    (h : HeapKept pml4 (· < 0x200000) st.machine ∧ HeapUsed pml4 m' st.machine) (hcall : c.OfHeap st) :
    HeapKept pml4 (· < 0x200000) (st.exec c).machine ∧ HeapUsed pml4 m' (st.exec c).machine := by
  obtain ⟨hkept, hused⟩ := h
  have hcr3 : align st.machine.activePage = pml4 := by
    rw [hused.active, hroot]
    exact align_of_mod haligned
  have hchange {pages : ℕ → Prop} {a : Machine} (hchange : HeapChange pml4 (· < 0x200000) pages st.machine a) :
      HeapKept pml4 (· < 0x200000) a ∧ HeapUsed pml4 m' a :=
    ⟨hchange.1, hchange.2.active.trans hused.active, fun T hT i hi => (hchange.2.kept T hT i hi).trans (hused.words T hT i hi)⟩
  obtain ⟨hslot, hheap⟩ := hcall
  cases c with
  | createPml4 => exact absurd hheap id
  | activate cr3 => exact absurd hheap id
  | allocate aamount =>
    have hmachine : (st.exec (.allocate aamount)).machine =
        (st.machine.allocate st.heapStart aamount true false st.machine.activePage).2 := by
      unfold KernelHeap.exec KernelHeap.kclibAllocate
      dsimp only
      split <;> rfl
    rw [hmachine]
    exact hchange (hkept.allocate hcr3 hslot true false)
  | deallocate afrom aamount => exact hchange (hkept.deallocate hcr3 hslot)

/-- The kernel's address space: when the kernel starts it is what `entry.s` maps, at every address, and when the mirror is
built, the heap used and the lower half gone it is the kernel and the mirror, at every address but those of the heap and the
two pages that `remap` moves. -/
theorem boot_address_space {m₀ : Machine} (hstarted : KernelStarted m₀ pml4)
    (h : KernelLoaded m pml4 kernelTmpHeapStart frameBlock) {maxram : ℕ} (hpos : 0 < maxram)
    (hmaxram : maxram ≤ 2 ^ 30 * 1022) :
    (∀ va < 2 ^ 64, m₀.hardwareTranslate va = entrySpace va) ∧
      ∃ m', initializeMemoryMirror true kernelTmpHeapStart maxram m = some m' ∧ m'.framePool = m.framePool ∧
        ∀ heapStart calls, Guarded KernelHeap.exec (fun st c => c.OfHeap st) ⟨m', heapStart, [pml4]⟩ calls →
          ∀ va < 2 ^ 64, pmlIndex va ≠ reservedHeapMappings →
            va / 0x1000 ≠ frameBlock / 0x1000 ∧ va / 0x1000 ≠ (frameBlock + 0x1000) / 0x1000 →
              (run KernelHeap.exec ⟨m', heapStart, [pml4]⟩ calls).machine.deallocateStartMemory.hardwareTranslate va =
                kernelSpace ((maxram + 2 ^ 30 - 1) / 2 ^ 30) va := by
  refine ⟨fun va hva => hstarted.translate hva, ?_⟩
  have hcount : (maxram + 2 ^ 30 - 1) / 2 ^ 30 - 1 + 1 = (maxram + 2 ^ 30 - 1) / 2 ^ 30 := by omega
  obtain ⟨m', hrounds, hstate⟩ := h.rounds (k := (maxram + 2 ^ 30 - 1) / 2 ^ 30 - 1) (by omega)
  rw [hcount] at hrounds hstate
  refine ⟨m', ?_, hstate.pool, fun heapStart calls hcalls va hva hheap hblock => ?_⟩
  · unfold initializeMemoryMirror mirrorRoundCount
    rw [if_pos rfl, hrounds]
    rfl
  · have hroot : m'.activePage = pml4 := hstate.root.trans h.window.root
    obtain ⟨-, hused⟩ := hcalls.invariant
      (fun st => HeapKept pml4 (· < 0x200000) st.machine ∧ HeapUsed pml4 m' st.machine)
      (fun st c hst hcall => HeapUsed.call h.window.aligned hroot hst hcall)
      ⟨hstate.heapKept h, rfl, fun _ _ _ _ => rfl⟩
    exact hstate.translate h (by omega) hused hva hheap hblock

end Boot

/-- A kernel that is linked to 1 MB, when it starts. -/
def startedMachine : Machine := { bootMachine with framePool := [] }

/-- It has the tables where they are linked to. -/
theorem startedMachine_started : KernelStarted startedMachine 0x100000 := by
  have htables : (List.range 7).map (fun j => (List.range 512).map fun i => bootMemory (0x100000 + 0x1000 * j) i) =
      entryTables 0x100000 := by decide +kernel
  refine ⟨fun j t ht i w hw => ?_, rfl, by decide, rfl⟩
  rw [← htables, List.getElem?_map] at ht
  obtain ⟨j', hj, rfl⟩ := Option.map_eq_some_iff.mp ht
  rw [List.getElem?_map] at hw
  obtain ⟨i', hi, rfl⟩ := Option.map_eq_some_iff.mp hw
  obtain ⟨hj', rfl⟩ := List.getElem?_eq_some_iff.mp hj
  obtain ⟨hi', rfl⟩ := List.getElem?_eq_some_iff.mp hi
  rw [List.getElem_range, List.getElem_range]
  rfl

/-- The kernel with one small section in its pool, whose first page is mapped for the metadata. -/
def loadedMachine : Machine :=
  { ((mapMetadataPage 0x100000 startedMachine 0x200000).getD startedMachine) with framePool := [smallRegion.build] }

/-- It has its window and nothing else in the upper half. -/
theorem loadedMachine_loaded : KernelLoaded loadedMachine 0x100000 0xFFFFFFFF80180000 0xFFFFFFFF80107000 where
  ready := by refine ⟨List.cons_ne_nil _ _, ?_, ?_, ?_, ?_, ?_, ?_, ?_, ?_⟩ <;> decide +kernel
  window := by refine ⟨by decide, by decide, ?_, ?_, ?_, ?_, ?_⟩ <;> decide +kernel
  upper := by
    have hupper : ∀ i < 511, 256 ≤ i → loadedMachine.load ⟨0x100000, i⟩ = 0 := by decide +kernel
    exact fun i hlow hi => hupper i hi hlow
  beside := by decide +kernel
  block := by decide
  behind := by decide +kernel
  pool := blankMachine_pool
  below := by
    intro s hs
    rw [List.mem_singleton.mp hs]
    decide

/-- It comes to its address space, with a page of the heap in it. -/
theorem boot_address_space_loadedMachine :
    startedMachine.hardwareTranslate 0x200000 = none ∧
      ∃ m', initializeMemoryMirror true 0xFFFFFFFF80180000 (2 ^ 30 * 4) loadedMachine = some m' ∧
        ∀ va ∈ [0x100000, 0x200000, 0xFFFFFFFF80100000, 0xFFFFFF0000200000],
          (run KernelHeap.exec ⟨m', 0xFFFFFE8000000000, [0x100000]⟩
            [.allocate 0x1000]).machine.deallocateStartMemory.hardwareTranslate va = kernelSpace 4 va := by
  obtain ⟨hstart, m', hbuilt, -, htranslate⟩ :=
    boot_address_space startedMachine_started loadedMachine_loaded (show 0 < 2 ^ 30 * 4 by decide) (by decide)
  refine ⟨(hstart _ (by decide)).trans (by decide), m', hbuilt, fun va hva => ?_⟩
  have hvas : ∀ va ∈ [0x100000, 0x200000, 0xFFFFFFFF80100000, 0xFFFFFF0000200000], va < 2 ^ 64 ∧
      pmlIndex va ≠ reservedHeapMappings ∧
        va / 0x1000 ≠ 0xFFFFFFFF80107000 / 0x1000 ∧ va / 0x1000 ≠ (0xFFFFFFFF80107000 + 0x1000) / 0x1000 := by decide
  obtain ⟨hlt, hslot, hblock⟩ := hvas va hva
  have hpages : ∀ a ∈ Machine.allocatePages 0xFFFFFE8000000000 0x1000, pmlIndex a = reservedHeapMappings := by decide +kernel
  exact htranslate _ [.allocate 0x1000] ⟨⟨hpages, True.intro⟩, True.intro⟩ va hlt hslot hblock

end Cthulhu
