import Cthulhu.Lib.Run
import Cthulhu.Memory.GetPage
import Cthulhu.Memory.Translate

/-!
# The mirror of physical memory

`initialize_memory_mirror` maps physical memory behind the offset of the mirror, with pages of 1 GB where the processor
has them and of 4 KB where it does not. Meanwhile the frame pool is put aside, so that tables come from the temporary
heap. With large pages it is back after the first round; with small ones the test for its return compares a physical with
a virtual address and never holds. From 1022 GB on the large pages take the place of the kernel.
-/

namespace Cthulhu

open Lib

/-- The frame that an entry names, as the processor reads it. -/
def entryFrame (w : ℕ) : ℕ := 2 ^ 12 * (w / 2 ^ 12 % 2 ^ 40)

/-- The translation of an address by the processor, with large pages. -/
def Machine.hardwareTranslate (m : Machine) (va : ℕ) : Option ℕ :=
  if va / 2 ^ 47 ≠ 0 ∧ va / 2 ^ 47 ≠ 2 ^ 17 - 1 then none
  else
    let pml4e := m.load ⟨entryFrame m.activePage, pmlIndex va⟩
    if !present pml4e then none
    else
      let pdpte := m.load ⟨entryFrame pml4e, directoryPtrIndex va⟩
      if !present pdpte then none
      else if bit pdpte 7 then some (2 ^ 30 * (pdpte / 2 ^ 30 % 2 ^ 22) + va % 2 ^ 30)
      else
        let pde := m.load ⟨entryFrame pdpte, directoryIndex va⟩
        if !present pde then none
        else if bit pde 7 then some (2 ^ 21 * (pde / 2 ^ 21 % 2 ^ 31) + va % 2 ^ 21)
        else
          let pte := m.load ⟨entryFrame pde, tableIndex va⟩
          if !present pte then none else some (entryFrame pte + va % 2 ^ 12)

/-- The processor finds the kernel at its virtual address, and the tables at their physical ones. -/
def Machine.FindsKernel (m : Machine) (kernelTmpHeapStart : ℕ) : Prop :=
  m.hardwareTranslate kernelTmpHeapStart = some (kernelTmpHeapStart - 0xFFFFFFFF80000000) ∧
    m.hardwareTranslate m.activePage = some m.activePage

instance (m : Machine) (kernelTmpHeapStart : ℕ) : Decidable (m.FindsKernel kernelTmpHeapStart) :=
  inferInstanceAs (Decidable (_ ∧ _))

/-- The entry of a page of 1 GB: present, of that size, writable. -/
def directory1GB (start : ℕ) : ℕ := setBit (setBit (setBit start 0 true) 7 true) 1 true

/-- The entry of a page of 4 KB: present, writable, not for users. -/
def mirrorPage (start : ℕ) : ℕ := setBit (setBit (setBit start 0 true) 1 true) 2 false

section Rounds

variable (kernelTmpHeapStart : ℕ) (head : List SectionInfo)

/-- The table behind an entry of the root, made where it is missing. -/
def mirrorTable (m : Machine) (entry : Slot) : Machine :=
  if present (m.load entry) then m
  else
    let r := m.getFreeFrame
    let number := tableEntry r.1 false
    (r.2.store entry number).fill (align number) 0

/-- A round of the loop over pages of 1 GB. Beside the machine goes `first_set`. -/
def mirrorRound1GB (st : Machine × Bool) (start : ℕ) : Machine × Bool :=
  let vaddress := add64 start (addressOffset reservedRamMappings)
  let entry : Slot := ⟨align st.1.activePage, pmlIndex vaddress⟩
  let m := mirrorTable st.1 entry
  let pdpt := align (m.load entry)
  let m := m.store ⟨pdpt, directoryPtrIndex vaddress⟩ (directory1GB start)
  if st.2 then (m, true) else ({ m with framePool := head }, true)

/-- A round of the loop over pages of 4 KB. Without a table for the page it stores through `NULL`. -/
def mirrorRound4KB (st : Machine × Bool) (start : ℕ) : Option (Machine × Bool) :=
  let m := st.1
  let kend := add64 (sub64 kernelTmpHeapStart 0xFFFFFFFF80000000) 0x40000
  let st := if add64 kend 0x4000 ≥ m.tmpHeap ∧ st.2 = false then ({ m with framePool := head }, true) else st
  let vaddress := add64 start (addressOffset reservedRamMappings)
  let r := st.1.getPage vaddress st.1.activePage true false
  r.1.map fun paddress => (r.2.store paddress (mirrorPage start), st.2)

/-- A round of the loop that is taken. It comes to an end as long as the processor finds the kernel. -/
def mirrorRound (is1GBPagingSupported : Bool) (st : Machine × Bool) (k : ℕ) : Option (Machine × Bool) :=
  (if is1GBPagingSupported then some (mirrorRound1GB head st (2 ^ 30 * k))
  else mirrorRound4KB kernelTmpHeapStart head st (2 ^ 12 * k)).filter fun st => st.1.FindsKernel kernelTmpHeapStart

end Rounds

/-- The state after so many rounds. -/
def mirrorRounds (is1GBPagingSupported : Bool) (kernelTmpHeapStart : ℕ) (m : Machine) (n : ℕ) : Option (Machine × Bool) :=
  run (fun st k => st.bind fun st => mirrorRound kernelTmpHeapStart m.framePool is1GBPagingSupported st k)
    (some ({ m with framePool := [] }, false)) (List.range n)

/-- How many rounds it takes to reach `maxram`. -/
def mirrorRoundCount (is1GBPagingSupported : Bool) (maxram : ℕ) : ℕ :=
  if is1GBPagingSupported then (maxram + 2 ^ 30 - 1) / 2 ^ 30 else (maxram + 2 ^ 12 - 1) / 2 ^ 12

/-- `initialize_memory_mirror`. -/
def initializeMemoryMirror (is1GBPagingSupported : Bool) (kernelTmpHeapStart maxram : ℕ) (m : Machine) : Option Machine :=
  (mirrorRounds is1GBPagingSupported kernelTmpHeapStart m (mirrorRoundCount is1GBPagingSupported maxram)).map Prod.fst

/-- What the mirror is for: every physical address has its place, the pool is the one from before, and at no time has the
temporary heap outgrown its storage. -/
def MirrorBuilt (is1GBPagingSupported : Bool) (kernelTmpHeapStart maxram : ℕ) (m : Machine) : Prop :=
  ∃ m', initializeMemoryMirror is1GBPagingSupported kernelTmpHeapStart maxram m = some m' ∧
    (∀ p < maxram, m'.hardwareTranslate (add64 p (addressOffset reservedRamMappings)) = some p) ∧
    m'.framePool = m.framePool ∧
    ∀ n ≤ mirrorRoundCount is1GBPagingSupported maxram, ∀ st,
      mirrorRounds is1GBPagingSupported kernelTmpHeapStart m n = some st → st.1.tmpHeap ≤ kernelTmpHeapStart + 0x40000

/-- The next frame of the temporary heap as a virtual address. -/
def heapHead (m : Machine) : ℕ :=
  if m.tmpHeap % 0x1000 ≠ 0 then m.tmpHeap + (0x1000 - m.tmpHeap % 0x1000) else m.tmpHeap

/-- The frame of it. -/
def heapFrame (m : Machine) : ℕ := heapHead m - 0xFFFFFFFF80000000

/-- The tables of `entry.s` below the root: those of the lowest memory and those of the kernel. -/
structure BootTables where
  pdpMirror : ℕ
  pdMirror : ℕ
  ptMirror : ℕ
  pdpKs : ℕ
  pdKs : ℕ
  ptKs : ℕ

/-- Their frames. -/
def BootTables.frames (t : BootTables) : List ℕ := [t.pdpMirror, t.pdMirror, t.ptMirror, t.pdpKs, t.pdKs, t.ptKs]

/-- The entry maps a page to that frame. Its other flags may have been changed since `entry.s`. -/
def MapsFrame (w f : ℕ) : Prop := present w = true ∧ entryFrame w = f

instance (w f : ℕ) : Decidable (MapsFrame w f) := inferInstanceAs (Decidable (_ ∧ _))

/-- The machine when the mirror is to be built: the tables of `entry.s` still map the root table to itself and the end of the
kernel behind its offset, `create_frame_pool` has made a pool, and the temporary heap is in the kernel's image. -/
structure MirrorReady (m : Machine) (t : BootTables) (kernelTmpHeapStart : ℕ) : Prop where
  pool : m.framePool ≠ []
  frames : ∀ f ∈ m.activePage :: t.frames, f % 0x1000 = 0 ∧ f < 0x200000
  different : (m.activePage :: heapFrame m :: t.frames).Nodup
  mirror : m.load ⟨m.activePage, 0⟩ = t.pdpMirror + 3 ∧ m.load ⟨t.pdpMirror, 0⟩ = t.pdMirror + 3 ∧
    m.load ⟨t.pdMirror, 0⟩ = t.ptMirror + 3 ∧
    MapsFrame (m.load ⟨t.ptMirror, tableIndex m.activePage⟩) (4096 * tableIndex m.activePage)
  kernel : m.load ⟨m.activePage, 511⟩ = t.pdpKs + 3 ∧ m.load ⟨t.pdpKs, 510⟩ = t.pdKs + 3 ∧
    m.load ⟨t.pdKs, 0⟩ = t.ptKs + 3 ∧
    MapsFrame (m.load ⟨t.ptKs, tableIndex kernelTmpHeapStart⟩) (4096 * tableIndex kernelTmpHeapStart)
  vacant : m.load ⟨m.activePage, 510⟩ = 0
  heap_start : 0xFFFFFFFF80000000 < kernelTmpHeapStart
  heap_begun : kernelTmpHeapStart ≤ m.tmpHeap
  heap_low : heapHead m < 0xFFFFFFFF80000000 + 0x200000

/-- Where a place in the mirror is translated: 512 pages of 1 GB to a slot, from slot 510 on and round. -/
theorem mirror_indices {p : ℕ} (hp : p < 2 ^ 40 + 2 ^ 47) :
    pmlIndex (add64 p (addressOffset reservedRamMappings)) = (510 + p / 2 ^ 39) % 512 ∧
      directoryPtrIndex (add64 p (addressOffset reservedRamMappings)) = p / 2 ^ 30 % 512 ∧
      add64 p (addressOffset reservedRamMappings) % 2 ^ 30 = p % 2 ^ 30 ∧
      (add64 p (addressOffset reservedRamMappings) / 2 ^ 47 = 0 ∨
        add64 p (addressOffset reservedRamMappings) / 2 ^ 47 = 2 ^ 17 - 1) := by
  unfold pmlIndex directoryPtrIndex add64 addressOffset reservedRamMappings
  omega

/-- Bit 0 of the entry of a large page. -/
theorem directory1GB_present (start : ℕ) : present (directory1GB start) = true := by
  unfold present directory1GB
  rw [bit_setBit_of_ne _ _ (by decide), bit_setBit_of_ne _ _ (by decide), bit_setBit_self]

/-- Its size bit. -/
theorem directory1GB_large (start : ℕ) : bit (directory1GB start) 7 = true := by
  unfold directory1GB
  rw [bit_setBit_of_ne _ _ (by decide), bit_setBit_self]

/-- Its address. -/
theorem directory1GB_address (k : ℕ) : directory1GB (2 ^ 30 * k) / 2 ^ 30 = k := by
  have hpage (w : ℕ) : w / 2 ^ 30 = align w / 2 ^ 30 := by
    unfold align
    omega
  rw [hpage, directory1GB, align_setBit _ _ (by decide), align_setBit _ _ (by decide), align_setBit _ _ (by decide), ← hpage]
  exact Nat.mul_div_cancel_left k (by decide)

/-- A frame below the reach of the processor is read from the entry it was put in. -/
theorem entryFrame_eq {w : ℕ} (h : align w < 2 ^ 52) : entryFrame w = align w := by
  unfold entryFrame align at *
  omega

/-- One more round. -/
theorem mirrorRounds_succ (large : Bool) (kernelTmpHeapStart : ℕ) (m : Machine) (n : ℕ) :
    mirrorRounds large kernelTmpHeapStart m (n + 1) = (mirrorRounds large kernelTmpHeapStart m n).bind
      fun st => mirrorRound kernelTmpHeapStart m.framePool large st n := by
  unfold mirrorRounds
  rw [List.range_succ, run, List.foldl_append]
  rfl

/-- Without a pool frames come from the temporary heap. -/
theorem getFreeFrame_without_pool {m : Machine} (h : m.framePool = []) :
    m.getFreeFrame = (sub64 (heapHead m) 0xFFFFFFFF80000000, { m with tmpHeap := heapHead m + 0x1000 }) := by
  cases m
  subst h
  rfl

/-- The next frame of the heap lies at its end or behind. -/
theorem le_heapHead (m : Machine) : m.tmpHeap ≤ heapHead m := by
  unfold heapHead
  split <;> omega

section SmallPages

variable {m m' : Machine} {t : BootTables} {kernelTmpHeapStart : ℕ}

/-- Without a pool a level of a walk leaves none, and the heap does not shrink. -/
theorem descend_without_pool (h : m.framePool = []) (e : Slot) :
    (m.descend e true false).2.framePool = [] ∧ m.tmpHeap ≤ (m.descend e true false).2.tmpHeap := by
  have hframe : m.getFreeFrame.2.framePool = [] ∧ m.tmpHeap ≤ m.getFreeFrame.2.tmpHeap := by
    rw [getFreeFrame_without_pool h]
    exact ⟨h, Nat.le_succ_of_le ((le_heapHead m).trans (Nat.le_add_right _ 0xFFF))⟩
  unfold Machine.descend
  split
  · exact ⟨h, Nat.le_refl _⟩
  · rw [if_pos rfl]
    dsimp only
    split <;> exact hframe

/-- So does the whole walk. -/
theorem getPage_without_pool (h : m.framePool = []) (va cr3 : ℕ) :
    (m.getPage va cr3 true false).2.framePool = [] ∧ m.tmpHeap ≤ (m.getPage va cr3 true false).2.tmpHeap := by
  have h1 := descend_without_pool h ⟨align cr3, pmlIndex va⟩
  unfold Machine.getPage
  dsimp only
  split
  · exact h1
  · next pdpt _ =>
    have h2 := descend_without_pool h1.1 ⟨pdpt, directoryPtrIndex va⟩
    split
    · exact ⟨h2.1, h1.2.trans h2.2⟩
    · next pdir _ =>
      have h3 := descend_without_pool h2.1 ⟨pdir, directoryIndex va⟩
      split <;> exact ⟨h3.1, (h1.2.trans h2.2).trans h3.2⟩

/-- With small pages the pool never comes back: the heap is at virtual addresses, and the limit that it is held against is a
physical one. -/
theorem small_rounds_without_pool (hready : MirrorReady m t kernelTmpHeapStart) (n : ℕ) {st : Machine × Bool}
    (hst : mirrorRounds false kernelTmpHeapStart m n = some st) :
    st.1.framePool = [] ∧ st.2 = false ∧ m.tmpHeap ≤ st.1.tmpHeap := by
  have hstart := hready.heap_start
  have hbegun := hready.heap_begun
  have hlow := hready.heap_low
  have htop := le_heapHead m
  induction n generalizing st with
  | zero =>
    obtain rfl := Option.some.inj hst
    exact ⟨rfl, rfl, Nat.le_refl _⟩
  | succ n ih =>
    rw [mirrorRounds_succ, Option.bind_eq_some_iff] at hst
    obtain ⟨before, hbefore, hround⟩ := hst
    obtain ⟨hpool, hset, hheap⟩ := ih hbefore
    have hkend : ¬ (add64 (add64 (sub64 kernelTmpHeapStart 0xFFFFFFFF80000000) 0x40000) 0x4000 ≥ before.1.tmpHeap ∧
        before.2 = false) := by
      rw [sub64_of_le (Nat.le_of_lt hstart), add64_of_lt (a := _ - _) (by omega), add64_of_lt (by omega)]
      omega
    unfold mirrorRound mirrorRound4KB at hround
    dsimp only at hround
    rw [if_neg Bool.false_ne_true, if_neg hkend] at hround
    obtain ⟨page, -, rfl⟩ := Option.map_eq_some_iff.mp (Option.filter_eq_some_iff.mp hround).1
    have hpage := getPage_without_pool hpool (add64 (2 ^ 12 * n) (addressOffset reservedRamMappings)) before.1.activePage
    exact ⟨hpage.1, hset, hheap.trans hpage.2⟩

end SmallPages


section LargePages

variable {m m' : Machine} {t : BootTables} {kernelTmpHeapStart : ℕ}

/-- An entry of `entry.s` is present, of no large page, and leads to its frame. -/
theorem bootEntry_spec {f : ℕ} (haligned : f % 0x1000 = 0) (hlow : f < 0x200000) :
    present (f + 3) = true ∧ bit (f + 3) 7 = false ∧ align (f + 3) = f ∧ entryFrame (f + 3) = f := by
  have hlarge : (f + 3) / 2 ^ 7 % 2 = 0 := by omega
  refine ⟨decide_eq_true (by omega), decide_eq_false (by omega), ?_, ?_⟩
  · unfold align
    omega
  · unfold entryFrame
    omega

/-- The translation through four tables of `entry.s`. -/
theorem translate_small {va pdp pd pt : ℕ} (hcanonical : va / 2 ^ 47 = 0 ∨ va / 2 ^ 47 = 2 ^ 17 - 1)
    (hframes : ∀ f ∈ [m.activePage, pdp, pd, pt], f % 0x1000 = 0 ∧ f < 0x200000)
    (hpdp : m.load ⟨m.activePage, pmlIndex va⟩ = pdp + 3) (hpd : m.load ⟨pdp, directoryPtrIndex va⟩ = pd + 3)
    (hpt : m.load ⟨pd, directoryIndex va⟩ = pt + 3)
    (hpage : MapsFrame (m.load ⟨pt, tableIndex va⟩) (4096 * tableIndex va)) :
    m.hardwareTranslate va = some (4096 * tableIndex va + va % 2 ^ 12) := by
  simp only [List.forall_mem_cons, List.not_mem_nil, false_implies, implies_true, and_true] at hframes
  obtain ⟨⟨hroot, hrootlow⟩, ⟨hpdp', hpdplow⟩, ⟨hpd', hpdlow⟩, ⟨hpt', hptlow⟩⟩ := hframes
  have hactive : entryFrame m.activePage = m.activePage := by
    unfold entryFrame
    omega
  obtain ⟨h1, -, -, hframe1⟩ := bootEntry_spec hpdp' hpdplow
  obtain ⟨h2, hsmall2, -, hframe2⟩ := bootEntry_spec hpd' hpdlow
  obtain ⟨h3, hsmall3, -, hframe3⟩ := bootEntry_spec hpt' hptlow
  obtain ⟨h4, hframe4⟩ := hpage
  unfold Machine.hardwareTranslate
  rw [if_neg (by omega)]
  dsimp only
  rw [hactive, hpdp, h1, hframe1, hpd, h2, hsmall2, hframe2, hpt, h3, hsmall3, hframe3, h4, hframe4]
  rfl

/-- The frame of the heap. -/
theorem MirrorReady.heapFrame_spec (h : MirrorReady m t kernelTmpHeapStart) :
    heapFrame m % 0x1000 = 0 ∧ heapFrame m < 0x200000 ∧ sub64 (heapHead m) 0xFFFFFFFF80000000 = heapFrame m := by
  have hstart := h.heap_start
  have hbegun := h.heap_begun
  have hlow := h.heap_low
  have htop := le_heapHead m
  have haligned : heapHead m % 0x1000 = 0 := by
    unfold heapHead
    split <;> omega
  rw [sub64_of_le (by omega)]
  unfold heapFrame
  omega

/-- The table of a page of 1 GB: a frame of the heap for the first 512, then the table of the kernel. -/
def tableOfPage (m : Machine) (t : BootTables) (q : ℕ) : ℕ := if q < 512 then heapFrame m else t.pdpKs

/-- What the loop leaves alone before it comes to the kernel. -/
def Untouched (m : Machine) (t : BootTables) (q : Slot) : Prop :=
  q.table ≠ heapFrame m ∧ ¬ (q.table = m.activePage ∧ q.index = 510) ∧ ¬ (q.table = t.pdpKs ∧ q.index < 510)

/-- The state after so many rounds. -/
structure MirrorState (m : Machine) (t : BootTables) (k : ℕ) (m' : Machine) : Prop where
  root : m'.activePage = m.activePage
  heap : m'.tmpHeap = heapHead m + 0x1000
  pool : m'.framePool = m.framePool
  link : m'.load ⟨m.activePage, 510⟩ = tableEntry (heapFrame m) false
  pages : ∀ q < k, m'.load ⟨tableOfPage m t q, q % 512⟩ = directory1GB (2 ^ 30 * q)
  unchanged : ∀ q, Untouched m t q → m'.load q = m.load q

/-- The tables of `entry.s` are frames of their own. -/
theorem MirrorReady.untouched (h : MirrorReady m t kernelTmpHeapStart) (i : ℕ) :
    Untouched m t ⟨m.activePage, 0⟩ ∧ Untouched m t ⟨t.pdpMirror, 0⟩ ∧ Untouched m t ⟨t.pdMirror, 0⟩ ∧
      Untouched m t ⟨t.ptMirror, i⟩ ∧ Untouched m t ⟨m.activePage, 511⟩ ∧ Untouched m t ⟨t.pdpKs, 510⟩ ∧
      Untouched m t ⟨t.pdKs, 0⟩ ∧ Untouched m t ⟨t.ptKs, i⟩ := by
  have hdifferent := h.different
  simp only [BootTables.frames, List.nodup_cons, List.mem_cons, List.not_mem_nil, or_false, not_or] at hdifferent
  unfold Untouched
  grind

/-- The lowest memory is where it is. -/
theorem MirrorState.finds_root (h : MirrorReady m t kernelTmpHeapStart) {k : ℕ} (ha : MirrorState m t k m') :
    m'.hardwareTranslate m.activePage = some m.activePage := by
  obtain ⟨hpdp, hpd, hpt, hpage⟩ := h.mirror
  obtain ⟨haligned, hlow⟩ := h.frames m.activePage (List.mem_cons_self ..)
  have hindices : pmlIndex m.activePage = 0 ∧ directoryPtrIndex m.activePage = 0 ∧ directoryIndex m.activePage = 0 ∧
      4096 * tableIndex m.activePage + m.activePage % 2 ^ 12 = m.activePage ∧ m.activePage / 2 ^ 47 = 0 := by
    unfold pmlIndex directoryPtrIndex directoryIndex tableIndex
    omega
  obtain ⟨hpml, hptr, hdir, hsum, hcanonical⟩ := hindices
  obtain ⟨h1, h2, h3, h4, -⟩ := h.untouched (tableIndex m.activePage)
  have htranslate := @translate_small m' m.activePage t.pdpMirror t.pdMirror t.ptMirror
    (Or.inl hcanonical)
  rw [htranslate, hsum]
  · intro f hf
    rw [ha.root] at hf
    apply h.frames
    simp only [List.mem_cons, List.not_mem_nil, or_false] at hf
    rcases hf with rfl | rfl | rfl | rfl <;> simp [BootTables.frames]
  · rw [ha.root, hpml, ha.unchanged _ h1, hpdp]
  · rw [hptr, ha.unchanged _ h2, hpd]
  · rw [hdir, ha.unchanged _ h3, hpt]
  · rw [ha.unchanged _ h4]
    exact hpage

/-- The indices of the start of the heap. -/
theorem MirrorReady.heap_indices (h : MirrorReady m t kernelTmpHeapStart) :
    pmlIndex kernelTmpHeapStart = 511 ∧ directoryPtrIndex kernelTmpHeapStart = 510 ∧ directoryIndex kernelTmpHeapStart = 0 ∧
      4096 * tableIndex kernelTmpHeapStart + kernelTmpHeapStart % 2 ^ 12 = kernelTmpHeapStart - 0xFFFFFFFF80000000 ∧
      kernelTmpHeapStart / 2 ^ 47 = 2 ^ 17 - 1 := by
  have hstart := h.heap_start
  have hend := (h.heap_begun.trans (le_heapHead m)).trans_lt h.heap_low
  unfold pmlIndex directoryPtrIndex directoryIndex tableIndex
  omega

/-- The kernel is behind its offset. -/
theorem MirrorState.finds_kernel (h : MirrorReady m t kernelTmpHeapStart) {k : ℕ} (ha : MirrorState m t k m') :
    m'.hardwareTranslate kernelTmpHeapStart = some (kernelTmpHeapStart - 0xFFFFFFFF80000000) := by
  obtain ⟨hpdp, hpd, hpt, hpage⟩ := h.kernel
  obtain ⟨hpml, hptr, hdir, hsum, hcanonical⟩ := h.heap_indices
  obtain ⟨-, -, -, -, h1, h2, h3, h4⟩ := h.untouched (tableIndex kernelTmpHeapStart)
  have htranslate := @translate_small m' kernelTmpHeapStart t.pdpKs t.pdKs t.ptKs
    (Or.inr hcanonical)
  rw [htranslate, hsum]
  · intro f hf
    rw [ha.root] at hf
    apply h.frames
    simp only [List.mem_cons, List.not_mem_nil, or_false] at hf
    rcases hf with rfl | rfl | rfl | rfl <;> simp [BootTables.frames]
  · rw [ha.root, hpml, ha.unchanged _ h1, hpdp]
  · rw [hptr, ha.unchanged _ h2, hpd]
  · rw [hdir, ha.unchanged _ h3, hpt]
  · rw [ha.unchanged _ h4]
    exact hpage

/-- So the loop can go on. -/
theorem MirrorState.findsKernel (h : MirrorReady m t kernelTmpHeapStart) {k : ℕ} (ha : MirrorState m t k m') :
    m'.FindsKernel kernelTmpHeapStart :=
  ⟨ha.finds_kernel h, by rw [ha.root]; exact ha.finds_root h⟩

/-- A store elsewhere. -/
theorem load_store_elsewhere {p q : Slot} (w : ℕ) (h : ¬ (q.table = p.table ∧ q.index = p.index)) :
    (m.store p w).load q = m.load q := Links.store_of_ne m.memory w h

/-- The pool beside a store. -/
theorem store_withPool (a : Machine) (p : Slot) (w : ℕ) (pool : List SectionInfo) :
    { a.store p w with framePool := pool } = ({ a with framePool := pool } : Machine).store p w := rfl

/-- The pool beside the clearing of a frame. -/
theorem fill_withPool (a : Machine) (f w : ℕ) (pool : List SectionInfo) :
    { a.fill f w with framePool := pool } = ({ a with framePool := pool } : Machine).fill f w := rfl

/-- The clearing of another frame. -/
theorem load_fill_elsewhere {f w : ℕ} {q : Slot} (h : q.table ≠ f) : (m.fill f w).load q = m.load q := by
  unfold Machine.fill Machine.load
  dsimp only
  rw [Function.update_of_ne h]

/-- The pages of 1 GB that come before the kernel have tables that are neither the root nor the kernel's entry. -/
theorem MirrorReady.tableOfPage_spec (h : MirrorReady m t kernelTmpHeapStart) {k : ℕ} (hk : k < 1022) :
    tableOfPage m t k ≠ m.activePage ∧ ¬ Untouched m t ⟨tableOfPage m t k, k % 512⟩ ∧
      ∀ q < k, ¬ (tableOfPage m t q = tableOfPage m t k ∧ q % 512 = k % 512) := by
  have hdifferent := h.different
  simp only [BootTables.frames, List.nodup_cons, List.mem_cons, List.not_mem_nil, or_false, not_or] at hdifferent
  obtain ⟨⟨hheap, -, -, -, hkernel, -⟩, ⟨-, -, -, hboth, -⟩, -⟩ := hdifferent
  unfold tableOfPage Untouched
  split
  · refine ⟨Ne.symm hheap, fun hnot => hnot.1 rfl, fun q hq hsame => ?_⟩
    omega
  · refine ⟨Ne.symm hkernel, fun hnot => hnot.2.2 ⟨rfl, ?_⟩, fun q hq hsame => ?_⟩
    · dsimp only
      omega
    · split at hsame
      · exact hboth hsame.1
      · omega

/-- The store of a page before the kernel. -/
theorem storePage_state (h : MirrorReady m t kernelTmpHeapStart) {k : ℕ} (hk : k < 1022) (ha : MirrorState m t k m') :
    MirrorState m t (k + 1) (m'.store ⟨tableOfPage m t k, k % 512⟩ (directory1GB (2 ^ 30 * k))) := by
  obtain ⟨hroot, htouched, hearlier⟩ := h.tableOfPage_spec hk
  refine ⟨ha.root, ha.heap, ha.pool, ?_, fun q hq => ?_, fun q hq => ?_⟩
  · rw [load_store_elsewhere _ fun hsame => hroot hsame.1.symm]
    exact ha.link
  · by_cases hlast : q = k
    · subst hlast
      exact Links.store_self _ _ _ _
    · have hlt : q < k := by omega
      rw [load_store_elsewhere _ (hearlier q hlt)]
      exact ha.pages q hlt
  · rw [load_store_elsewhere]
    · exact ha.unchanged q hq
    · intro hsame
      have hslot : q = ⟨tableOfPage m t k, k % 512⟩ := by
        cases q
        rw [Slot.mk.injEq]
        exact hsame
      apply htouched
      rw [← hslot]
      exact hq

/-- The address of a round. -/
theorem round_indices {k : ℕ} (hk : k < 1023) :
    pmlIndex (add64 (2 ^ 30 * k) (addressOffset reservedRamMappings)) = (if k < 512 then 510 else 511) ∧
      directoryPtrIndex (add64 (2 ^ 30 * k) (addressOffset reservedRamMappings)) = k % 512 := by
  obtain ⟨hpml, hdirectory, -⟩ := @mirror_indices (2 ^ 30 * k) (by omega)
  rw [hpml, hdirectory]
  split <;> omega

/-- The first frame comes from the heap. -/
theorem mirrorTable_first (h : MirrorReady m t kernelTmpHeapStart) : mirrorTable { m with framePool := [] } ⟨m.activePage, 510⟩ =
    (({ m with framePool := [], tmpHeap := heapHead m + 0x1000 } : Machine).store ⟨m.activePage, 510⟩
      (tableEntry (heapFrame m) false)).fill (heapFrame m) 0 := by
  obtain ⟨haligned, -, hhead⟩ := h.heapFrame_spec
  have habsent : present (({ m with framePool := [] } : Machine).load ⟨m.activePage, 510⟩) = false := by
    change present (m.load ⟨m.activePage, 510⟩) = false
    rw [h.vacant]
    rfl
  have hframe : ({ m with framePool := [] } : Machine).getFreeFrame =
      (heapFrame m, { m with framePool := [], tmpHeap := heapHead m + 0x1000 }) := by
    rw [getFreeFrame_without_pool rfl, ← hhead]
    rfl
  unfold mirrorTable
  rw [if_neg (by rw [habsent]; decide), hframe]
  dsimp only
  rw [align_tableEntry false haligned]

/-- The state with the first table. -/
theorem firstTable_state (h : MirrorReady m t kernelTmpHeapStart) : MirrorState m t 0
    ((({ m with framePool := m.framePool, tmpHeap := heapHead m + 0x1000 } : Machine).store ⟨m.activePage, 510⟩
      (tableEntry (heapFrame m) false)).fill (heapFrame m) 0) := by
  have hdifferent := h.different
  simp only [BootTables.frames, List.nodup_cons, List.mem_cons, not_or] at hdifferent
  refine ⟨rfl, rfl, rfl, ?_, fun q hq => absurd hq (Nat.not_lt_zero q), fun q hq => ?_⟩
  · rw [load_fill_elsewhere hdifferent.1.1]
    exact Links.store_self _ _ _ _
  · rw [load_fill_elsewhere hq.1, load_store_elsewhere _ hq.2.1]
    rfl

/-- A table that is there is left as it is. -/
theorem mirrorTable_present {e : Slot} (h : present (m.load e) = true) : mirrorTable m e = m := if_pos h

/-- The first round, but for the processor. -/
theorem mirrorRound1GB_first (h : MirrorReady m t kernelTmpHeapStart) :
    ∃ a, mirrorRound1GB m.framePool ({ m with framePool := [] }, false) (2 ^ 30 * 0) = (a, true) ∧ MirrorState m t 1 a := by
  obtain ⟨hpml, hdirectory⟩ := @round_indices 0 (by decide)
  rw [if_pos (by decide)] at hpml
  have htable := firstTable_state h
  have hentry : align (((({ m with framePool := [], tmpHeap := heapHead m + 0x1000 } : Machine).store ⟨m.activePage, 510⟩
      (tableEntry (heapFrame m) false)).fill (heapFrame m) 0).load ⟨m.activePage, 510⟩) = tableOfPage m t 0 :=
    ((congrArg align htable.link).trans (align_tableEntry false h.heapFrame_spec.1)).trans (if_pos (by decide)).symm
  have hroot := (h.frames m.activePage (List.mem_cons_self ..)).1
  refine ⟨_, ?_, storePage_state h (by decide) htable⟩
  unfold mirrorRound1GB
  dsimp only
  rw [hpml, hdirectory, align_of_mod hroot, mirrorTable_first h, hentry, if_neg Bool.false_ne_true]
  rw [store_withPool, fill_withPool, store_withPool]

/-- A later round, but for the processor. -/
theorem mirrorRound1GB_later (h : MirrorReady m t kernelTmpHeapStart) {k : ℕ} (hk : k < 1023)
    (ha : MirrorState m t k m') : mirrorRound1GB m.framePool (m', true) (2 ^ 30 * k) =
      (m'.store ⟨tableOfPage m t k, k % 512⟩ (directory1GB (2 ^ 30 * k)), true) := by
  obtain ⟨hpml, hdirectory⟩ := round_indices hk
  have hroot := (h.frames m.activePage (List.mem_cons_self ..)).1
  have hkernel := h.frames t.pdpKs (by simp [BootTables.frames])
  obtain ⟨hpresent, -, haligned, -⟩ := bootEntry_spec hkernel.1 hkernel.2
  obtain ⟨-, -, -, -, huntouched, -⟩ := h.untouched 0
  have hentry : present (m'.load ⟨m.activePage, if k < 512 then 510 else 511⟩) = true ∧
      align (m'.load ⟨m.activePage, if k < 512 then 510 else 511⟩) = tableOfPage m t k := by
    unfold tableOfPage
    split
    · rw [ha.link]
      exact ⟨present_tableEntry _ _, align_tableEntry false h.heapFrame_spec.1⟩
    · rw [ha.unchanged _ huntouched, h.kernel.1]
      exact ⟨hpresent, haligned⟩
  unfold mirrorRound1GB
  dsimp only
  rw [hpml, hdirectory, ha.root, align_of_mod hroot, mirrorTable_present hentry.1, hentry.2, if_pos rfl]

/-- The state after some rounds with large pages, as long as they do not come to the kernel. -/
theorem mirrorRounds_state (h : MirrorReady m t kernelTmpHeapStart) {k : ℕ} (hk : k < 1022) :
    ∃ a, mirrorRounds true kernelTmpHeapStart m (k + 1) = some (a, true) ∧ MirrorState m t (k + 1) a := by
  have hgoes (st : Machine × Bool) (hst : MirrorState m t (k + 1) st.1) :
      (some st).filter (fun st => decide (st.1.FindsKernel kernelTmpHeapStart)) = some st :=
    Option.filter_some_pos (decide_eq_true (hst.findsKernel h))
  induction k with
  | zero =>
    obtain ⟨a, hround, hstate⟩ := mirrorRound1GB_first h
    refine ⟨a, ?_, hstate⟩
    rw [mirrorRounds_succ]
    change mirrorRound kernelTmpHeapStart m.framePool true ({ m with framePool := [] }, false) 0 = _
    rw [mirrorRound, if_pos rfl, hround, hgoes _ hstate]
  | succ k ih =>
    obtain ⟨a, hrounds, hstate⟩ := ih (by omega) fun st hst => Option.filter_some_pos (decide_eq_true (hst.findsKernel h))
    have hnext := storePage_state h hk hstate
    refine ⟨_, ?_, hnext⟩
    rw [mirrorRounds_succ, hrounds, Option.bind_some, mirrorRound, if_pos rfl,
      mirrorRound1GB_later h (by omega) hstate, hgoes _ hnext]

/-- The state after any number of rounds that does not come to the kernel. -/
theorem mirrorRounds_before (h : MirrorReady m t kernelTmpHeapStart) {k : ℕ} (hpos : 0 < k) (hk : k ≤ 1022) :
    ∃ a, mirrorRounds true kernelTmpHeapStart m k = some (a, true) ∧ MirrorState m t k a := by
  obtain ⟨n, rfl⟩ := Nat.exists_eq_succ_of_ne_zero (Nat.ne_of_gt hpos)
  exact mirrorRounds_state h hk

/-- The page at 1022 GB takes the entry of the kernel. -/
theorem kernel_lost (h : MirrorReady m t kernelTmpHeapStart) (ha : MirrorState m t 1022 m') :
    (m'.store ⟨t.pdpKs, 510⟩ (directory1GB (2 ^ 30 * 1022))).hardwareTranslate kernelTmpHeapStart =
      some (2 ^ 30 * 1022 + kernelTmpHeapStart % 2 ^ 30) := by
  obtain ⟨hpml, hptr, -, -, hcanonical⟩ := h.heap_indices
  obtain ⟨-, -, -, -, huntouched, -⟩ := h.untouched 0
  obtain ⟨haligned, hlow⟩ := h.frames t.pdpKs (by simp [BootTables.frames])
  obtain ⟨hpresent, -, -, hframe⟩ := bootEntry_spec haligned hlow
  have hdifferent := h.different
  simp only [BootTables.frames, List.nodup_cons, List.mem_cons, not_or] at hdifferent
  have hactive : entryFrame m.activePage = m.activePage := by
    have hroot := h.frames m.activePage (List.mem_cons_self ..)
    unfold entryFrame
    omega
  have hentry : (m'.store ⟨t.pdpKs, 510⟩ (directory1GB (2 ^ 30 * 1022))).load ⟨m.activePage, 511⟩ = t.pdpKs + 3 := by
    rw [load_store_elsewhere _ fun hsame => hdifferent.1.2.2.2.2.1 hsame.1, ha.unchanged _ huntouched, h.kernel.1]
  have hpage : (m'.store ⟨t.pdpKs, 510⟩ (directory1GB (2 ^ 30 * 1022))).load ⟨t.pdpKs, 510⟩ = directory1GB (2 ^ 30 * 1022) :=
    Links.store_self _ _ _ _
  have hroot : (m'.store ⟨t.pdpKs, 510⟩ (directory1GB (2 ^ 30 * 1022))).activePage = m.activePage := ha.root
  unfold Machine.hardwareTranslate
  rw [if_neg (by omega)]
  dsimp only
  rw [hroot, hactive, hpml, hentry, hpresent, hframe, hptr, hpage, directory1GB_present, directory1GB_large, directory1GB_address]
  rfl

/-- No more rounds. -/
theorem mirrorRounds_kernel (h : MirrorReady m t kernelTmpHeapStart) {k : ℕ} (hk : 1023 ≤ k) :
    mirrorRounds true kernelTmpHeapStart m k = none := by
  induction k, hk using Nat.le_induction with
  | base =>
    obtain ⟨a, hrounds, hstate⟩ := mirrorRounds_before h (k := 1022) (by decide) (Nat.le_refl _)
    have hround := mirrorRound1GB_later h (k := 1022) (by decide) hstate
    have htable : tableOfPage m t 1022 = t.pdpKs := if_neg (by decide)
    rw [htable] at hround
    have hlost := kernel_lost h hstate
    have hstart := h.heap_start
    have hend := (h.heap_begun.trans (le_heapHead m)).trans_lt h.heap_low
    rw [mirrorRounds_succ, hrounds, Option.bind_some, mirrorRound, if_pos rfl, hround]
    apply Option.filter_some_neg
    apply decide_eq_false
    intro hfinds
    have hsame := Option.some.inj (hlost.symm.trans hfinds.1)
    omega
  | succ n hn ih => rw [mirrorRounds_succ, ih, Option.bind_none]

/-- Before it, the processor finds every place of the mirror. -/
theorem MirrorState.finds (h : MirrorReady m t kernelTmpHeapStart) {k : ℕ} (hk : k ≤ 1022) (ha : MirrorState m t k m') {p : ℕ}
    (hp : p < 2 ^ 30 * k) : m'.hardwareTranslate (add64 p (addressOffset reservedRamMappings)) = some p := by
  obtain ⟨hpml, hptr, hrest, hcanonical⟩ := @mirror_indices p (by omega)
  have hindex : (510 + p / 2 ^ 39) % 512 = if p / 2 ^ 30 < 512 then 510 else 511 := by split <;> omega
  rw [hindex] at hpml
  obtain ⟨haligned, hlow⟩ := h.frames t.pdpKs (by simp [BootTables.frames])
  obtain ⟨hpresent, -, -, hframe⟩ := bootEntry_spec haligned hlow
  obtain ⟨hheap, hheaplow, -⟩ := h.heapFrame_spec
  obtain ⟨-, -, -, -, huntouched, -⟩ := h.untouched 0
  have hactive : entryFrame m.activePage = m.activePage := by
    have hroot := h.frames m.activePage (List.mem_cons_self ..)
    unfold entryFrame
    omega
  have hentry : present (m'.load ⟨m.activePage, if p / 2 ^ 30 < 512 then 510 else 511⟩) = true ∧
      entryFrame (m'.load ⟨m.activePage, if p / 2 ^ 30 < 512 then 510 else 511⟩) = tableOfPage m t (p / 2 ^ 30) := by
    unfold tableOfPage
    split
    · have hframe := align_tableEntry false hheap
      rw [ha.link]
      exact ⟨present_tableEntry _ _, (entryFrame_eq (by omega)).trans hframe⟩
    · rw [ha.unchanged _ huntouched, h.kernel.1]
      exact ⟨hpresent, hframe⟩
  have hpage := ha.pages (p / 2 ^ 30) (by omega)
  unfold Machine.hardwareTranslate
  rw [if_neg (by omega)]
  dsimp only
  rw [ha.root, hactive, hpml, hentry.1, hentry.2, hptr, hpage, directory1GB_present, directory1GB_large, directory1GB_address, hrest]
  have hsum : 2 ^ 30 * (p / 2 ^ 30 % 2 ^ 22) + p % 2 ^ 30 = p := by omega
  rw [hsum]
  rfl

/-- The mirror is built exactly with pages of 1 GB, a page of room on the temporary heap, and memory that ends before the
place of the kernel. -/
theorem mirrorBuilt_iff {maxram : ℕ} (large : Bool) (h : MirrorReady m t kernelTmpHeapStart) (hmaxram : 0 < maxram) :
    MirrorBuilt large kernelTmpHeapStart maxram m ↔
      large = true ∧ heapHead m + 0x1000 ≤ kernelTmpHeapStart + 0x40000 ∧ maxram ≤ 2 ^ 30 * 1022 := by
  unfold MirrorBuilt initializeMemoryMirror
  constructor
  · rintro ⟨m', hbuilt, -, hpool, hroom⟩
    obtain ⟨st, hrounds, rfl⟩ := Option.map_eq_some_iff.mp hbuilt
    cases large with
    | false =>
      have hnone := (small_rounds_without_pool h _ hrounds).1
      rw [hnone] at hpool
      exact absurd hpool.symm h.pool
    | true =>
      unfold mirrorRoundCount at hrounds hroom
      rw [if_pos rfl] at hrounds hroom
      have hcount : maxram ≤ 2 ^ 30 * 1022 := by
        by_contra hlarge
        rw [mirrorRounds_kernel h (by omega)] at hrounds
        exact absurd hrounds (by simp)
      obtain ⟨a, hfirst, hstate⟩ := mirrorRounds_before h Nat.one_pos (by decide)
      have hheap := hroom 1 (by omega) _ hfirst
      rw [hstate.heap] at hheap
      exact ⟨rfl, hheap, hcount⟩
  · rintro ⟨rfl, hroom, hcount⟩
    unfold mirrorRoundCount
    rw [if_pos rfl]
    obtain ⟨a, hrounds, hstate⟩ := mirrorRounds_before h (k := (maxram + 2 ^ 30 - 1) / 2 ^ 30) (by omega) (by omega)
    refine ⟨a, ?_, fun p hp => hstate.finds h (by omega) (by omega), hstate.pool, fun n hn st hst => ?_⟩
    · rw [hrounds]
      rfl
    · cases n with
      | zero =>
        obtain rfl := Option.some.inj hst
        have htop := le_heapHead m
        change m.tmpHeap ≤ _
        omega
      | succ n =>
        obtain ⟨b, hbefore, hheap⟩ := mirrorRounds_before h (Nat.succ_pos n) (by omega)
        rw [hbefore] at hst
        obtain rfl := Option.some.inj hst
        rw [hheap.heap]
        exact hroom

end LargePages

/-- The tables of a kernel that is loaded at 1 MB. -/
def bootTables : BootTables := ⟨0x101000, 0x103000, 0x105000, 0x102000, 0x104000, 0x106000⟩

/-- Their contents, as `entry.s` has them. -/
def bootMemory : Memory := fun T i =>
  if T = 0x100000 then if i = 0 then 0x101003 else if i = 511 then 0x102003 else 0
  else if T = 0x101000 then if i = 0 then 0x103003 else 0
  else if T = 0x102000 then if i = 510 then 0x104003 else 0
  else if T = 0x103000 then if i = 0 then 0x105003 else 0
  else if T = 0x104000 then if i = 0 then 0x106003 else 0
  else if T = 0x105000 ∨ T = 0x106000 then 4096 * i + 3
  else 0

/-- The machine of that kernel with one small section in its pool. -/
def bootMachine : Machine where
  framePool := [smallRegion.build]
  memory := bootMemory
  activePage := 0x100000
  memMirrorPresent := false
  tmpHeap := 0xFFFFFFFF80180010
  lockLog := []

/-- An entry of the page tables in `entry.s`. -/
theorem mapsFrame_boot {i : ℕ} (hi : i < 512) : MapsFrame (4096 * i + 3) (4096 * i) := by
  obtain ⟨hpresent, -, -, hframe⟩ := @bootEntry_spec (4096 * i) (by omega) (by omega)
  exact ⟨hpresent, hframe⟩

/-- It is as the loop expects it. -/
theorem bootMachine_ready : MirrorReady bootMachine bootTables 0xFFFFFFFF80180000 where
  pool := List.cons_ne_nil _ _
  frames := by decide
  different := by decide
  mirror := ⟨rfl, rfl, rfl, mapsFrame_boot (tableIndex_lt _)⟩
  kernel := ⟨rfl, rfl, rfl, mapsFrame_boot (tableIndex_lt _)⟩
  vacant := rfl
  heap_start := by decide
  heap_begun := by decide
  heap_low := by decide

/-- With pages of 1 GB it gets its mirror. -/
theorem mirrorBuilt_iff_bootMachine : MirrorBuilt true 0xFFFFFFFF80180000 (2 ^ 30 * 4) bootMachine :=
  (mirrorBuilt_iff true bootMachine_ready (by decide)).mpr ⟨rfl, by decide, by decide⟩

/-- With pages of 4 KB it does not: the pool stays away, however little memory there is. -/
theorem mirror_without_pool : ¬ MirrorBuilt false 0xFFFFFFFF80180000 0x1000 bootMachine := by
  rintro ⟨m', hbuilt, -, hpool, -⟩
  obtain ⟨st, hrounds, rfl⟩ := Option.map_eq_some_iff.mp hbuilt
  have hnone := (small_rounds_without_pool bootMachine_ready _ hrounds).1
  rw [hnone] at hpool
  exact absurd hpool.symm bootMachine_ready.pool

end Cthulhu
