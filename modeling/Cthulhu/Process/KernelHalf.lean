import Cthulhu.Memory.HeapWalks
import Cthulhu.Memory.ReferenceRuns
import Cthulhu.Memory.Translate
import Cthulhu.Process.RoundTrip

/-!
# The kernel half of every address space

Runs that create address spaces while the kernel heap grows and shrinks in whichever address space is
active. A new address space gets the entries of the kernel half once. The heap adds or drops the
entry of its slot in the active space only, so that the spaces agree as long as no call of the heap does
so while there are several: some other page of the slot must be mapped meanwhile.
-/

namespace Cthulhu

open Lib

/-- The heap of the kernel and the address spaces created so far. -/
structure KernelHeap where
  machine : Machine
  heapStart : ℕ
  spaces : List ℕ

/-- The calls a run consists of; the last one makes another address space the active one. -/
inductive HeapCall
  | createPml4
  | allocate (aamount : ℕ)
  | deallocate (afrom aamount : ℕ)
  | activate (cr3 : ℕ)
  deriving DecidableEq, Repr

namespace KernelHeap

variable (st : KernelHeap)

/-- `__kclib_allocate`; no value where it returns `NULL`. -/
def kclibAllocate (aamount : ℕ) : Option ℕ × KernelHeap :=
  let ha := st.heapStart
  let r := st.machine.allocate st.heapStart aamount true false st.machine.activePage
  if r.1 then
    (some ha, { st with machine := r.2, heapStart := add64 st.heapStart (alignUp aamount 0x1000) })
  else (none, { st with machine := r.2 })

/-- `__kclib_deallocate`. -/
def kclibDeallocate (afrom aamount : ℕ) : KernelHeap :=
  { st with machine := st.machine.deallocate afrom aamount st.machine.activePage }

/-- One call. -/
def exec (st : KernelHeap) : HeapCall → KernelHeap
  | .createPml4 =>
    let r := st.machine.createPml4
    { st with machine := r.2, spaces := if r.1 = 0 then st.spaces else st.spaces ++ [r.1] }
  | .allocate aamount => (st.kclibAllocate aamount).2
  | .deallocate afrom aamount => st.kclibDeallocate afrom aamount
  | .activate cr3 => { st with machine := { st.machine with activePage := cr3 } }

/-- The entries of a root. -/
def entry (cr3 i : ℕ) : ℕ := st.machine.memory (align cr3) i

/-- The spaces share their kernel half: the entries are equal, every walk through them ends alike, and no
entry of a root refers to a free frame. -/
structure SharesKernelHalf : Prop where
  entries : ∀ c ∈ st.spaces, ∀ c' ∈ st.spaces, ∀ i, 256 ≤ i → i < 512 → st.entry c i = st.entry c' i
  walks : ∀ c ∈ st.spaces, ∀ c' ∈ st.spaces, ∀ va, 256 ≤ pmlIndex va →
    (st.machine.getPage va c false false).1 = (st.machine.getPage va c' false false).1
  live : ∀ c ∈ st.spaces, ∀ i < 512, present (st.entry c i) = true →
    frameOf (st.entry c i) ∉ freeFrames st.machine.framePool

/-- The state before the heap is used: one address space, whose entries refer to frames in use. -/
structure Booted : Prop where
  pool : PoolInv st.machine.framePool
  nonempty : st.machine.framePool ≠ []
  below : ∀ s ∈ st.machine.framePool, s.endWord ≤ 2 ^ 62
  spaces : st.spaces = [st.machine.activePage]
  root : align st.machine.activePage ∉ freeFrames st.machine.framePool
  unused : present (st.entry st.machine.activePage reservedHeapMappings) = false
  live : ∀ i < 512, present (st.entry st.machine.activePage i) = true →
    frameOf (st.entry st.machine.activePage i) ∉ freeFrames st.machine.framePool

/-- There is no other address space. -/
def Alone : Prop := ∀ c ∈ st.spaces, align c = align st.machine.activePage

instance : Decidable st.Alone :=
  inferInstanceAs (Decidable (∀ c ∈ st.spaces, align c = align st.machine.activePage))

/-- A page of the heap slot beside these is mapped. -/
def MapsBeside (pages : List ℕ) : Prop :=
  ∃ va, pmlIndex va = reservedHeapMappings ∧ (∀ p ∈ pages, ¬ SamePage va p) ∧
    present (leafEntry st.machine.memory st.machine.activePage va) = true

end KernelHeap

/-- The call stays in the heap slot, or activates one of the address spaces. -/
def HeapCall.OnSlot (st : KernelHeap) : HeapCall → Prop
  | .createPml4 => True
  | .allocate aamount => ∀ a ∈ Machine.allocatePages st.heapStart aamount, pmlIndex a = reservedHeapMappings
  | .deallocate afrom aamount => ∀ a ∈ Machine.deallocatePages afrom aamount, pmlIndex a = reservedHeapMappings
  | .activate cr3 => cr3 ∈ st.spaces

instance (st : KernelHeap) (call : HeapCall) : Decidable (call.OnSlot st) :=
  match call with
  | .createPml4 => isTrue trivial
  | .allocate aamount => inferInstanceAs
      (Decidable (∀ a ∈ Machine.allocatePages st.heapStart aamount, pmlIndex a = reservedHeapMappings))
  | .deallocate afrom aamount => inferInstanceAs
      (Decidable (∀ a ∈ Machine.deallocatePages afrom aamount, pmlIndex a = reservedHeapMappings))
  | .activate cr3 => inferInstanceAs (Decidable (cr3 ∈ st.spaces))

/-- With several address spaces, the heap grows only beside a page that is mapped, and shrinks only beside
one that stays mapped, unless it has nothing to give back. -/
def HeapCall.KeepsSlot (st : KernelHeap) : HeapCall → Prop
  | .allocate aamount => st.Alone ∨ st.MapsBeside (Machine.allocatePages st.heapStart aamount)
  | .deallocate afrom aamount => st.Alone ∨ st.MapsBeside (Machine.deallocatePages afrom aamount) ∨
      ∀ a ∈ Machine.deallocatePages afrom aamount,
        present (leafEntry st.machine.memory st.machine.activePage a) = false
  | _ => True

section Machines

variable {m : Machine}

/-- Roots with the same entry are walked alike. -/
theorem getPage_congr_root {va c c' : ℕ}
    (h : m.memory (align c) (pmlIndex va) = m.memory (align c') (pmlIndex va)) (user : Bool) :
    (m.getPage va c false user).1 = (m.getPage va c' false user).1 := by
  have hload : m.load ⟨align c, pmlIndex va⟩ = m.load ⟨align c', pmlIndex va⟩ := h
  have hdescend : m.descend ⟨align c, pmlIndex va⟩ false user = m.descend ⟨align c', pmlIndex va⟩ false user := by
    unfold Machine.descend
    rw [hload]
    rfl
  unfold Machine.getPage
  rw [hdescend]

/-- Giving back pages that are not mapped changes neither the pool nor the memory. -/
theorem deallocateRun_absent {cr3 : ℕ} (vas : List ℕ) (hvas : ∀ a ∈ vas, pmlIndex a ≠ 510)
    (habsent : ∀ a ∈ vas, present (leafEntry m.memory cr3 a) = false) :
    (run (Machine.deallocatePage cr3) m vas).memory = m.memory ∧
      (run (Machine.deallocatePage cr3) m vas).framePool = m.framePool ∧
      (run (Machine.deallocatePage cr3) m vas).activePage = m.activePage := by
  induction vas generalizing m with
  | nil => exact ⟨rfl, rfl, rfl⟩
  | cons va vas ih =>
    rw [List.forall_mem_cons] at hvas habsent
    obtain ⟨hmem, hpool, hactive⟩ := Machine.deallocatePage_absent m hvas.1 habsent.1
    have hrest := ih hvas.2 (m := Machine.deallocatePage cr3 m va) (by rw [hmem]; exact habsent.2)
    rw [hmem, hpool, hactive] at hrest
    exact hrest

end Machines

namespace KernelHeap

variable {st : KernelHeap}

/-- The frames that the heap must leave alone: the roots, and what they link outside the heap slot. -/
def Kept (st : KernelHeap) (f : ℕ) : Prop :=
  ∃ c ∈ st.spaces, f = align c ∨
    ∃ i < 512, i ≠ reservedHeapMappings ∧ present (st.entry c i) = true ∧ f = frameOf (st.entry c i)

/-- The spaces agree, and below the heap slot of the active one there is a tree apart from what is kept. -/
structure Ready (st : KernelHeap) : Prop where
  active : st.machine.activePage ∈ st.spaces
  tables : HeapKept (align st.machine.activePage) st.Kept st.machine
  entries : ∀ c ∈ st.spaces, ∀ i, 256 ≤ i → i < 512 → st.entry c i = st.entry st.machine.activePage i

/-- The state before the heap is used is ready. -/
theorem Booted.ready (h : st.Booted) : st.Ready := by
  have hactive : st.machine.activePage ∈ st.spaces := by
    rw [h.spaces]
    exact List.mem_singleton_self _
  have hchild (i : ℕ) : heapLinks.child 0 i (st.entry st.machine.activePage i) = none := by
    cases hchild : heapLinks.child 0 i (st.entry st.machine.activePage i) with
    | none => rfl
    | some C =>
      obtain ⟨hpresent, -, hslot⟩ := heapLinks_child hchild
      rw [hslot rfl, h.unused] at hpresent
      exact absurd hpresent (by simp)
  have hlink {l i T C : ℕ} {s : Unit}
      (hplace : heapLinks.Upper (align st.machine.activePage) (fun _ => ()) (fun _ => none) l s T i) :
      heapLinks.child l i (st.machine.memory T i) ≠ some C := by
    cases hplace with
    | root _ _ => exact fun hC => absurd ((hchild i).symm.trans hC) (by simp)
    | below hT _ _ => exact absurd hT (by simp)
  refine ⟨hactive, ⟨fun _ => none, ?_⟩, ?_⟩
  · refine ⟨h.pool, h.nonempty, h.below, ⟨rfl, fun hplace hC => absurd hC (hlink hplace),
      fun hC => absurd hC (by simp), fun _ hplace _ hC => absurd hC (hlink hplace)⟩, fun T hT => absurd rfl hT,
      fun f hf => ⟨?_, rfl⟩, fun _ _ => rfl, ⟨_, hactive, Or.inl rfl⟩, fun T s hT => absurd hT (by simp)⟩
    rintro ⟨c, hc, hroot | ⟨i, hi, -, hpresent, hframe⟩⟩
    · rw [h.spaces, List.mem_singleton] at hc
      rw [hroot, hc] at hf
      exact h.root hf
    · rw [h.spaces, List.mem_singleton] at hc
      rw [hc] at hpresent hframe
      exact h.live i hi hpresent (hframe ▸ hf)
  · intro c hc i _ _
    rw [h.spaces, List.mem_singleton] at hc
    rw [hc]

/-- Ready spaces share their kernel half. -/
theorem Ready.shares (h : st.Ready) : st.SharesKernelHalf := by
  have hentries : ∀ c ∈ st.spaces, ∀ c' ∈ st.spaces, ∀ i, 256 ≤ i → i < 512 → st.entry c i = st.entry c' i :=
    fun c hc c' hc' i hlow hi => (h.entries c hc i hlow hi).trans (h.entries c' hc' i hlow hi).symm
  refine ⟨hentries, ?_, ?_⟩
  · intro c hc c' hc' va hva
    exact getPage_congr_root (hentries c hc c' hc' _ hva (Nat.mod_lt _ (by decide))) false
  · intro c hc i hi hpresent hfree
    obtain ⟨tag, htables⟩ := h.tables
    by_cases hslot : i = reservedHeapMappings
    · subst hslot
      rw [h.entries c hc _ (by decide) (by decide)] at hpresent hfree
      have hchild := heapLinks_present (l := 0) hpresent fun _ => rfl
      have htag := (htables.sided.link (.root (show 1 < 5 by decide) (Finset.mem_range.mpr (by decide))) hchild).1
      have hframe := (htables.managed _ (by rw [htag]; simp)).1
      obtain ⟨-, hlt⟩ := htables.frame_lt hframe
      rw [frameOf_of_lt (by unfold align at hlt; omega)] at hfree
      exact absurd ((htables.held _ hfree).2.symm.trans htag) (by simp)
    · exact (htables.held _ hfree).1 ⟨c, hc, Or.inr ⟨i, hi, hslot, hpresent, rfl⟩⟩

/-- The kept frames depend on the entries outside the heap slot only. -/
theorem kept_congr {after : KernelHeap} (hspaces : after.spaces = st.spaces)
    (hsame : ∀ c ∈ st.spaces, ∀ i, i ≠ reservedHeapMappings → after.entry c i = st.entry c i) :
    after.Kept = st.Kept := by
  funext f
  unfold Kept
  rw [hspaces]
  apply propext
  constructor
  · rintro ⟨c, hc, hroot | ⟨i, hi, hslot, hpresent, hframe⟩⟩
    · exact ⟨c, hc, Or.inl hroot⟩
    · rw [hsame c hc i hslot] at hpresent hframe
      exact ⟨c, hc, Or.inr ⟨i, hi, hslot, hpresent, hframe⟩⟩
  · rintro ⟨c, hc, hroot | ⟨i, hi, hslot, hpresent, hframe⟩⟩
    · exact ⟨c, hc, Or.inl hroot⟩
    · rw [← hsame c hc i hslot] at hpresent hframe
      exact ⟨c, hc, Or.inr ⟨i, hi, hslot, hpresent, hframe⟩⟩

/-- A change of the heap that leaves the entry of the slot as it is, or is alone, keeps the spaces ready. -/
theorem Ready.change (h : st.Ready) {pages : ℕ → Prop} {m : Machine} (start : ℕ)
    (hchange : HeapChange (align st.machine.activePage) st.Kept pages st.machine m)
    (hslot : st.Alone ∨ m.memory (align st.machine.activePage) reservedHeapMappings =
      st.entry st.machine.activePage reservedHeapMappings) : Ready ⟨m, start, st.spaces⟩ := by
  obtain ⟨hkept, heffect⟩ := hchange
  have hword (c : ℕ) (hc : c ∈ st.spaces) (i : ℕ) (hi : i ≠ reservedHeapMappings) :
      m.memory (align c) i = st.entry c i :=
    heffect.kept _ ⟨c, hc, Or.inl rfl⟩ i fun hhere => hi hhere.2
  have hsame : (⟨m, start, st.spaces⟩ : KernelHeap).Kept = st.Kept := kept_congr rfl hword
  refine ⟨heffect.active ▸ h.active, ?_, ?_⟩
  · rw [hsame]
    change HeapKept (align m.activePage) st.Kept m
    rw [heffect.active]
    exact hkept
  · intro c hc i hlow hi
    change m.memory (align c) i = m.memory (align m.activePage) i
    rw [heffect.active]
    by_cases hroot : align c = align st.machine.activePage
    · rw [hroot]
    · have hstays := hslot.resolve_left fun halone => hroot (halone c hc)
      have hother : m.memory (align c) i = st.entry c i :=
        heffect.kept _ ⟨c, hc, Or.inl rfl⟩ i fun hhere => hroot hhere.1
      rw [hother, h.entries c hc i hlow hi]
      by_cases hi' : i = reservedHeapMappings
      · rw [hi', hstays]
      · exact (hword _ h.active i hi').symm

/-- A mapped page beside the pages of a change keeps the entry of the slot. -/
theorem MapsBeside.slot {pages : List ℕ} (hbeside : st.MapsBeside pages) {m : Machine}
    (heffect : HeapEffect (align st.machine.activePage) st.Kept (· ∈ pages) st.machine m) :
    m.memory (align st.machine.activePage) reservedHeapMappings = st.entry st.machine.activePage reservedHeapMappings := by
  obtain ⟨va, hva, hout, hpresent⟩ := hbeside
  cases hwalk : paging.walk st.machine.memory 0 (align st.machine.activePage) (indices va) with
  | none =>
    rw [leafEntry_of_none hwalk] at hpresent
    exact absurd hpresent (by decide)
  | some pt =>
    rw [leafEntry_of_some hwalk] at hpresent
    rw [← walk_heapLinks hva] at hwalk
    have hpage : HeapPage (align st.machine.activePage) st.machine va (align (st.machine.memory pt (tableIndex va))) := by
      unfold HeapPage heapPath
      rw [Links.walk_snoc, hwalk]
      exact heapLinks_present hpresent fun habsurd => absurd habsurd (by simp [indices])
    exact (heffect.mapped va hva hout _ hpage).2

/-- `create_pml4` keeps the spaces ready. -/
theorem Ready.createPml4 (h : st.Ready) : (st.exec .createPml4).Ready := by
  obtain ⟨tag, htables⟩ := h.tables
  have hother (hne : (getFreeFrame st.machine.framePool).1 ≠ 0) :
      align st.machine.activePage ≠ (getFreeFrame st.machine.framePool).1 :=
    fun heq => (htables.fresh hne).1 (heq ▸ htables.root)
  have hactive : st.machine.createPml4.2.activePage = st.machine.activePage := createPml4_activePage htables.nonempty
  unfold exec
  dsimp only
  rcases createPml4_cases htables.pool htables.nonempty hother with
    ⟨hzero, hpool, hmem⟩ | ⟨f, hf, hne, hroot, halign, hpool, hoff, htent⟩
  · rw [if_pos hzero]
    have hchange : HeapChange (align st.machine.activePage) st.Kept (fun _ => False) st.machine st.machine.createPml4.2 :=
      ⟨⟨tag, htables.same hpool hmem⟩, .same hmem hactive⟩
    refine h.change st.heapStart hchange (Or.inr ?_)
    rw [hmem]
    rfl
  · rw [if_neg hroot]
    have hold {c : ℕ} (hc : c ∈ st.spaces) : align c ≠ f :=
      fun heq => (htables.fresh (hf ▸ hne)).1 (hf ▸ heq ▸ ⟨c, hc, Or.inl rfl⟩)
    have hword {c : ℕ} (hc : c ∈ st.spaces) (i : ℕ) : st.machine.createPml4.2.memory (align c) i = st.entry c i := by
      rw [hoff _ (hold hc)]
      rfl
    refine ⟨?_, ⟨tag, ?_⟩, ?_⟩
    · change st.machine.createPml4.2.activePage ∈ st.spaces ++ [st.machine.createPml4.1]
      rw [hactive]
      exact List.mem_append_left _ h.active
    · change HeapTables (align st.machine.createPml4.2.activePage) _ tag st.machine.createPml4.2
      rw [hactive]
      refine htables.takeRoot hf hne hpool hoff ?_
        ⟨_, List.mem_append_left _ h.active, Or.inl rfl⟩
      rintro g ⟨c, hc, hcase⟩
      rcases List.mem_append.mp hc with hc | hc
      · left
        refine ⟨c, hc, hcase.imp_right ?_⟩
        rintro ⟨i, hi, hslot, hpresent, hframe⟩
        change present (st.machine.createPml4.2.memory (align c) i) = true at hpresent
        change g = frameOf (st.machine.createPml4.2.memory (align c) i) at hframe
        rw [hword hc] at hpresent hframe
        exact ⟨i, hi, hslot, hpresent, hframe⟩
      · obtain rfl := List.mem_singleton.mp hc
        rcases hcase with hroot | ⟨i, hi, hslot, hpresent, hframe⟩
        · exact Or.inr (hroot.trans halign)
        · change present (st.machine.createPml4.2.memory (align st.machine.createPml4.1) i) = true at hpresent
          change g = frameOf (st.machine.createPml4.2.memory (align st.machine.createPml4.1) i) at hframe
          rw [halign, htent i hi] at hpresent hframe
          by_cases hhalf : 256 ≤ i
          · rw [if_pos hhalf] at hpresent hframe
            exact Or.inl ⟨_, h.active, Or.inr ⟨i, hi, hslot, hpresent, hframe⟩⟩
          · rw [if_neg hhalf] at hpresent
            exact absurd hpresent (by decide)
    · intro c hc i hlow hi
      change st.machine.createPml4.2.memory (align c) i =
        st.machine.createPml4.2.memory (align st.machine.createPml4.2.activePage) i
      rw [hactive, hword h.active]
      rcases List.mem_append.mp hc with hc | hc
      · rw [hword hc]
        exact h.entries c hc i hlow hi
      · rw [List.mem_singleton.mp hc, halign, htent i hi, if_pos hlow]
        rfl

/-- `__kclib_allocate` keeps the spaces ready when it keeps the slot. -/
theorem Ready.allocate (h : st.Ready) {aamount : ℕ} (hslot : (HeapCall.allocate aamount).OnSlot st)
    (hkeeps : (HeapCall.allocate aamount).KeepsSlot st) : (st.exec (.allocate aamount)).Ready := by
  have hchange := h.tables.allocate rfl hslot true false
  have hstays : st.Alone ∨ _ := hkeeps.imp_right fun hbeside => hbeside.slot hchange.2
  change (st.kclibAllocate aamount).2.Ready
  unfold kclibAllocate
  dsimp only
  split
  · exact h.change _ hchange hstays
  · exact h.change _ hchange hstays

/-- `__kclib_deallocate` keeps the spaces ready when it keeps the slot. -/
theorem Ready.deallocate (h : st.Ready) {afrom aamount : ℕ} (hslot : (HeapCall.deallocate afrom aamount).OnSlot st)
    (hkeeps : (HeapCall.deallocate afrom aamount).KeepsSlot st) : (st.exec (.deallocate afrom aamount)).Ready := by
  have hchange := h.tables.deallocate rfl hslot
  refine h.change st.heapStart hchange ?_
  rcases hkeeps with halone | hbeside | habsent
  · exact Or.inl halone
  · exact Or.inr (hbeside.slot hchange.2)
  · right
    have hout : ∀ a ∈ Machine.deallocatePages afrom aamount, pmlIndex a ≠ 510 := by
      intro a ha
      rw [hslot a ha]
      decide
    unfold Machine.deallocate
    split
    · exact congrFun (congrFun (deallocateRun_absent (m := st.machine.lock .tlb) _ hout habsent).1 _) _
    · rfl

/-- Activating one of the address spaces keeps them ready. -/
theorem Ready.activate (h : st.Ready) {cr3 : ℕ} (hcr3 : cr3 ∈ st.spaces) : (st.exec (.activate cr3)).Ready := by
  obtain ⟨tag, htables⟩ := h.tables
  refine ⟨hcr3, ⟨tag, ?_⟩, ?_⟩
  · have hkept : st.Kept (align cr3) := ⟨cr3, hcr3, Or.inl rfl⟩
    have hsame : ∀ i ∈ heapLinks.slots, heapLinks.child 0 i (st.machine.memory (align cr3) i) =
        heapLinks.child 0 i (st.machine.memory (align st.machine.activePage) i) := by
      intro i _
      by_cases hi : i = reservedHeapMappings
      · subst hi
        exact congrArg _ (h.entries cr3 hcr3 _ (by decide) (by decide))
      · unfold heapLinks
        simp only [hi, forall_const, and_false, if_false]
    exact ⟨htables.pool, htables.nonempty, htables.below,
      htables.sided.reroot (fun _ _ => True.intro) (htables.apart _ hkept) hsame, htables.managed, htables.held,
      htables.apart, hkept, htables.clean⟩
  · intro c hc i hlow hi
    exact (h.entries c hc i hlow hi).trans (h.entries cr3 hcr3 i hlow hi).symm

/-- Every call that stays in the slot and keeps it keeps the spaces ready. -/
theorem Ready.exec (h : st.Ready) {call : HeapCall} (hslot : call.OnSlot st) (hkeeps : call.KeepsSlot st) :
    (st.exec call).Ready := by
  cases call with
  | createPml4 => exact h.createPml4
  | allocate aamount => exact h.allocate hslot hkeeps
  | deallocate afrom aamount => exact h.deallocate hslot hkeeps
  | activate cr3 => exact h.activate hslot

end KernelHeap

/-- In every run whose calls keep the heap slot, the address spaces share their kernel half. -/
theorem kernelHalf_shared (st : KernelHeap) (hboot : st.Booted) (calls : List HeapCall)
    (hcalls : Guarded KernelHeap.exec (fun s c => c.OnSlot s ∧ c.KeepsSlot s) st calls) :
    (run KernelHeap.exec st calls).SharesKernelHalf :=
  (hcalls.invariant KernelHeap.Ready (fun _ _ h hguard => h.exec hguard.1 hguard.2) hboot.ready).shares

/-- The heap before its first use, in the address space of the blank machine. -/
def unusedHeap : KernelHeap := ⟨blankMachine, addressOffset reservedHeapMappings, [0x100000]⟩

/-- The unused heap is the state to start from. -/
theorem unusedHeap_booted : unusedHeap.Booted := by
  have hcounted : Counted {0x100000} blankMachine := blankSpaces_booted.counted
  have habsent (i : ℕ) : present (unusedHeap.entry unusedHeap.machine.activePage i) = false := by
    change present 0 = false
    decide
  exact {
    pool := hcounted.pool
    nonempty := hcounted.nonempty
    below := hcounted.below
    spaces := rfl
    root := by decide +kernel
    unused := habsent _
    live := fun i _ hpresent => absurd ((habsent i).symm.trans hpresent) (by simp) }

/-- A page for the heap, a new address space, and another page for the heap beside the first. -/
theorem kernelHalf_shared_pages :
    (run KernelHeap.exec unusedHeap [.allocate 0x1000, .createPml4, .allocate 0x1000]).SharesKernelHalf := by
  apply kernelHalf_shared unusedHeap unusedHeap_booted
  have hbeside : KernelHeap.MapsBeside (run KernelHeap.exec unusedHeap [.allocate 0x1000, .createPml4])
      (Machine.allocatePages (run KernelHeap.exec unusedHeap [.allocate 0x1000, .createPml4]).heapStart
        0x1000) :=
    ⟨0xFFFFFE8000000000, by decide, by unfold SamePage; decide +kernel, by decide +kernel⟩
  exact ⟨⟨by decide +kernel, Or.inl (by decide +kernel)⟩, ⟨trivial, trivial⟩,
    ⟨by decide +kernel, Or.inr hbeside⟩, trivial⟩

/-- The heap gets its first page after an address space was created: only the active root has the entry
of the slot. -/
theorem kernelHalf_misses_growth :
    unusedHeap.Booted ∧
      Guarded KernelHeap.exec (fun s c => c.OnSlot s) unusedHeap [.createPml4, .allocate 0x1000] ∧
      ¬ (run KernelHeap.exec unusedHeap [.createPml4, .allocate 0x1000]).SharesKernelHalf := by
  refine ⟨unusedHeap_booted, by decide +kernel, fun hshares => ?_⟩
  have hequal := hshares.entries 0x100000 (by decide +kernel) 0x201000 (by decide +kernel)
    reservedHeapMappings (by decide) (by decide)
  have hzero : (run KernelHeap.exec unusedHeap [.createPml4, .allocate 0x1000]).entry 0x201000
      reservedHeapMappings = 0 := by decide +kernel
  have hother : (run KernelHeap.exec unusedHeap [.createPml4, .allocate 0x1000]).entry 0x100000
      reservedHeapMappings ≠ 0 := by decide +kernel
  exact hother (hequal.trans hzero)

end Cthulhu
