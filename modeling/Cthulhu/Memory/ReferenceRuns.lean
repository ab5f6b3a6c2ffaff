import Cthulhu.Memory.CountedMaps

/-!
# Reference counts over runs

Runs of the paging interface from boot on, with the set of root tables created so far. As long
as no operation does what its condition rules out, the use count of every pool frame is its
number of references, so a frame is free exactly when nothing refers to it.

The conditions name what the code gets wrong. An entry with the execute-disable bit is not
recognised when it is cleared, and its frame is lost; a mapping written over another one loses
its frame too; and a new root shares the kernel's tables without counting them.
-/

namespace Cthulhu

open Lib

section NewRoot

variable {roots : Finset ℕ} {m : Machine}

/-- The kernel half of the active root leads to no frame of the pool. -/
def KernelHalfOutside (m : Machine) : Prop :=
  ∀ i, 256 ≤ i → i < 512 → i ≠ 510 → present (m.memory (align m.activePage) i) = true →
    ¬ IsFrame m.framePool (align (m.memory (align m.activePage) i))

/-- A fresh frame with the kernel half of the active root is a new root. -/
theorem Counted.newRoot (h : Counted roots m) (hactive : align m.activePage ∈ roots)
    (hkernel : KernelHalfOutside m) {f : ℕ} (hf : f = (getFreeFrame m.framePool).1) (hne : f ≠ 0) {m' : Machine}
    (hpool : m'.framePool = (getFreeFrame m.framePool).2) (hoff : ∀ n, n ≠ f → m'.memory n = m.memory n)
    (htent : ∀ i < 512, m'.memory f i = if 256 ≤ i then m.memory (align m.activePage) i else 0) :
    Counted (insert f roots) m' := by
  obtain ⟨hframe, -, hinv, hlayout, -, husage⟩ := h.pool.taken hf hne
  obtain ⟨hzero, hnot⟩ := h.growable.fresh hf hne
  have hroot : f ∉ roots := fun hmem => hnot ⟨0, by decide, hmem⟩
  -- an entry of the new root is an entry of the active one
  have hentry (i : ℕ) (hi : i < 512) (C : ℕ) (hC : paging.child 0 i (m'.memory f i) = some C) :
      paging.child 0 i (m.memory (align m.activePage) i) = some C ∧ ¬ IsFrame m.framePool C := by
    rw [htent i hi] at hC
    by_cases hhalf : 256 ≤ i
    · rw [if_pos hhalf] at hC
      refine ⟨hC, ?_⟩
      have hpresent : present (m.memory (align m.activePage) i) = true := by
        by_contra hfalse
        rw [child_of_not_present (Bool.eq_false_iff.mpr hfalse)] at hC
        exact absurd hC (by simp)
      have hmirror : i ≠ 510 := by
        rintro rfl
        simp [paging] at hC
      rw [child_upper (by decide) (fun hm => hmirror hm.2) hpresent] at hC
      exact Option.some.inj hC ▸ hkernel i hhalf hi hmirror hpresent
    · rw [if_neg hhalf, child_zero] at hC
      exact absurd hC (by simp)
  have hknown : ∀ i ∈ paging.slots, ∀ C, paging.child 0 i (m'.memory f i) = some C →
      C ∈ paging.tables m.memory roots 1 := by
    intro i hi C hC
    exact Links.mem_tables_succ.mpr ⟨_, hactive, i, hi, (hentry i (Finset.mem_range.mp hi) C hC).1⟩
  have htables := Links.tables_insert_root (L := paging) (by decide) hnot hoff hknown
  refine h.next (by rw [hpool, hlayout]) (by rw [hpool]; exact hinv) (by rw [hpool]; exact h.cow.getFreeFrame)
    (h.leveled.insert_root (by decide) hnot hoff hknown) ?_ ?_
  · intro g hg
    have hown : ∑ i ∈ paging.slots, paging.linkAt m'.memory g 0 f i = 0 := by
      refine Finset.sum_eq_zero fun i hi => ?_
      unfold Links.linkAt
      rw [if_neg fun hC => (hentry i (Finset.mem_range.mp hi) g hC).2 hg]
    have hlinks := Links.linkCount_insert_root (L := paging) (by decide) hnot hoff hknown g
    rw [hown, Nat.add_zero] at hlinks
    rw [hpool, husage g hg, references, hlinks]
    have hcount := h.counted g hg
    unfold references at hcount hzero
    by_cases hgf : g = f
    · rw [if_pos hgf, if_pos (Finset.mem_insert.mpr (Or.inl hgf)), hgf]
      omega
    · simp only [Finset.mem_insert, hgf, false_or, if_false]
      exact hcount
  · intro l hl T hT i hi g hg
    rw [htables l hl] at hT
    by_cases hTf : T = f
    · by_cases hl0 : l = 0
      · rw [hTf, hl0] at hg
        have hC := (hentry i hi g hg).1
        exact h.named 0 (by decide) _ hactive i hi g hC
      · rw [if_neg hl0] at hT
        exact absurd ⟨l, hl, hTf ▸ hT⟩ hnot
    · rw [hoff T hTf] at hg
      refine h.named l hl T ?_ i hi g hg
      by_cases hl0 : l = 0
      · rw [if_pos hl0] at hT
        rw [hl0]
        exact (Finset.mem_insert.mp hT).resolve_left hTf
      · rwa [if_neg hl0] at hT

/-- `create_pml4` fails and changes no memory, or takes a frame and gives it the kernel half of the
active root. -/
theorem createPml4_cases (hinv : PoolInv m.framePool) (hnonempty : m.framePool ≠ [])
    (hother : (getFreeFrame m.framePool).1 ≠ 0 → align m.activePage ≠ (getFreeFrame m.framePool).1) :
    (m.createPml4.1 = 0 ∧ m.createPml4.2.framePool = m.framePool ∧ m.createPml4.2.memory = m.memory) ∨
      ∃ f, f = (getFreeFrame m.framePool).1 ∧ f ≠ 0 ∧ m.createPml4.1 ≠ 0 ∧ align m.createPml4.1 = f ∧
        m.createPml4.2.framePool = (getFreeFrame m.framePool).2 ∧
        (∀ n, n ≠ f → m.createPml4.2.memory n = m.memory n) ∧
        ∀ i < 512, m.createPml4.2.memory f i = if 256 ≤ i then m.memory (align m.activePage) i else 0 := by
  have htaken := Machine.getFreeFrame_eq (m := m.lock .frame) hnonempty
  unfold Machine.createPml4
  dsimp only
  rw [htaken]
  by_cases hzero : (getFreeFrame (m.lock .frame).framePool).1 = 0
  · simp only [hzero, if_true]
    exact Or.inl ⟨trivial, rfl, rfl⟩
  · simp only [hzero, if_false]
    obtain ⟨hframe, hhigh, -⟩ := hinv.taken rfl hzero
    have haligned := (hinv.frame_aligned hframe).1
    change (getFreeFrame m.framePool).1 ≠ 0 at hzero
    have hother := hother hzero
    right
    refine ⟨(getFreeFrame m.framePool).1, rfl, hzero, ?_, ?_, rfl, fun n hn => ?_, fun i hi => ?_⟩
    · change (getFreeFrame m.framePool).1 - (getFreeFrame m.framePool).1 % 16 + m.activePage % 16 ≠ 0
      omega
    · change align ((getFreeFrame m.framePool).1 - (getFreeFrame m.framePool).1 % 16 + m.activePage % 16) = _
      unfold align
      omega
    · simp only [Machine.unlock, Machine.lock, Machine.fill, Function.update_of_ne hn]
    · simp only [Machine.unlock, Machine.lock, Machine.fill, Function.update_self, Function.update_of_ne hother,
        hi, and_true]

/-- `create_pml4` stays in the active address space. -/
theorem createPml4_activePage (hnonempty : m.framePool ≠ []) : m.createPml4.2.activePage = m.activePage := by
  unfold Machine.createPml4
  dsimp only
  rw [Machine.getFreeFrame_eq (m := m.lock .frame) hnonempty]
  by_cases hzero : (getFreeFrame (m.lock .frame).framePool).1 = 0
  · simp only [hzero, if_true]
    rfl
  · simp only [hzero, if_false]
    rfl

/-- `create_pml4` fails, or returns a new root and keeps the counts right. -/
theorem Counted.createPml4 (h : Counted roots m) (hactive : align m.activePage ∈ roots)
    (hkernel : KernelHalfOutside m) :
    Counted (if m.createPml4.1 = 0 then roots else insert (align m.createPml4.1) roots) m.createPml4.2 := by
  have hother (hne : (getFreeFrame m.framePool).1 ≠ 0) : align m.activePage ≠ (getFreeFrame m.framePool).1 :=
    fun heq => (h.growable.fresh rfl hne).2 ⟨0, by decide, heq ▸ hactive⟩
  rcases createPml4_cases h.pool h.nonempty hother with
    ⟨hzero, hpool, hmem⟩ | ⟨f, hf, hne, hroot, halign, hpool, hoff, htent⟩
  · rw [if_pos hzero]
    exact h.same hpool hmem
  · rw [if_neg hroot, halign]
    exact h.newRoot hactive hkernel hf hne hpool hoff htent

end NewRoot

/-- A machine with the root tables created so far. -/
structure AddressSpaces where
  machine : Machine
  roots : Finset ℕ

/-- The calls a run consists of; the last one loads the root register. -/
inductive PagingOp
  | allocate (start amount : ℕ) (kernel readonly : Bool) (cr3 : ℕ)
  | allocateMem (ainfo : AllocInfo) (kernel readonly : Bool) (cr3 : ℕ) (stale : ℕ → ℕ)
  | pageFault (address errcode : ℕ) (stale : ℕ → ℕ)
  | mapRange (start endAddr tostart : ℕ) (virtualMemory readonly kernel : Bool) (cr3 : ℕ)
  | createPml4
  | deallocate (start amount cr3 : ℕ)
  | freePageStructure (va cr3 : ℕ)
  | setActivePage (cr3 : ℕ)

namespace AddressSpaces

/-- One call. -/
def step (st : AddressSpaces) : PagingOp → AddressSpaces
  | .allocate start amount kernel readonly cr3 =>
    { st with machine := (st.machine.allocate start amount kernel readonly cr3).2 }
  | .allocateMem ainfo kernel readonly cr3 stale =>
    { st with machine := (st.machine.allocateMem ainfo kernel readonly cr3 stale).2 }
  | .pageFault address errcode stale => { st with machine := (st.machine.pageFault address errcode stale).2 }
  | .mapRange start endAddr tostart virtualMemory readonly kernel cr3 =>
    { st with machine := (st.machine.mapRange start endAddr tostart virtualMemory readonly kernel cr3).2 }
  | .createPml4 =>
    { machine := st.machine.createPml4.2
      roots := if st.machine.createPml4.1 = 0 then st.roots else insert (align st.machine.createPml4.1) st.roots }
  | .deallocate start amount cr3 => { st with machine := st.machine.deallocate start amount cr3 }
  | .freePageStructure va cr3 => { st with machine := st.machine.freePageStructure va cr3 }
  | .setActivePage cr3 => { st with machine := { st.machine with activePage := cr3 } }

/-- What the callers and the processor promise: roots are roots, the mirror is not touched, and a
fault on a present page is reported as such. -/
def Callable (st : AddressSpaces) : PagingOp → Prop
  | .allocate start amount _ _ cr3 =>
    align cr3 ∈ st.roots ∧ ∀ a ∈ Machine.allocatePages start amount, pmlIndex a ≠ 510
  | .allocateMem ainfo _ _ cr3 _ =>
    align cr3 ∈ st.roots ∧ ∀ a ∈ Machine.allocatePages ainfo.start ainfo.amount, pmlIndex a ≠ 510
  | .pageFault address errcode _ =>
    align st.machine.activePage ∈ st.roots ∧ pmlIndex address ≠ 510 ∧
      (bit errcode 0 = true → present (st.machine.pageEntry address st.machine.activePage) = true)
  | .mapRange start endAddr tostart virtualMemory _ _ cr3 =>
    align cr3 ∈ st.roots ∧ ∀ offs ∈ pageRange 0 (sub64 endAddr start), pmlIndex (add64 tostart offs) ≠ 510 ∧
      (virtualMemory = true → pmlIndex (add64 start offs) ≠ 510)
  | .createPml4 => align st.machine.activePage ∈ st.roots
  | .deallocate start amount cr3 =>
    align cr3 ∈ st.roots ∧ ∀ a ∈ Machine.deallocatePages start amount, pmlIndex a ≠ 510
  | .freePageStructure va cr3 => align cr3 ∈ st.roots ∧ pmlIndex va ≠ 510
  | .setActivePage cr3 => align cr3 ∈ st.roots

/-- The condition under which a call keeps the counts right. -/
def Safe (st : AddressSpaces) : PagingOp → Prop
  | .allocate start amount kernel readonly cr3 => st.machine.AllocateSafe start amount kernel readonly cr3
  | .allocateMem ainfo kernel readonly cr3 stale => st.machine.AllocateMemSafe ainfo kernel readonly cr3 stale
  | .mapRange start endAddr tostart virtualMemory readonly kernel cr3 =>
    st.machine.MapRangeSafe start endAddr tostart virtualMemory readonly kernel cr3
  | .createPml4 => KernelHalfOutside st.machine
  | .deallocate start amount cr3 => st.machine.DeallocateSafe start amount cr3
  | .freePageStructure va cr3 => OverwriteSafe cr3 st.machine va
  | .pageFault _ _ _ => True
  | .setActivePage _ => True

/-- A safe call keeps the counts right. -/
theorem step_counted {st : AddressSpaces} {op : PagingOp} (h : Counted st.roots st.machine)
    (hcall : st.Callable op) (hsafe : st.Safe op) : Counted (st.step op).roots (st.step op).machine := by
  cases op with
  | allocate start amount kernel readonly cr3 => exact h.allocate hcall.1 hcall.2 hsafe
  | allocateMem ainfo kernel readonly cr3 stale => exact h.allocateMem hcall.1 hcall.2 hsafe
  | pageFault address errcode stale => exact h.pageFault hcall.1 hcall.2.1 stale hcall.2.2
  | mapRange start endAddr tostart virtualMemory readonly kernel cr3 => exact h.mapRange hcall.1 hcall.2 hsafe
  | createPml4 => exact h.createPml4 hcall hsafe
  | deallocate start amount cr3 => exact h.deallocate hcall.1 hcall.2 hsafe
  | freePageStructure va cr3 =>
    refine (h.freePageStructure hcall.1 hcall.2 ?_).1
    rw [← Machine.pageEntry_eq _ cr3 hcall.2]
    exact hsafe
  | setActivePage cr3 => exact h.same rfl rfl

/-- The reference counts of one state are right. -/
def Agrees (st : AddressSpaces) : Prop :=
  ∀ f, IsFrame st.machine.framePool f →
    usageCount st.machine.framePool f = references st.machine.memory st.roots f ∧
      (f ∈ freeFrames st.machine.framePool ↔ references st.machine.memory st.roots f = 0)

/-- A machine after boot: a fresh pool above the first two megabytes, which no table refers to. -/
structure Booted (regions : List Region) (st : AddressSpaces) : Prop where
  pool : st.machine.framePool = regions.map Region.build
  nonempty : regions ≠ []
  apart : regions.Pairwise Region.Apart
  indexed : ∀ r ∈ regions, poolFrames r.length ≤ 2 ^ 32
  high : ∀ r ∈ regions, 0x200000 ≤ poolStart r.length r.base
  below : ∀ r ∈ regions, r.base + r.length ≤ 2 ^ 62
  leveled : paging.Leveled st.machine.memory st.roots
  outside : ∀ l < 4, ∀ T ∈ paging.tables st.machine.memory st.roots l, ∀ i < 512, ∀ f,
    paging.child l i (st.machine.memory T i) = some f → Unmanaged st.machine.framePool f
  rootsOutside : ∀ R ∈ st.roots, ¬ IsFrame st.machine.framePool R

/-- No table links a frame that every link leads away from. -/
theorem references_of_outside {mem : Memory} {roots : Finset ℕ} {f : ℕ} (hroot : f ∉ roots)
    (h : ∀ l < 4, ∀ T ∈ paging.tables mem roots l, ∀ i < 512, paging.child l i (mem T i) ≠ some f) :
    references mem roots f = 0 := by
  rw [references, if_neg hroot, Nat.zero_add]
  refine Finset.sum_eq_zero fun l hl => Finset.sum_eq_zero fun T hT => Finset.sum_eq_zero fun i hi => ?_
  exact if_neg (h l (Finset.mem_range.mp hl) T hT i (Finset.mem_range.mp hi))

/-- After boot the counts are right: every frame is free and nothing refers to it. -/
theorem Booted.counted {regions : List Region} {st : AddressSpaces} (h : st.Booted regions) :
    Counted st.roots st.machine := by
  have hpool : PoolInv st.machine.framePool := by
    rw [h.pool]
    exact build_poolInv regions h.apart h.indexed
  have hsection (s : SectionInfo) (hs : s ∈ st.machine.framePool) : ∃ r ∈ regions, r.build = s := by
    rw [h.pool] at hs
    exact List.mem_map.mp hs
  have hfresh (r : Region) (hr : r ∈ regions) (i : ℕ) (hi : i < r.build.totalFrames) :
      0x200000 ≤ r.build.frame i ∧ (r.build.frameArray i).usageCount = 0 ∧ (r.build.frameArray i).cowCount = 0 := by
    obtain ⟨last, hlink⟩ := r.build_linked
    have hlayout := r.build_layout
    simp only [SectionInfo.layout, Prod.mk.injEq] at hlayout
    have hstart := h.high r hr
    have hhigh : 0x200000 ≤ poolStart r.length r.base + 0x1000 * i := by omega
    rw [hlayout.2.2] at hi
    refine ⟨?_, ?_, hlink.cow i hi hhigh⟩
    · rw [SectionInfo.frame, hlayout.1]
      exact hhigh
    · exact (hlink.usage i hi).trans (if_pos hhigh)
  refine {
    pool := hpool
    nonempty := by rw [h.pool]; simpa using h.nonempty
    leveled := h.leveled
    counted := ?_
    named := fun l hl T hT i hi f hf => Or.inr (h.outside l hl T hT i hi f hf)
    high := ?_
    below := ?_
    cow := ?_ }
  · intro f hf
    obtain ⟨s, hs, i, hi, hfi⟩ := id hf
    obtain rfl : f = s.frame i := hfi
    obtain ⟨r, hr, rfl⟩ := hsection s hs
    rw [hpool.usageCount_eq hs hi, (hfresh r hr i hi).2.1]
    refine (references_of_outside (fun hmem => h.rootsOutside _ hmem hf) fun l hl T hT j hj hlink => ?_).symm
    exact hpool.managed hf (h.outside l hl T hT j hj _ hlink)
  · rintro f ⟨s, hs, i, hi, rfl⟩
    obtain ⟨r, hr, rfl⟩ := hsection s hs
    exact (hfresh r hr i hi).1
  · intro s hs
    obtain ⟨r, hr, rfl⟩ := hsection s hs
    have hlayout := r.build_layout
    simp only [SectionInfo.layout, Prod.mk.injEq] at hlayout
    rw [hlayout.2.1]
    exact h.below r hr
  · intro s hs i hi
    obtain ⟨r, hr, rfl⟩ := hsection s hs
    exact (hfresh r hr i hi).2.2

end AddressSpaces

/-- In every run from boot whose calls are all safe, use counts are reference counts, and the free
frames are exactly the frames without references. -/
theorem references_run_agree (regions : List Region) (st : AddressSpaces) (hboot : st.Booted regions)
    (ops : List PagingOp)
    (hops : Guarded AddressSpaces.step (fun st op => st.Callable op ∧ st.Safe op) st ops) :
    (run AddressSpaces.step st ops).Agrees := by
  have hcounted := hops.invariant (fun st => Counted st.roots st.machine)
    (fun st op h hguard => AddressSpaces.step_counted h hguard.1 hguard.2) hboot.counted
  exact fun f hf => ⟨hcounted.counted f hf, hcounted.free_iff hf⟩

/-- The blank machine with its root. -/
def blankSpaces : AddressSpaces := ⟨blankMachine, {0x100000}⟩

/-- The blank machine is one after boot. -/
theorem blankSpaces_booted : blankSpaces.Booted [smallRegion] where
  pool := rfl
  nonempty := List.cons_ne_nil _ _
  apart := List.pairwise_singleton _ _
  indexed := by simp only [List.mem_singleton, forall_eq]; decide
  high := by simp only [List.mem_singleton, forall_eq]; decide
  below := by simp only [List.mem_singleton, forall_eq]; decide
  leveled := (blankMachine_oneReference.growable (List.cons_ne_nil _ _)).leveled
  outside := fun l _ T _ i _ f hf => by
    have hzero : paging.child l i (blankSpaces.machine.memory T i) = none := child_zero l i
    rw [hzero] at hf
    exact absurd hf (by simp)
  rootsOutside := fun R hR hframe => by
    obtain rfl : R = 0x100000 := Finset.mem_singleton.mp hR
    obtain ⟨s, hs, i, -, heq⟩ := hframe
    obtain rfl : s = smallRegion.build := List.mem_singleton.mp hs
    have hstart : smallRegion.build.startWord = 0x201000 := congrArg Prod.fst smallRegion.build_layout
    omega

/-- Mapping one page of the blank machine and unmapping it is a safe run. -/
theorem references_run_agree_blank :
    (run AddressSpaces.step blankSpaces
      [.allocate 0x400000 0x1000 false false 0x100000, .deallocate 0x400000 0x1000 0x100000]).Agrees := by
  refine references_run_agree [smallRegion] blankSpaces blankSpaces_booted _
    ⟨⟨⟨by decide, by decide⟩, fun addr haddr => ?_⟩, ⟨⟨by decide, by decide⟩, ?_⟩, trivial⟩
  · have hdone : (run (Machine.allocatePage false false 0x100000) (blankMachine, none)
        (Machine.allocatePages 0x400000 0x1000)).2 = none := by decide +kernel
    rw [show blankSpaces.machine = blankMachine from rfl, hdone] at haddr
    exact absurd haddr (by simp)
  · have hlow : ((blankMachine.allocate 0x400000 0x1000 false false 0x100000).2.lock .tlb).pageEntry
        0x400000 0x100000 < 2 ^ 62 := by decide +kernel
    exact ⟨fun _ hhigh => absurd hhigh (Nat.not_le.mpr hlow), trivial⟩

/-- With every root cleared there are no other tables and no links. -/
theorem references_of_clear {m : Machine} {roots : Finset ℕ} {f : ℕ} (hroot : f ∉ roots)
    (hclear : ∀ R ∈ roots, m.tableClear R = true) : references m.memory roots f = 0 := by
  have hentry (R : ℕ) (hR : R ∈ roots) (l i : ℕ) (hi : i < 512) : paging.child l i (m.memory R i) = none := by
    rw [(m.tableClear_iff R).mp (hclear R hR) i hi, child_zero]
  have hnone (l : ℕ) : paging.tables m.memory roots (l + 1) = ∅ := by
    induction l with
    | zero =>
      refine Finset.eq_empty_of_forall_notMem fun C hC => ?_
      obtain ⟨T, hT, i, hi, hchild⟩ := Links.mem_tables_succ.mp hC
      rw [hentry T hT 0 i (Finset.mem_range.mp hi)] at hchild
      exact absurd hchild (by simp)
    | succ l ih =>
      refine Finset.eq_empty_of_forall_notMem fun C hC => ?_
      obtain ⟨T, hT, -⟩ := Links.mem_tables_succ.mp hC
      rw [ih] at hT
      exact absurd hT (by simp)
  refine AddressSpaces.references_of_outside hroot fun l _ T hT i hi => ?_
  cases l with
  | zero =>
    rw [hentry T hT 0 i hi]
    simp
  | succ l =>
    rw [hnone l] at hT
    exact absurd hT (by simp)

/-- One page is mapped with the execute-disable bit and unmapped. -/
def leakingRun : List PagingOp :=
  [.allocateMem ⟨0x400000, 0x1000, true, false, false⟩ false false 0x100000 fun _ => 0,
    .deallocate 0x400000 0x1000 0x100000]

/-- A page mapped with the execute-disable bit loses its frame when it is unmapped. -/
theorem references_agree_fails :
    ¬ ∀ (regions : List Region) (st : AddressSpaces), st.Booted regions → ∀ ops : List PagingOp,
      Guarded AddressSpaces.step AddressSpaces.Callable st ops → (run AddressSpaces.step st ops).Agrees := by
  intro hall
  have hagrees := hall [smallRegion] blankSpaces blankSpaces_booted leakingRun
    ⟨⟨by decide, by decide⟩, ⟨by decide, by decide⟩, trivial⟩ 0x204000
  have hlayout : (run AddressSpaces.step blankSpaces leakingRun).machine.framePool.map SectionInfo.layout =
      blankMachine.framePool.map SectionInfo.layout := by decide +kernel
  have hframe : IsFrame blankMachine.framePool 0x204000 :=
    ⟨smallRegion.build, List.mem_singleton_self _, 3, by decide +kernel, by decide +kernel⟩
  have hused : usageCount (run AddressSpaces.step blankSpaces leakingRun).machine.framePool 0x204000 = 1 := by
    decide +kernel
  have hclear : (run AddressSpaces.step blankSpaces leakingRun).machine.tableClear 0x100000 = true := by
    decide +kernel
  have hroots : (run AddressSpaces.step blankSpaces leakingRun).roots = {0x100000} := rfl
  have hzero : references (run AddressSpaces.step blankSpaces leakingRun).machine.memory
      (run AddressSpaces.step blankSpaces leakingRun).roots 0x204000 = 0 := by
    rw [hroots]
    refine references_of_clear (by decide) fun R hR => ?_
    obtain rfl : R = 0x100000 := Finset.mem_singleton.mp hR
    exact hclear
  have hbad := (hagrees ((isFrame_congr hlayout _).mpr hframe)).1
  rw [hused, hzero] at hbad
  exact absurd hbad (by decide)

end Cthulhu
