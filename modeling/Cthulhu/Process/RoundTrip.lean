import Cthulhu.Memory.LeafEntries
import Cthulhu.Process.Allocation

/-!
# Allocating and deallocating again

A reserved page that is never touched keeps its on-demand marker: `deallocate_frame` returns
at once when an entry is not present. A touched page is present with the execute-disable bit,
and its frame is not found when it is freed. The round trip therefore undoes itself for every
set of touched pages only where no page is reserved at all.
-/

namespace Cthulhu

open Lib

section Marked

variable {roots : Finset ℕ} {m : Machine} {cr3 : ℕ}

/-- The entry of the page is an on-demand marker. -/
def Marked (cr3 : ℕ) (m : Machine) (page : ℕ) : Prop :=
  present (leafEntry m.memory cr3 page) = false ∧ bit (leafEntry m.memory cr3 page) 1 = true ∧
    bit (leafEntry m.memory cr3 page) 3 = true

/-- A marker is one, whatever the stack held. -/
theorem aodMarker_bits (stale : ℕ) (exec : Bool) :
    bit (aodMarker stale exec) 1 = true ∧ bit (aodMarker stale exec) 3 = true := by
  unfold aodMarker
  rw [bit_setBit_of_ne _ _ (by decide), bit_setBit_of_ne _ _ (by decide), bit_setBit_self,
    bit_setBit_of_ne _ _ (by decide), bit_setBit_self]
  exact ⟨rfl, rfl⟩

/-- Storing a marker marks the pages of its slot and leaves the entries of all others. -/
theorem Growable.leafEntry_storeMarker (h : Growable roots m) {p : Slot} (hp : LeafSlot roots m p)
    (hcr3 : align cr3 ∈ roots) (stale : ℕ) (exec : Bool) (page : ℕ) :
    (Marked cr3 (m.store p (aodMarker stale exec)) page ∧
        paging.walk m.memory 0 (align cr3) (indices page) = some p.table ∧ tableIndex page = p.index) ∨
      (leafEntry (m.store p (aodMarker stale exec)).memory cr3 page = leafEntry m.memory cr3 page ∧
        ¬ (paging.walk m.memory 0 (align cr3) (indices page) = some p.table ∧ tableIndex page = p.index)) := by
  have hbits := aodMarker_bits stale exec
  have hpresent := present_aodMarker stale exec
  have hentry : leafEntry (m.store p (aodMarker stale exec)).memory cr3 page = _ :=
    h.leafEntry_store hp (fun _ _ _ _ => rfl) (aodMarker stale exec) hcr3 page
  by_cases hslot : paging.walk m.memory 0 (align cr3) (indices page) = some p.table ∧ tableIndex page = p.index
  · rw [if_pos hslot] at hentry
    unfold Marked
    rw [hentry]
    exact Or.inl ⟨⟨hpresent, hbits⟩, hslot⟩
  · rw [if_neg hslot] at hentry
    exact Or.inr ⟨hentry, hslot⟩

/-- What an on-demand reservation does to the entries: it marks pages, and leaves all others. -/
def Reserves (cr3 : ℕ) (m m' : Machine) (pages : List ℕ) : Prop :=
  (∀ page, Marked cr3 m' page ∨ leafEntry m'.memory cr3 page = leafEntry m.memory cr3 page) ∧
    ∀ page ∈ pages, Marked cr3 m' page

/-- Reservations one after the other. -/
theorem Reserves.trans {m' m'' : Machine} {pages more : List ℕ} (h : Reserves cr3 m m' pages)
    (h' : Reserves cr3 m' m'' more) : Reserves cr3 m m'' (pages ++ more) := by
  have hkeep (page : ℕ) (hmarked : Marked cr3 m' page) : Marked cr3 m'' page := by
    rcases h'.1 page with hnew | hsame
    · exact hnew
    · unfold Marked
      rw [hsame]
      exact hmarked
  refine ⟨fun page => ?_, fun page hpage => ?_⟩
  · rcases h'.1 page with hnew | hsame
    · exact Or.inl hnew
    · rcases h.1 page with hmarked | hold
      · exact Or.inl (hkeep page hmarked)
      · exact Or.inr (hsame.trans hold)
  · rcases List.mem_append.mp hpage with hmem | hmem
    · exact hkeep page (h.2 page hmem)
    · exact h'.2 page hmem

/-- The request as the loop starts with it. -/
def AllocInfo.aligned (ainfo : AllocInfo) : AllocInfo :=
  { ainfo with
    start := align ainfo.start
    amount := pageAlignUp (add64 ainfo.amount (ainfo.start - align ainfo.start)) }

/-- The request of the next round. -/
def AllocInfo.next (ainfo : AllocInfo) : AllocInfo :=
  { ainfo with start := add64 ainfo.start 0x1000, amount := sub64 ainfo.amount 0x1000 }

/-- The next request is as much on demand. -/
theorem AllocInfo.next_aod (ainfo : AllocInfo) : ainfo.next.aod = ainfo.aod := by
  simp only [AllocInfo.next]

/-- The next request is as much finished. -/
theorem AllocInfo.next_finished (ainfo : AllocInfo) : ainfo.next.finished = ainfo.finished := by
  simp only [AllocInfo.next]

/-- An allocating walk that runs out of frames leaves its page without an entry. -/
theorem Growable.getPage_exhausted (h : Growable roots m) (hcr3 : align cr3 ∈ roots) {va : ℕ} (hva : pmlIndex va ≠ 510)
    (user : Bool) (hnone : (m.getPage va cr3 true user).1 = none) :
    leafEntry (m.getPage va cr3 true user).2.memory cr3 va = 0 := by
  have hrule := h.getPage_rule hcr3 hva user (fun _ _ _ => True) (fun b => leafEntry b.memory cr3 va = 0) trivial
    fun l hl T a r ha hwalk _ hdescent => ⟨fun hnone => ?_, fun _ _ => trivial⟩
  · rcases hrule with ⟨-, hzero⟩ | ⟨pt, hslot, -⟩
    · exact hzero
    · exact absurd (hnone.symm.trans hslot) (by simp)
  · -- the level that stopped has no table below it
    cases hdescent with
    | passed => exact absurd hnone (by simp)
    | linked => exact absurd hnone (by simp)
    | exhausted hold =>
      have hnext : paging.walk a.memory 0 (align cr3) ((indices va).take (l + 1)) = none := by
        rw [(indices_take va hl).1, Links.walk_snoc, hwalk, Option.bind_some, length_indices_take va (Nat.le_of_lt hl),
          Nat.zero_add]
        exact hold
      apply leafEntry_of_none
      change paging.walk a.memory 0 (align cr3) (indices va) = none
      rw [← List.take_append_drop (l + 1) (indices va), Links.walk_append, hnext, Option.bind_none]

/-- One round of an on-demand reservation stops with the entries as they were and none for its page, or marks its
page. -/
theorem Growable.reservePage (h : Growable roots m) (hcr3 : align cr3 ∈ roots) {ainfo : AllocInfo}
    (haod : ainfo.aod = true) {va : ℕ} (hva : pmlIndex va ≠ 510) (kernel readonly : Bool) (stale : ℕ → ℕ) :
    ∃ m', Growable roots m' ∧ m'.activePage = m.activePage ∧
      ((Machine.allocateMemPage kernel readonly cr3 stale ((ainfo, m), false) va =
          (({ ainfo with finished := false }, m'), true) ∧ Reserves cr3 m m' [] ∧ leafEntry m'.memory cr3 va = 0) ∨
        (Machine.allocateMemPage kernel readonly cr3 stale ((ainfo, m), false) va = ((ainfo.next, m'), false) ∧
          Reserves cr3 m m' [va] ∧ leafEntry m'.memory cr3 va = aodMarker (stale va) ainfo.exec)) := by
  unfold Machine.allocateMemPage
  simp only [Bool.false_eq_true, if_false]
  have hlocked : Growable roots (m.lock .frame) := ⟨h.pool, h.nonempty, h.leveled, h.unreferenced⟩
  obtain ⟨hgrown, hresult⟩ := hlocked.getPage hcr3 hva !kernel
  have hexhausted := hlocked.getPage_exhausted hcr3 hva !kernel
  have hgrowable := hgrown.growable hlocked
  have hactive := (Grown.config hgrown hlocked).1
  have hentries := fun page => Grown.leafEntry hgrown hlocked hcr3 page
  generalize (m.lock .frame).getPage va cr3 true (!kernel) = r
    at hgrown hresult hexhausted hgrowable hactive hentries
  rcases hresult with ⟨hnone, -⟩ | ⟨pt, hslot, hwalk⟩
  · rw [hnone]
    refine ⟨r.2.unlock .frame, ⟨hgrowable.pool, hgrowable.nonempty, hgrowable.leveled, hgrowable.unreferenced⟩,
      hactive, Or.inl ⟨rfl, ⟨fun page => Or.inr (hentries page), by simp⟩, hexhausted hnone⟩⟩
  · rw [hslot]
    dsimp only
    rw [if_pos haod]
    have hleaf : LeafSlot roots r.2 ⟨pt, tableIndex va⟩ :=
      ⟨Links.walk_mem (show align cr3 ∈ paging.tables r.2.memory roots 0 from hcr3) (indices_mem va) hwalk,
        tableIndex_lt va⟩
    have hstored := hgrowable.storeLeaf hleaf (present_aodMarker (stale va) ainfo.exec)
    have hentry := hgrowable.leafEntry_storeMarker hleaf hcr3 (stale va) ainfo.exec
    refine ⟨(r.2.store ⟨pt, tableIndex va⟩ (aodMarker (stale va) ainfo.exec)).unlock .frame,
      ⟨hstored.pool, hstored.nonempty, hstored.leveled, hstored.unreferenced⟩, hactive,
      Or.inr ⟨rfl, ⟨fun page => ?_, fun page hpage => ?_⟩, ?_⟩⟩
    · exact (hentry page).imp (fun hmarked => hmarked.1) fun hsame => hsame.1.trans (hentries page)
    · rw [List.mem_singleton] at hpage
      subst hpage
      rcases hentry page with hmarked | hsame
      · exact hmarked.1
      · exact absurd ⟨hwalk, rfl⟩ hsame.2
    · have hslot : leafEntry (r.2.store ⟨pt, tableIndex va⟩ (aodMarker (stale va) ainfo.exec)).memory cr3 va = _ :=
        hgrowable.leafEntry_store hleaf (fun _ _ _ _ => rfl) (aodMarker (stale va) ainfo.exec) hcr3 va
      rw [if_pos ⟨hwalk, rfl⟩] at hslot
      exact hslot

/-- A round after the loop stopped changes nothing. -/
theorem Machine.allocateMem_stopped (kernel readonly : Bool) (cr3 : ℕ) (stale : ℕ → ℕ)
    (st : (AllocInfo × Machine) × Bool) (hstop : st.2 = true) (pages : List ℕ) :
    run (Machine.allocateMemPage kernel readonly cr3 stale) st pages = st := by
  induction pages generalizing st with
  | nil => rfl
  | cons va pages ih =>
    have hsame : Machine.allocateMemPage kernel readonly cr3 stale st va = st := by
      unfold Machine.allocateMemPage
      rw [if_pos hstop]
    change run _ (Machine.allocateMemPage kernel readonly cr3 stale st va) pages = st
    rw [hsame, ih st hstop]

/-- An on-demand reservation marks the pages up to the one it stops at, which has no entry and whose request it
leaves. -/
theorem Growable.reserve (h : Growable roots m) (hcr3 : align cr3 ∈ roots) {ainfo : AllocInfo}
    (haod : ainfo.aod = true) (hopen : ainfo.finished = false) (kernel readonly : Bool) (stale : ℕ → ℕ)
    {pages : List ℕ} (hout : ∀ a ∈ pages, pmlIndex a ≠ 510) :
    ∃ m' made rest, pages = made ++ rest ∧ Growable roots m' ∧ m'.activePage = m.activePage ∧
      Reserves cr3 m m' made ∧ (∀ page ∈ rest.head?, leafEntry m'.memory cr3 page = 0) ∧
      run (Machine.allocateMemPage kernel readonly cr3 stale) ((ainfo, m), false) pages =
        ((AllocInfo.next^[made.length] ainfo, m'), !rest.isEmpty) := by
  induction pages generalizing m ainfo with
  | nil => exact ⟨m, [], [], rfl, h, rfl, ⟨fun page => Or.inr rfl, by simp⟩, by simp, rfl⟩
  | cons va pages ih =>
    rw [List.forall_mem_cons] at hout
    have hrun : run (Machine.allocateMemPage kernel readonly cr3 stale) ((ainfo, m), false) (va :: pages) =
        run (Machine.allocateMemPage kernel readonly cr3 stale)
          (Machine.allocateMemPage kernel readonly cr3 stale ((ainfo, m), false) va) pages := rfl
    rw [hrun]
    obtain ⟨m', hgrowable, hactive, ⟨hstop, hreserves, hzero⟩ | ⟨hgo, hreserves, -⟩⟩ :=
      h.reservePage hcr3 haod hout.1 kernel readonly stale
    · refine ⟨m', [], va :: pages, rfl, hgrowable, hactive, hreserves, by simpa using hzero, ?_⟩
      have hsame : ({ ainfo with finished := false } : AllocInfo) = ainfo := by
        cases ainfo
        cases hopen
        rfl
      rw [hstop, Machine.allocateMem_stopped _ _ _ _ _ rfl, hsame]
      rfl
    · obtain ⟨m'', made, rest, hpages, hgrowable', hactive', hreserves', hzero, hrest⟩ :=
        ih hgrowable (ainfo.next_aod.trans haod) (ainfo.next_finished.trans hopen) hout.2
      refine ⟨m'', va :: made, rest, by rw [hpages, List.cons_append], hgrowable', hactive'.trans hactive,
        hreserves.trans hreserves', hzero, ?_⟩
      rw [hgo, hrest]
      rfl

/-- The rounds of the loop keep an open request open. -/
theorem AllocInfo.next_iterate_finished (ainfo : AllocInfo) (k : ℕ) :
    (AllocInfo.next^[k] ainfo).finished = ainfo.finished := by
  induction k generalizing ainfo with
  | zero => rfl
  | succ k ih => exact (ih ainfo.next).trans ainfo.next_finished

/-- `allocate_mem` for an on-demand request: the pages made, the pages left, the first of them without an entry, and
what it reports. -/
theorem Growable.allocateMem_reserve (h : Growable roots m) (hcr3 : align cr3 ∈ roots) {ainfo : AllocInfo}
    (haod : ainfo.aod = true) (hopen : ainfo.finished = false) (kernel readonly : Bool) (stale : ℕ → ℕ)
    (hout : ∀ a ∈ Machine.allocatePages ainfo.start ainfo.amount, pmlIndex a ≠ 510) :
    ∃ m' made rest, Machine.allocatePages ainfo.start ainfo.amount = made ++ rest ∧ Growable roots m' ∧
      m'.activePage = m.activePage ∧ Reserves cr3 m m' made ∧
      (∀ page ∈ rest.head?, leafEntry m'.memory cr3 page = 0) ∧
      m.allocateMem ainfo kernel readonly cr3 stale =
        ({ AllocInfo.next^[made.length] ainfo.aligned with finished := rest.isEmpty }, m') := by
  have haod' : ainfo.aligned.aod = true := haod
  have hopen' : ainfo.aligned.finished = false := hopen
  obtain ⟨m', made, rest, hpages, hgrowable, hactive, hreserves, hzero, hrun⟩ :=
    h.reserve hcr3 haod' hopen' kernel readonly stale hout
  refine ⟨m', made, rest, hpages, hgrowable, hactive, hreserves, hzero, ?_⟩
  have hunfold : m.allocateMem ainfo kernel readonly cr3 stale =
      let st := run (Machine.allocateMemPage kernel readonly cr3 stale) ((ainfo.aligned, m), false)
        (Machine.allocatePages ainfo.start ainfo.amount)
      if st.2 then st.1 else ({ st.1.1 with finished := true }, st.1.2) := rfl
  rw [hunfold, hrun]
  have hstill := (AllocInfo.next_iterate_finished ainfo.aligned made.length).trans hopen'
  generalize AllocInfo.next^[made.length] ainfo.aligned = info at hstill
  cases rest with
  | nil => rfl
  | cons page rest =>
    cases info
    cases hstill
    rfl

/-- Deallocating a page whose entry is not present changes neither memory nor pool. -/
theorem Machine.deallocatePage_absent (m : Machine) {va : ℕ} (hva : pmlIndex va ≠ 510)
    (habsent : present (leafEntry m.memory cr3 va) = false) :
    (Machine.deallocatePage cr3 m va).memory = m.memory ∧
      (Machine.deallocatePage cr3 m va).framePool = m.framePool ∧
      (Machine.deallocatePage cr3 m va).activePage = m.activePage := by
  unfold Machine.deallocatePage Machine.deallocateFrame
  dsimp only
  rw [(m.lock .frame).getPage_false cr3 false hva]
  cases hwalk : paging.walk (m.lock .frame).memory 0 (align cr3) (indices va) with
  | none => exact ⟨rfl, rfl, rfl⟩
  | some pt =>
    rw [leafEntry_of_some (show paging.walk m.memory 0 (align cr3) (indices va) = some pt from hwalk)] at habsent
    have hload : present ((m.lock .frame).load ⟨pt, tableIndex va⟩) = false := habsent
    simp only [Option.map_some, hload, Bool.not_false, if_true]
    exact ⟨rfl, rfl, rfl⟩

/-- Deallocating pages that are all absent changes neither memory nor pool. -/
theorem Machine.deallocate_absent (m : Machine) (cr3 : ℕ) {start amount : ℕ}
    (hout : ∀ a ∈ Machine.deallocatePages start amount, pmlIndex a ≠ 510)
    (habsent : ∀ a ∈ Machine.deallocatePages start amount, present (leafEntry m.memory cr3 a) = false) :
    (m.deallocate start amount cr3).memory = m.memory ∧ (m.deallocate start amount cr3).framePool = m.framePool ∧
      (m.deallocate start amount cr3).activePage = m.activePage := by
  unfold Machine.deallocate
  split
  · have hrun := ((Guarded.trivial (Machine.deallocatePage cr3) (m.lock .tlb)
      (Machine.deallocatePages start amount)).and_mem fun a ha => ha).invariant
      (fun a => a.memory = m.memory ∧ a.framePool = m.framePool ∧ a.activePage = m.activePage)
      (fun a va hsame hmem => by
        obtain ⟨hmemory, hpool, hactive⟩ := a.deallocatePage_absent (hout va hmem.1)
          (by rw [hsame.1]; exact habsent va hmem.1)
        exact ⟨hmemory.trans hsame.1, hpool.trans hsame.2.1, hactive.trans hsame.2.2⟩) ⟨rfl, rfl, rfl⟩
    exact hrun
  · exact ⟨rfl, rfl, rfl⟩

/-- A fault on a marked page is taken as one on demand. -/
theorem Machine.pageFault_marked (m : Machine) {page : ℕ} (hpage : pmlIndex page ≠ 510)
    (hmarked : Marked m.activePage m page) (stale : ℕ → ℕ) : (m.pageFault page 4 stale).1 = some true := by
  obtain ⟨-, hvalid, hdemand⟩ := hmarked
  rw [m.pageFault_absent hpage stale (by decide), hvalid, hdemand]
  rfl

end Marked

section RoundTrip

/-- The search finds an area with the start it looks for. -/
theorem releaseArea_vastart {start amount : ℕ} {areas : List MmapArea} {found : MmapArea}
    {left : List MmapArea} (h : releaseArea start amount areas = some (found, left)) : found.vastart = start := by
  induction areas generalizing left with
  | nil => exact absurd h (by simp [releaseArea])
  | cons a rest ih =>
    unfold releaseArea at h
    split at h
    next hstart =>
      split at h
      next => exact (Prod.mk.inj (Option.some.inj h)).1 ▸ hstart
      next => exact absurd h (by simp)
    next =>
      obtain ⟨⟨found', left'⟩, hrest, heq⟩ := Option.map_eq_some_iff.mp h
      obtain rfl : found' = found := (Prod.mk.inj heq).1
      exact ih hrest

namespace ProcessSpace

variable {roots : Finset ℕ} {ps : ProcessSpace} {size random : ℕ} {stale : ℕ → ℕ}

/-- A finished allocation marks every page it reserves and stays at its root. -/
theorem allocateMemory_marked (h : Growable roots ps.machine) (hroot : align ps.machine.activePage ∈ roots)
    (hout : ∀ a ∈ ps.reservedPages size random, pmlIndex a ≠ 510)
    (hdone : (ps.allocateMemory size random stale).finished = true) :
    (ps.allocateMemory size random stale).space.machine.activePage = ps.machine.activePage ∧
      ∀ page ∈ ps.reservedPages size random,
        Marked ps.machine.activePage (ps.allocateMemory size random stale).space.machine page := by
  have haod : (reserveRequest (heapArea ps.areas size random).vastart size).aod = true := rfl
  obtain ⟨m', made, rest, hpages, -, hactive, hreserves, -, hresult⟩ :=
    h.allocateMem_reserve hroot haod rfl false false stale hout
  unfold allocateMemory at hdone ⊢
  dsimp only at hdone ⊢
  rw [hresult] at hdone ⊢
  obtain rfl : rest = [] := by simpa using hdone
  rw [List.append_nil] at hpages
  refine ⟨hactive, fun page hpage => hreserves.2 page ?_⟩
  rw [← hpages]
  exact hpage

/-- What a deallocation right after the allocation leaves, when it succeeds. -/
theorem roundTrip_untouched (h : Growable roots ps.machine) (hroot : align ps.machine.activePage ∈ roots)
    (hsize : size < 2 ^ 64) (hout : ∀ a ∈ ps.reservedPages size random, pmlIndex a ≠ 510)
    (hdone : (ps.allocateMemory size random stale).finished = true) {found : MmapArea} {areas : List MmapArea}
    (hfound : releaseArea (heapArea ps.areas size random).vastart size
      (ps.allocateMemory size random stale).space.areas = some (found, areas)) :
    (ps.roundTrip size random stale []).1 = 0 ∧ (ps.roundTrip size random stale []).2.areas = areas ∧
      (ps.roundTrip size random stale []).2.machine.memory =
        (ps.allocateMemory size random stale).space.machine.memory ∧
      (ps.roundTrip size random stale []).2.machine.framePool =
        (ps.allocateMemory size random stale).space.machine.framePool ∧
      (ps.roundTrip size random stale []).2.machine.activePage = ps.machine.activePage := by
  obtain ⟨hactive, hmarks⟩ := allocateMemory_marked h hroot hout hdone
  have hpages : Machine.deallocatePages (heapArea ps.areas size random).vastart size =
      ps.reservedPages size random := deallocatePages_eq (heapArea_aligned _ _ _) size hsize
  have hstart : found.vastart = (heapArea ps.areas size random).vastart := releaseArea_vastart hfound
  obtain ⟨hmemory, hpool, hroot'⟩ := Machine.deallocate_absent
    (ps.allocateMemory size random stale).space.machine ps.machine.activePage (by rw [hpages]; exact hout)
    (by rw [hpages]; exact fun a ha => (hmarks a ha).1)
  have htrip : ps.roundTrip size random stale [] =
      (0, ⟨(ps.allocateMemory size random stale).space.machine.deallocate
        (heapArea ps.areas size random).vastart size ps.machine.activePage, areas⟩) := by
    change (ps.allocateMemory size random stale).space.deallocateMemory (heapArea ps.areas size random).vastart size = _
    unfold deallocateMemory
    rw [hfound, hactive]
    dsimp only
    rw [hstart]
  rw [htrip]
  exact ⟨rfl, rfl, hmemory, hpool, hroot'.trans hactive⟩

end ProcessSpace

/-- A finished allocation is undone by the deallocation, whatever pages are touched in between,
exactly when it reserves no page and every area from the first that starts at its address up to it
is the same area again. -/
theorem roundTrip_undone_iff (ps : ProcessSpace) (roots : Finset ℕ) (size random : ℕ) (stale : ℕ → ℕ)
    (h : Growable roots ps.machine) (hroot : align ps.machine.activePage ∈ roots) (hsize : size < 2 ^ 64)
    (hout : ∀ a ∈ ps.reservedPages size random, pmlIndex a ≠ 510)
    (hdone : (ps.allocateMemory size random stale).finished = true) :
    (∀ touched : List ℕ, (∀ t ∈ touched, align t ∈ ps.reservedPages size random) →
        ps.Undone size random stale touched) ↔
      ps.reservedPages size random = [] ∧
        ∀ other ∈ (selectHole ps.areas size 0x1000).before.dropWhile
            fun other => other.vastart ≠ (heapArea ps.areas size random).vastart,
          other = heapArea ps.areas size random := by
  have hrestores := releaseArea_restores rfl (heapArea_end ps.areas size random) rfl
    (selectHole ps.areas size 0x1000).before (selectHole ps.areas size 0x1000).after
  rw [← (selectHole_split ps.areas size 0x1000).1] at hrestores
  rw [← hrestores]
  constructor
  · intro hundone
    have hnone := hundone [] (by simp)
    cases hfound : releaseArea (heapArea ps.areas size random).vastart size
        (ps.allocateMemory size random stale).space.areas with
    | none =>
      have hrefused : (ps.roundTrip size random stale []).1 = 1 := by
        change ((ps.allocateMemory size random stale).space.deallocateMemory
          (heapArea ps.areas size random).vastart size).1 = 1
        unfold ProcessSpace.deallocateMemory
        rw [hfound]
      exact absurd (hrefused.symm.trans hnone.succeeded) (by decide)
    | some r =>
      obtain ⟨-, hareas, hmemory, -, hactive⟩ := ProcessSpace.roundTrip_untouched h hroot hsize hout hdone hfound
      have hmarks := (ProcessSpace.allocateMemory_marked h hroot hout hdone).2
      refine ⟨List.eq_nil_iff_forall_not_mem.mpr fun page hpage => ?_, r.1, ?_⟩
      · -- the marker of an untouched page survives, so a later fault is still on demand
        have hfault := (ps.roundTrip size random stale []).2.machine.pageFault_marked (hout page hpage)
          (by unfold Marked; rw [hmemory, hactive]; exact hmarks page hpage) stale
        exact absurd (hfault.symm.trans (hnone.unmapped page hpage).2) (by decide)
      · have hleft : r.2 = ps.areas := hareas.symm.trans hnone.areas
        have hpair : some (r.1, ps.areas) = some r := by rw [← hleft]
        rw [hpair]
        exact hfound
  · rintro ⟨hpages, found, hfound⟩ touched htouched
    obtain rfl : touched = [] := List.eq_nil_iff_forall_not_mem.mpr fun t ht => by
      have hmem := htouched t ht
      rw [hpages] at hmem
      exact absurd hmem (by simp)
    obtain ⟨hzero, hareas, -, hpool, -⟩ := ProcessSpace.roundTrip_untouched h hroot hsize hout hdone hfound
    refine ⟨hzero, hareas, fun page hpage => ?_, ?_⟩
    · rw [hpages] at hpage
      exact absurd hpage (by simp)
    · rw [hpool]
      unfold ProcessSpace.reservedPages at hpages
      unfold ProcessSpace.allocateMemory Machine.allocateMem reserveRequest
      dsimp only
      rw [hpages]
      rfl

/-- A process without areas on the blank machine. -/
def blankProcess : ProcessSpace := ⟨blankMachine, []⟩

/-- The equivalence for one page of a blank process. -/
theorem roundTrip_undone_iff_blank :
    (∀ touched : List ℕ, (∀ t ∈ touched, align t ∈ blankProcess.reservedPages 0x1000 0x400000) →
        blankProcess.Undone 0x1000 0x400000 (fun _ => 0) touched) ↔
      blankProcess.reservedPages 0x1000 0x400000 = [] ∧
        ∀ other ∈ (selectHole blankProcess.areas 0x1000 0x1000).before.dropWhile
            fun other => other.vastart ≠ (heapArea blankProcess.areas 0x1000 0x400000).vastart,
          other = heapArea blankProcess.areas 0x1000 0x400000 :=
  roundTrip_undone_iff blankProcess {0x100000} 0x1000 0x400000 (fun _ => 0)
    (blankMachine_oneReference.growable (List.cons_ne_nil _ _)) (by decide) (by decide) (by decide)
    (by decide +kernel)

/-- One touched page of a blank process: its frame is lost. -/
theorem roundTrip_undone_fails :
    (∀ t ∈ [0x401000], align t ∈ blankProcess.reservedPages 0x1000 0x400000) ∧
      (blankProcess.allocateMemory 0x1000 0x400000 fun _ => 0).finished = true ∧
      ¬ blankProcess.Undone 0x1000 0x400000 (fun _ => 0) [0x401000] := by
  refine ⟨by decide, by decide +kernel, fun hundone => ?_⟩
  have hafter : (freeFrames (blankProcess.roundTrip 0x1000 0x400000 (fun _ => 0)
      [0x401000]).2.machine.framePool).length ≠ (freeFrames blankProcess.machine.framePool).length := by
    decide +kernel
  exact hafter hundone.frames

end RoundTrip

end Cthulhu
