import Cthulhu.Memory.ExtendRange
import Cthulhu.Memory.UnmapRange

/-!
# Giving back what was allocated

Mapping pages and then giving them back restores the page tables. A table that was there before is
dropped only when it lies on the way to one of the pages and held nothing; a table that was added
holds nothing once its pages are gone, so it does not stay.
-/

namespace Cthulhu

open Lib

/-- The page tables and the set of free frames are as they were: every table, every entry of every
table, and every free frame. -/
structure Restored (roots : Finset ℕ) (m m' : Machine) : Prop where
  tables : ∀ l < 4, paging.tables m'.memory roots l = paging.tables m.memory roots l
  words : ∀ l < 4, ∀ T ∈ paging.tables m.memory roots l, ∀ i < 512, m'.memory T i = m.memory T i
  free : ∀ f, f ∈ freeFrames m'.framePool ↔ f ∈ freeFrames m.framePool

section Mirror

variable {roots : Finset ℕ} {cr3 va : ℕ} {m m' : Machine}

/-- A cut leaves the mirror slots as they are. -/
theorem Cut.mirror {l f : ℕ} {e : Slot} (hcut : Cut roots l e f m m') (hlev : paging.Leveled m.memory roots) (hl : l < 4)
    (hT : e.table ∈ paging.tables m.memory roots l) (hmirror : ¬ (l = 0 ∧ e.index = 510)) {R : ℕ} (hR : R ∈ roots) :
    m'.memory R 510 = m.memory R 510 := by
  refine hcut.words 0 (by decide) R hR 510 ?_
  rintro ⟨rfl, hindex⟩
  exact hmirror ⟨hlev l hl 0 (by decide) _ hT hR, hindex.symm⟩

/-- So do all cuts that follow it. -/
theorem Cascade.mirror {l T : ℕ} (h : Cascade Eq roots l T m m') (hlev : paging.Leveled m.memory roots) {R : ℕ}
    (hR : R ∈ roots) : m'.memory R 510 = m.memory R 510 := by
  induction h with
  | keep => rfl
  | root => rfl
  | drop hl hT hi hlink hclear hcounted hcut hrest ih =>
    rw [ih hcounted.leveled, hcut.mirror hlev (by omega) hT (ne_zero_of_child hlink).2 hR]

/-- Giving back a page leaves the mirror slots as they are. -/
theorem Removal.mirror (h : Removal Eq roots cr3 va m m') (hlev : paging.Leveled m.memory roots) (hcr3 : align cr3 ∈ roots)
    {R : ℕ} (hR : R ∈ roots) : m'.memory R 510 = m.memory R 510 := by
  cases h with
  | absent habsent hsame => rw [hsame]
  | cleared pt f m₁ hwalk hpresent hcut hcounted hcascade =>
    have hslot := leafSlot_of_walk hcr3 hwalk
    rw [hcascade.mirror hcounted.leveled hR, hcut.mirror hlev (by decide) hslot.1 (by simp) hR]

/-- Giving back pages leaves the mirror slots as they are. -/
theorem Pruned.run_mirror {pages : ℕ → Prop} (h : Pruned roots cr3 pages none m m')
    (hone : ∀ T, paging.IsTable m.memory roots T → references m.memory roots T = 1) (hcr3 : align cr3 ∈ roots)
    (vas : List ℕ) (hout : ∀ va ∈ vas, pmlIndex va ≠ 510)
    (hlow : ∀ va ∈ vas, present (leafEntry m.memory cr3 va) = true → leafEntry m.memory cr3 va < 2 ^ 62) {R : ℕ}
    (hR : R ∈ roots) : (Lib.run (Machine.deallocatePage cr3) m' vas).memory R 510 = m'.memory R 510 := by
  induction vas generalizing pages m' with
  | nil => rfl
  | cons va vas ih =>
    rw [List.forall_mem_cons] at hout hlow
    have hround := (h.removalPage hcr3 hout.1 hlow.1).mirror h.counted.leveled hcr3 hR
    exact (ih (h.deallocatePage hone hcr3 hout.1 hlow.1) hout.2 hlow.2).trans hround

/-- `deallocate` gives back its pages, and leaves the mirror slots as they are. -/
theorem PageTree.deallocate (h : PageTree roots m) (hcr3 : align cr3 ∈ roots) {start amount : ℕ} {vas : List ℕ}
    (hvas : Machine.deallocatePages start amount = vas)
    (hnone : ¬ align start < Machine.deallocateEnd start amount → vas = []) (hout : ∀ va ∈ vas, pmlIndex va ≠ 510)
    (hlow : ∀ va ∈ vas, present (leafEntry m.memory cr3 va) = true → leafEntry m.memory cr3 va < 2 ^ 62) :
    Pruned roots cr3 (· ∈ vas) none m (m.deallocate start amount cr3) ∧
      ∀ R ∈ roots, (m.deallocate start amount cr3).memory R 510 = m.memory R 510 := by
  have hstart : Pruned roots cr3 (fun _ => False) none m m := Pruned.refl h.counted
  have hlocked : Pruned roots cr3 (fun _ => False) none m (m.lock .tlb) := hstart.same rfl rfl
  unfold Machine.deallocate
  rw [hvas]
  split
  next =>
    have hrun := hlocked.run h.one.tables hcr3 vas hout hlow
    simp only [false_or] at hrun
    exact ⟨hrun.same rfl rfl, fun R hR => hlocked.run_mirror h.one.tables hcr3 vas hout hlow hR⟩
  next hempty =>
    rw [hnone hempty]
    refine ⟨hstart.widen (fun _ hva => hva.elim) fun va hva => absurd hva (by simp), fun R hR => rfl⟩

end Mirror

section Restore

variable {roots : Finset ℕ} {cr3 : ℕ} {pages : List ℕ} {pending : Option ℕ} {m a m' : Machine}

/-- A table is linked from one place only. -/
theorem OneReference.place_unique (h : OneReference roots m) {l l' T T' i i' C : ℕ} (hl : l < 3) (hl' : l' < 3)
    (hT : T ∈ paging.tables m.memory roots l) (hT' : T' ∈ paging.tables m.memory roots l') (hi : i ∈ paging.slots)
    (hi' : i' ∈ paging.slots) (hC : paging.child l i (m.memory T i) = some C)
    (hC' : paging.child l' i' (m.memory T' i') = some C) : l = l' ∧ T = T' ∧ i = i' := by
  refine Links.place_unique ?_ (show l < 4 by omega) hT hi hC (show l' < 4 by omega) hT' hi' hC'
  have hsingle := h.tables C ⟨l + 1, show l + 1 < 4 by omega, Links.mem_tables_succ.mpr ⟨T, hT, i, hi, hC⟩⟩
  unfold references at hsingle
  omega

/-- The pages given back are those whose entries are cleared: an entry cleared on purpose is the entry
of such a page. -/
theorem Wiped.page {T i : ℕ} (h : Wiped roots cr3 (· ∈ pages) a m' 3 T i) (hone : OneReference roots a)
    (hcr3 : align cr3 ∈ roots) {root va : ℕ} (hroot : align root ∈ roots)
    (hwalk : paging.walk a.memory 0 (align root) (indices va) = some T) (hi : tableIndex va = i) :
    align root = align cr3 ∧ ∃ p ∈ pages, SamePage va p := by
  have hwiped := h.2
  rw [if_pos rfl] at hwiped
  obtain ⟨p, hp, hwalkp, hindex⟩ := hwiped
  obtain ⟨hsame, hpage⟩ := (hone.slot_iff hcr3 hroot hwalkp va).mp ⟨hwalk, hi.trans hindex.symm⟩
  exact ⟨hsame, p, hp, hpage⟩

end Restore

end Cthulhu
