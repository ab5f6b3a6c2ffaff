import Cthulhu.Memory.LeafEntries
import Cthulhu.Memory.UnmapRange

/-!
# What unmapping is seen to do

The entries that walks read while `deallocate` goes through its pages, in a state whose use counts may be higher than
its references. `deallocate_frame` looks for the frame of an entry at the entry without its low twelve bits. It does
not find the frame of an entry with the execute-disable bit, which keeps its use and never returns to the pool, so the
counts stay no lower than the references, and no table is given back while something refers to it.
-/

namespace Cthulhu

open Lib

section Cuts

variable {rule : ℕ → ℕ → Prop} {roots : Finset ℕ} {m m' : Machine} {l f : ℕ} {e : Slot}

/-- A table with an entry is still reached after the link to an empty table, or an entry of a leaf table, was cut. -/
theorem Cut.walk_other (hcut : Cut roots l e f m m') (hlev : paging.Leveled m.memory roots) (hl : l < 4)
    (hT : e.table ∈ paging.tables m.memory roots l)
    (hlink : l < 3 → paging.child l e.index (m.load e) = some f ∧ ∀ i < 512, m.memory f i = 0) {k T D : ℕ}
    {path : List ℕ} (hstart : T ∈ paging.tables m'.memory roots k) (hpath : ∀ i ∈ path, i ∈ paging.slots)
    (hlen : k + path.length ≤ 3) (hwalk : paging.walk m.memory k T path = some D)
    (hentry : ∃ i < 512, m.memory D i ≠ 0) : paging.walk m'.memory k T path = some D := by
  induction path generalizing k T with
  | nil => exact hwalk
  | cons i path ih =>
    rw [List.forall_mem_cons] at hpath
    rw [List.length_cons] at hlen
    cases hchild : paging.child k i (m.memory T i) with
    | none =>
      rw [Links.walk_cons_none path hchild] at hwalk
      exact absurd hwalk (by simp)
    | some C =>
      rw [Links.walk_cons_some path hchild] at hwalk
      have hother : ¬ (T = e.table ∧ i = e.index) := by
        rintro ⟨rfl, rfl⟩
        obtain rfl : k = l := hlev k (show k < 4 by omega) l hl _ (hcut.sub k (by omega) hstart) hT
        obtain ⟨hf, hempty⟩ := hlink (by omega)
        obtain rfl : C = f := Option.some.inj (hchild.symm.trans hf)
        -- the table below is empty, so the walk ends in it or before
        cases path with
        | nil =>
          obtain rfl : C = D := Option.some.inj hwalk
          obtain ⟨j, hj, hne⟩ := hentry
          exact hne (hempty j hj)
        | cons j rest =>
          have hj := Finset.mem_range.mp (hpath.2 j List.mem_cons_self)
          rw [Links.walk_cons_none rest (by rw [hempty j hj, child_zero])] at hwalk
          exact absurd hwalk (by simp)
      have hchild' : paging.child k i (m'.memory T i) = some C := by
        rw [hcut.words k (by omega) T hstart i hother, hchild]
      rw [Links.walk_cons_some path hchild']
      exact ih (Links.mem_tables_succ.mpr ⟨T, hstart, i, hpath.1, hchild'⟩) hpath.2 (by omega) hwalk

/-- Cutting the link to an empty table, or an entry of a leaf table, is seen at no other address. -/
theorem Cut.leafEntry_other (hcut : Cut roots l e f m m') (hlev : paging.Leveled m.memory roots) (hl : l < 4)
    (hT : e.table ∈ paging.tables m.memory roots l)
    (hlink : l < 3 → paging.child l e.index (m.load e) = some f ∧ ∀ i < 512, m.memory f i = 0) {root va : ℕ}
    (hroot : align root ∈ roots)
    (hother : l = 3 → ¬ (paging.walk m.memory 0 (align root) (indices va) = some e.table ∧ tableIndex va = e.index)) :
    Cthulhu.leafEntry m'.memory root va = Cthulhu.leafEntry m.memory root va := by
  by_cases hzero : Cthulhu.leafEntry m.memory root va = 0
  · rcases hcut.leafEntry hroot va with heq | heq
    · exact heq
    · rw [heq, hzero]
  cases hwalk : paging.walk m.memory 0 (align root) (indices va) with
  | none => exact absurd (leafEntry_of_none hwalk) hzero
  | some pt =>
    rw [leafEntry_of_some hwalk] at hzero ⊢
    have hstart : align root ∈ paging.tables m'.memory roots 0 := hroot
    have hwalk' := hcut.walk_other hlev hl hT hlink hstart (indices_mem va) (Nat.le_refl 3) hwalk
      ⟨_, tableIndex_lt va, hzero⟩
    rw [leafEntry_of_some hwalk']
    have hpt : pt ∈ paging.tables m'.memory roots 3 := Links.walk_mem hstart (indices_mem va) hwalk'
    refine hcut.words 3 (by decide) pt hpt _ ?_
    rintro ⟨rfl, hindex⟩
    have hlevel : 3 = l := hlev 3 (by decide) l hl _ (hcut.sub 3 (by decide) hpt) hT
    exact hother hlevel.symm ⟨hwalk, hindex⟩

/-- Dropping empty tables is seen at no address. -/
theorem Cascade.leafEntry_eq {T : ℕ} (h : Cascade rule roots l T m m') (hlev : paging.Leveled m.memory roots) {root : ℕ}
    (hroot : align root ∈ roots) (va : ℕ) : Cthulhu.leafEntry m'.memory root va = Cthulhu.leafEntry m.memory root va := by
  induction h with
  | keep => rfl
  | root => rfl
  | @drop l T e m m₁ m₂ hl hT hi hlink hclear hcounted hcut hrest ih =>
    rw [ih hcounted.leveled]
    exact hcut.leafEntry_other hlev (by omega) hT (fun _ => ⟨hlink, (m.tableClear_iff T).mp hclear⟩) hroot
      fun hleaf => absurd hleaf (by omega)

/-- A cut keeps one reference to each table. -/
theorem Cut.single (hcut : Cut roots l e f m m')
    (hone : ∀ T, paging.IsTable m.memory roots T → Cthulhu.references m.memory roots T = 1) :
    ∀ T, paging.IsTable m'.memory roots T → Cthulhu.references m'.memory roots T = 1 := by
  rintro T ⟨k, hk, hmem⟩
  have hbefore := hone T ⟨k, hk, hcut.sub k hk hmem⟩
  have hdrop := hcut.references T
  have hreferred : Cthulhu.references m'.memory roots T ≠ 0 := fun hzero => not_isTable_of_references hzero ⟨k, hk, hmem⟩
  omega

/-- Dropping empty tables keeps one reference to each of the others. -/
theorem Cascade.single {T : ℕ} (h : Cascade rule roots l T m m')
    (hone : ∀ T, paging.IsTable m.memory roots T → Cthulhu.references m.memory roots T = 1) :
    ∀ T, paging.IsTable m'.memory roots T → Cthulhu.references m'.memory roots T = 1 := by
  induction h with
  | keep => exact hone
  | root => exact hone
  | drop hl hT hi hlink hclear hcounted hcut hrest ih => exact ih (hcut.single hone)

end Cuts

/-- What is seen of giving back pages of one address space: their entries are gone, and those of every other page of
this and the other address spaces are as they were. -/
structure Withdrawn (roots : Finset ℕ) (cr3 : ℕ) (pages : List ℕ) (m m' : Machine) : Prop where
  cleared : ∀ root, align root ∈ roots → ∀ va, leafEntry m.memory root va = 0 → leafEntry m'.memory root va = 0
  outside : ∀ root, align root ∈ roots → ∀ va, (align root = align cr3 → ∀ a ∈ pages, ¬ SamePage a va) →
    leafEntry m'.memory root va = leafEntry m.memory root va
  inside : ∀ a ∈ pages, present (leafEntry m.memory cr3 a) = true → leafEntry m'.memory cr3 a = 0

section Runs

variable {rule : ℕ → ℕ → Prop} {roots : Finset ℕ} {cr3 va : ℕ} {m m' m'' : Machine}

/-- What is seen of `deallocate_frame`. -/
theorem Removal.withdrawn (h : Removal rule roots cr3 va m m') (hlev : paging.Leveled m.memory roots)
    (hone : OneReference roots m) (hcr3 : align cr3 ∈ roots) : Withdrawn roots cr3 [va] m m' ∧
      ∀ T, paging.IsTable m'.memory roots T → references m'.memory roots T = 1 := by
  cases h with
  | absent habsent hsame =>
    subst hsame
    refine ⟨⟨fun _ _ _ hzero => hzero, fun _ _ _ _ => rfl, fun a ha hpresent => ?_⟩, hone.tables⟩
    rw [List.mem_singleton.mp ha, habsent] at hpresent
    exact absurd hpresent (by decide)
  | cleared pt f m₁ hwalk hpresent hcut hcounted hcascade =>
    have hslot := leafSlot_of_walk hcr3 hwalk
    have hkept := (hcut.keepsAbove (by decide)).walk_eq hlev hslot.1 hcr3 va
    refine ⟨⟨fun root hroot va' hzero => ?_, fun root hroot va' hoff => ?_, fun a ha _ => ?_⟩,
      hcascade.single (hcut.single hone.tables)⟩
    · rw [hcascade.leafEntry_eq hcounted.leveled hroot]
      rcases hcut.leafEntry hroot va' with heq | heq
      · rw [heq, hzero]
      · exact heq
    · rw [hcascade.leafEntry_eq hcounted.leveled hroot]
      refine hcut.leafEntry_other hlev (by decide) hslot.1 (fun hupper => absurd hupper (by decide)) hroot ?_
      intro _ hhere
      obtain ⟨hsame, hpage⟩ := (hone.slot_iff hcr3 hroot hwalk va').mp hhere
      exact hoff hsame va (List.mem_singleton_self va) (Eq.symm hpage)
    · rw [List.mem_singleton.mp ha, hcascade.leafEntry_eq hcounted.leveled hcr3, leafEntry_of_some (hkept.trans hwalk)]
      exact hcut.cleared

/-- Nothing was given back. -/
theorem Withdrawn.refl : Withdrawn roots cr3 [] m m where
  cleared := fun _ _ _ hzero => hzero
  outside := fun _ _ _ _ => rfl
  inside := fun _ ha => absurd ha List.not_mem_nil

/-- Giving back pages after another one. -/
theorem Withdrawn.cons {pages : List ℕ} (h : Withdrawn roots cr3 [va] m m') (h' : Withdrawn roots cr3 pages m' m'')
    (hcr3 : align cr3 ∈ roots) : Withdrawn roots cr3 (va :: pages) m m'' where
  cleared := fun root hroot va' hzero => h'.cleared root hroot va' (h.cleared root hroot va' hzero)
  outside := by
    intro root hroot va' hoff
    rw [h'.outside root hroot va' fun hsame a ha => hoff hsame a (List.mem_cons_of_mem va ha)]
    refine h.outside root hroot va' fun hsame a ha => ?_
    rw [List.mem_singleton.mp ha]
    exact hoff hsame va List.mem_cons_self
  inside := by
    intro a ha hpresent
    by_cases hpage : SamePage va a
    · -- the first round clears the entry, and it stays zero
      rw [← hpage.leafEntry_eq] at hpresent ⊢
      exact h'.cleared cr3 hcr3 va (h.inside va (List.mem_singleton_self va) hpresent)
    · have hlater := (List.mem_cons.mp ha).resolve_left fun heq => hpage (by rw [heq]; rfl)
      refine h'.inside a hlater ?_
      rw [h.outside cr3 hcr3 a fun _ b hb => by rwa [List.mem_singleton.mp hb]]
      exact hpresent

/-- One round of `deallocate`. -/
theorem Covered.deallocatePage (h : Covered roots m) (hone : OneReference roots m) (hcr3 : align cr3 ∈ roots)
    (hva : pmlIndex va ≠ 510) : Covered roots (Machine.deallocatePage cr3 m va) ∧
      OneReference roots (Machine.deallocatePage cr3 m va) ∧
      Withdrawn roots cr3 [va] m (Machine.deallocatePage cr3 m va) := by
  have hlocked : Covered roots (m.lock .frame) := h.same rfl rfl
  obtain ⟨hcovered, hremoval⟩ := Covered.deallocateFrame hlocked hcr3 hva
  obtain ⟨hwithdrawn, hsingle⟩ := hremoval.withdrawn hlocked.leveled ⟨hone.pool, hone.tables, hone.free⟩ hcr3
  have hdone : Covered roots (Machine.deallocatePage cr3 m va) := hcovered.same rfl rfl
  exact ⟨hdone, ⟨hdone.pool, hsingle, hdone.growable.unreferenced⟩,
    ⟨hwithdrawn.cleared, hwithdrawn.outside, hwithdrawn.inside⟩⟩

/-- All rounds of `deallocate`. -/
theorem Covered.deallocateRun (h : Covered roots m) (hone : OneReference roots m) (hcr3 : align cr3 ∈ roots)
    (vas : List ℕ) (hout : ∀ va ∈ vas, pmlIndex va ≠ 510) :
    Withdrawn roots cr3 vas m (run (Machine.deallocatePage cr3) m vas) := by
  induction vas generalizing m with
  | nil => exact Withdrawn.refl
  | cons va vas ih =>
    rw [List.forall_mem_cons] at hout
    obtain ⟨hcovered, hone', hround⟩ := Covered.deallocatePage h hone hcr3 hout.1
    exact hround.cons (ih hcovered hone' hout.2) hcr3

end Runs

/-- `deallocate` clears the entries of its pages and no others, for every range that ends below the last page of the
address space. -/
theorem Covered.deallocate {roots : Finset ℕ} {cr3 start amount : ℕ} {m : Machine} (h : Covered roots m)
    (hone : OneReference roots m) (hcr3 : align cr3 ∈ roots) (hend : start + amount ≤ 2 ^ 64 - 0x1000)
    (hout : ∀ a ∈ rangePages start amount, pmlIndex a ≠ 510) :
    Withdrawn roots cr3 (rangePages start amount) m (m.deallocate start amount cr3) := by
  obtain ⟨hpages, hnone⟩ := deallocatePages_range hend
  unfold Machine.deallocate
  rw [hpages]
  split
  next =>
    have hlocked : Covered roots (m.lock .tlb) := h.same rfl rfl
    have hrun := Covered.deallocateRun hlocked ⟨hone.pool, hone.tables, hone.free⟩ hcr3 (rangePages start amount) hout
    exact ⟨hrun.cleared, hrun.outside, hrun.inside⟩
  next hempty =>
    rw [hnone hempty]
    exact Withdrawn.refl

end Cthulhu
