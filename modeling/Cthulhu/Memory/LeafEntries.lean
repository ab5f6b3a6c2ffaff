import Cthulhu.Memory.CountedLoops

/-!
# What allocation leaves in leaf entries

A walk that finds its tables allocates none, and `allocate_frame` then rewrites a present entry,
gives a fresh frame to an absent one, or fails and leaves it. Whatever it writes, the walks stay
as they are, so that the entry of every other page stays too.
-/

namespace Cthulhu

open Lib

/-- Two addresses on the same page of an address space. -/
def SamePage (va va' : ℕ) : Prop := va / 2 ^ 12 % 2 ^ 36 = va' / 2 ^ 12 % 2 ^ 36

section Walk

variable {m : Machine}

/-- A level whose table exists is passed, allocating or not. -/
theorem Machine.descend_of_child {l C : ℕ} {entry : Slot} (hl : l < 3)
    (h : paging.child l entry.index (m.load entry) = some C) (allocateNew user : Bool) :
    m.descend entry allocateNew user = (some C, m) := by
  obtain ⟨hpresent, rfl⟩ := present_align_of_child hl h
  unfold Machine.descend
  rw [if_pos hpresent]

/-- A walk whose tables exist ends in the slot of the address and changes nothing. -/
theorem Machine.getPage_of_walk {va cr3 pt : ℕ} (h : paging.walk m.memory 0 (align cr3) (indices va) = some pt)
    (allocateNew user : Bool) : m.getPage va cr3 allocateNew user = (some ⟨pt, tableIndex va⟩, m) := by
  unfold Machine.getPage
  unfold indices at h
  cases hpdpt : paging.child 0 (pmlIndex va) (m.memory (align cr3) (pmlIndex va)) with
  | none =>
    rw [Links.walk_cons_none _ hpdpt] at h
    cases h
  | some pdpt =>
    rw [Links.walk_cons_some _ hpdpt] at h
    cases hpdir : paging.child 1 (directoryPtrIndex va) (m.memory pdpt (directoryPtrIndex va)) with
    | none =>
      rw [Links.walk_cons_none _ hpdir] at h
      cases h
    | some pdir =>
      rw [Links.walk_cons_some _ hpdir] at h
      cases htable : paging.child 2 (directoryIndex va) (m.memory pdir (directoryIndex va)) with
      | none =>
        rw [Links.walk_cons_none _ htable] at h
        cases h
      | some table =>
        rw [Links.walk_cons_some _ htable] at h
        obtain rfl : table = pt := Option.some.inj h
        rw [Machine.descend_of_child (l := 0) (by decide) hpdpt]
        dsimp only
        rw [Machine.descend_of_child (l := 1) (by decide) hpdir]
        dsimp only
        rw [Machine.descend_of_child (l := 2) (by decide) htable]

end Walk

section Store

variable {roots : Finset ℕ} {m : Machine} {cr3 : ℕ} {filled : Memory}

/-- The slot a walk ends in is one of a leaf table. -/
theorem leafSlot_of_walk (hcr3 : align cr3 ∈ roots) {va pt : ℕ}
    (hwalk : paging.walk m.memory 0 (align cr3) (indices va) = some pt) : LeafSlot roots m ⟨pt, tableIndex va⟩ :=
  ⟨Links.walk_mem (show align cr3 ∈ paging.tables m.memory roots 0 from hcr3) (indices_mem va) hwalk, tableIndex_lt va⟩

/-- Addresses on one page have one entry. -/
theorem SamePage.leafEntry_eq {page va : ℕ} (h : SamePage page va) (mem : Memory) (cr3 : ℕ) :
    leafEntry mem cr3 page = leafEntry mem cr3 va := by
  obtain ⟨hindices, hindex⟩ := (indices_eq_iff va page).mpr h
  unfold leafEntry
  rw [hindices, hindex]

/-- With one reference to each table, only the addresses of one page of one address space are translated
by a slot. -/
theorem OneReference.slot_iff (h : OneReference roots m) {root va pt : ℕ} (hcr3 : align cr3 ∈ roots)
    (hroot : align root ∈ roots) (hwalk : paging.walk m.memory 0 (align cr3) (indices va) = some pt) (page : ℕ) :
    paging.walk m.memory 0 (align root) (indices page) = some pt ∧ tableIndex page = tableIndex va ↔
      align root = align cr3 ∧ SamePage page va := by
  unfold SamePage
  rw [← indices_eq_iff va page]
  constructor
  · rintro ⟨hpage, hindex⟩
    obtain ⟨hsame, hindices⟩ := h.walk_place hroot hcr3 hpage hwalk
    exact ⟨hsame, hindices, hindex⟩
  · rintro ⟨hsame, hindices, hindex⟩
    rw [hsame, hindices]
    exact ⟨hwalk, hindex⟩

/-- Writing a leaf entry, in a memory with the same tables, changes no table and no word above the
leaves. -/
theorem Growable.tables_leafStore (h : Growable roots m) {p : Slot} (hp : LeafSlot roots m p)
    (hagree : ∀ l < 4, ∀ T ∈ paging.tables m.memory roots l, filled T = m.memory T) (w : ℕ) :
    (∀ l < 4, paging.tables (Links.store filled p.table p.index w) roots l = paging.tables m.memory roots l) ∧
      ∀ l < 3, ∀ T ∈ paging.tables m.memory roots l, Links.store filled p.table p.index w T = m.memory T := by
  have htables (l : ℕ) (hl : l ≤ 4) : paging.tables filled roots l = paging.tables m.memory roots l :=
    Links.tables_congr (fun k hk T hT i _ => by rw [hagree k hk T hT]) l hl
  have hlev : paging.Leveled filled roots := h.leveled.mono fun l hl => by rw [htables l (Nat.le_of_lt hl)]
  have hT : p.table ∈ paging.tables filled roots 3 := by
    rw [htables 3 (by decide)]
    exact hp.1
  refine ⟨fun l hl => ?_, fun l hl T hT' => ?_⟩
  · rw [hlev.tables_store_below (by decide) hT l (by omega), htables l (Nat.le_of_lt hl)]
  · have hlt : l < 4 := Nat.lt_succ_of_lt hl
    funext i
    rw [Links.store_of_ne filled w, hagree l hlt T hT']
    rintro ⟨rfl, -⟩
    have hlevel := h.leveled l hlt 3 (by decide) _ hT' hp.1
    omega

/-- Writing a leaf entry, in a memory with the same tables, changes no walk. -/
theorem Growable.walk_leafStore (h : Growable roots m) {p : Slot} (hp : LeafSlot roots m p)
    (hagree : ∀ l < 4, ∀ T ∈ paging.tables m.memory roots l, filled T = m.memory T) (w : ℕ)
    (hcr3 : align cr3 ∈ roots) (va : ℕ) :
    paging.walk (Links.store filled p.table p.index w) 0 (align cr3) (indices va) =
      paging.walk m.memory 0 (align cr3) (indices va) := by
  obtain ⟨-, hwords⟩ := h.tables_leafStore hp hagree w
  refine Links.walk_congr (show align cr3 ∈ paging.tables m.memory roots 0 from hcr3) (indices_mem va)
    fun k _ hk T hT i _ => ?_
  rw [hwords k (by simpa [indices] using hk) T hT]

/-- Writing a leaf entry, in a memory with the same tables, changes what is seen through its slot
and nothing else. -/
theorem Growable.leafEntry_store (h : Growable roots m) {p : Slot} (hp : LeafSlot roots m p)
    (hagree : ∀ l < 4, ∀ T ∈ paging.tables m.memory roots l, filled T = m.memory T) (w : ℕ)
    (hcr3 : align cr3 ∈ roots) (page : ℕ) :
    leafEntry (Links.store filled p.table p.index w) cr3 page =
      if paging.walk m.memory 0 (align cr3) (indices page) = some p.table ∧ tableIndex page = p.index then w
      else leafEntry m.memory cr3 page := by
  unfold leafEntry
  rw [h.walk_leafStore hp hagree w hcr3 page]
  cases hwalk : paging.walk m.memory 0 (align cr3) (indices page) with
  | none => rw [if_neg fun hslot => absurd hslot.1 (by simp)]
  | some pt =>
    have hpt := Links.walk_mem (show align cr3 ∈ paging.tables m.memory roots 0 from hcr3) (indices_mem page) hwalk
    by_cases hhere : pt = p.table ∧ tableIndex page = p.index
    · obtain ⟨rfl, hindex⟩ := hhere
      rw [if_pos ⟨rfl, hindex⟩]
      dsimp only
      rw [hindex, Links.store_self]
    · rw [if_neg fun hslot => hhere ⟨Option.some.inj hslot.1, hslot.2⟩]
      dsimp only
      rw [Links.store_of_ne filled w hhere, hagree 3 (by decide) pt hpt]

/-- Writing a leaf entry that leads nowhere keeps the free frames unreferenced. -/
theorem Growable.storeLeaf (h : Growable roots m) {p : Slot} (hp : LeafSlot roots m p) {w : ℕ}
    (hw : present w = false) : Growable roots (m.store p w) := by
  obtain ⟨hlev, -, hrefs⟩ := store_unlink h.leveled (by decide) hp.1 hp.2 (child_of_not_present hw)
    fun hdepth => absurd hdepth (by decide)
  refine ⟨h.pool, h.nonempty, hlev, fun f hf => ?_⟩
  have hbefore := h.unreferenced f hf
  have hafter := hrefs f
  change references (Links.store m.memory p.table p.index w) roots f = 0
  omega

/-- Writing a leaf entry that leads nowhere keeps one reference to each table. -/
theorem OneReference.storeLeaf (hone : OneReference roots m) (h : Growable roots m) {p : Slot}
    (hp : LeafSlot roots m p) {w : ℕ} (hw : present w = false) : OneReference roots (m.store p w) := by
  have hstored := h.storeLeaf hp hw
  obtain ⟨-, htables, hrefs⟩ := store_unlink h.leveled (by decide) hp.1 hp.2 (child_of_not_present hw)
    fun hdepth => absurd hdepth (by decide)
  refine ⟨hstored.pool, fun T hT => ?_, hstored.unreferenced⟩
  -- a table keeps a reference, and it had no more than one
  have hpositive : references (Links.store m.memory p.table p.index w) roots T ≠ 0 :=
    fun hzero => not_isTable_of_references hzero hT
  obtain ⟨l, hl, hmem⟩ := hT
  have hbefore := hone.tables T ⟨l, hl, htables l hl hmem⟩
  have hsum := hrefs T
  change references (Links.store m.memory p.table p.index w) roots T = 1
  omega

end Store

/-- Address spaces that can be allocated in: their tables form trees, no free frame belongs to them, and
the pool lies below `2 ^ 62`. -/
structure Mappable (roots : Finset ℕ) (m : Machine) : Prop where
  tree : OneReference roots m
  nonempty : m.framePool ≠ []
  below : ∀ s ∈ m.framePool, s.endWord ≤ 2 ^ 62

section Mappable

variable {roots : Finset ℕ} {m m' : Machine}

/-- Whatever has the layout of the pool lies where the pool does. -/
theorem below_of_layout {pool pool' : List SectionInfo} (hlayout : pool'.map SectionInfo.layout = pool.map SectionInfo.layout)
    (h : ∀ s ∈ pool, s.endWord ≤ 2 ^ 62) : ∀ s ∈ pool', s.endWord ≤ 2 ^ 62 := by
  intro s hs
  have hmem : s.layout ∈ pool.map SectionInfo.layout := by
    rw [← hlayout]
    exact List.mem_map_of_mem hs
  obtain ⟨t, ht, heq⟩ := List.mem_map.mp hmem
  have hend := h t ht
  simp only [SectionInfo.layout, Prod.mk.injEq] at heq
  omega

/-- The free frames are not referenced from the address spaces. -/
theorem Mappable.growable (h : Mappable roots m) : Growable roots m := h.tree.growable h.nonempty

/-- The same memory and pool can be allocated in. -/
theorem Mappable.same (h : Mappable roots m) (hpool : m'.framePool = m.framePool) (hmem : m'.memory = m.memory) :
    Mappable roots m' where
  tree := ⟨by rw [hpool]; exact h.tree.pool, by rw [hmem]; exact h.tree.tables,
    by rw [hpool, hmem]; exact h.tree.free⟩
  nonempty := by rw [hpool]; exact h.nonempty
  below := by rw [hpool]; exact h.below

/-- Walks that allocate keep the address spaces fit for allocation. -/
theorem Mappable.grown (h : Mappable roots m) (hgrown : Grown roots m m') : Mappable roots m' where
  tree := hgrown.oneReference h.tree h.nonempty
  nonempty := (hgrown.growable h.growable).nonempty
  below := below_of_layout (hgrown.layout h.growable) h.below

/-- `allocate_frame` keeps the address spaces fit for allocation. -/
theorem Mappable.allocateFrame (h : Mappable roots m) {p : Slot} (hp : LeafSlot roots m p)
    (kernel readonly exec : Bool) : Mappable roots (m.allocateFrame p kernel readonly exec).2 := by
  have hnext := h.growable.allocateFrame h.below hp kernel readonly exec
  refine ⟨h.tree.allocateFrame h.growable h.below hp kernel readonly exec, hnext.nonempty, ?_⟩
  cases h.growable.allocateFrame_mapping h.below hp kernel readonly exec with
  | same hpool => rw [hpool]; exact h.below
  | rewritten w hw hm => rw [hm]; exact h.below
  | linked w f filled hold hw hf hne hoff hpool =>
    obtain ⟨-, -, -, hlayout, -⟩ := h.growable.pool.taken hf hne
    rw [hpool]
    exact below_of_layout hlayout h.below

/-- A write to the slot of a page changes its entry, and the entry of no other page of its address space. -/
theorem Mappable.leafEntry_store (h : Mappable roots m) {cr3 va pt : ℕ} (hcr3 : align cr3 ∈ roots)
    (hwalk : paging.walk m.memory 0 (align cr3) (indices va) = some pt) {filled : Memory}
    (hagree : ∀ l < 4, ∀ T ∈ paging.tables m.memory roots l, filled T = m.memory T) {w : ℕ} {mem : Memory}
    (hmem : mem = Links.store filled pt (tableIndex va) w) :
    (∀ page, SamePage page va → leafEntry mem cr3 page = w) ∧
      ∀ page, ¬ SamePage page va → leafEntry mem cr3 page = leafEntry m.memory cr3 page := by
  have hentry := fun page => h.growable.leafEntry_store (leafSlot_of_walk hcr3 hwalk) hagree w hcr3 page
  have hslot := fun page => h.tree.slot_iff hcr3 hcr3 hwalk page
  dsimp only at hentry
  subst hmem
  constructor
  · intro page hsame
    rw [hentry, if_pos ((hslot page).mpr ⟨rfl, hsame⟩)]
  · intro page hother
    rw [hentry, if_neg fun hboth => hother ((hslot page).mp hboth).2]

/-- Writes that leave the tables alone keep the address spaces fit for allocation, and every reference. -/
theorem Mappable.agree (h : Mappable roots m) (hpool : m'.framePool = m.framePool)
    (htables : ∀ T, paging.IsTable m.memory roots T → m'.memory T = m.memory T) :
    Mappable roots m' ∧ ∀ n, references m'.memory roots n = references m.memory roots n := by
  have hrefs (n : ℕ) : references m'.memory roots n = references m.memory roots n := by
    unfold references
    rw [Links.linkCount_congr fun k hk T hT i _ => by rw [htables T ⟨k, hk, hT⟩]]
  refine ⟨⟨⟨by rw [hpool]; exact h.tree.pool, fun T hT => ?_, fun f hf => ?_⟩, by rw [hpool]; exact h.nonempty,
    by rw [hpool]; exact h.below⟩, hrefs⟩
  · obtain ⟨l, hl, hmem⟩ := hT
    rw [Links.tables_congr (fun k hk T hT i _ => by rw [htables T ⟨k, hk, hT⟩]) l (Nat.le_of_lt hl)] at hmem
    rw [hrefs]
    exact h.tree.tables T ⟨l, hl, hmem⟩
  · rw [hrefs]
    rw [hpool] at hf
    exact h.tree.free f hf

end Mappable

end Cthulhu
