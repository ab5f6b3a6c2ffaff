import Cthulhu.Lib.LinkPaths
import Cthulhu.Memory.UserTables

/-!
# The tables of the kernel heap

The tables below one slot of a root, the slot of the kernel heap, and the frames that its pages map. Every
one of them is linked once and none is free. The other frames that must stay as they are, the
roots and whatever they link in their other slots, are kept apart.

Two changes matter: a fresh frame is linked, as a table or for a page, and a frame is given back with
the entry that leads to it. Neither writes a frame that is kept, except for the entry of the
slot, and that one only when no other page of the slot is mapped.
-/

namespace Cthulhu

open Lib

/-- `RESERVED_KBLOCK_KHEAP_MAPPINGS`. -/
def reservedHeapMappings : ℕ := 509

/-- The tables below the heap slot, and the frames of its pages as a last level. -/
def heapLinks : Links ℕ ℕ ℕ where
  depth := 5
  slots := Finset.range 512
  child l i w := if present w ∧ (l = 0 → i = reservedHeapMappings) then some (align w) else none

/-- The levels of the tables and frames of the heap. -/
abbrev HeapTag := ℕ → Option (ℕ × Unit)

/-- An entry in the tables of the root. -/
abbrev HeapPlace (R : ℕ) (tag : HeapTag) (l : ℕ) (e : Slot) : Prop :=
  heapLinks.Upper R (fun _ => ()) tag l () e.table e.index

/-- The indices of an address, down to its entry. -/
def heapPath (va : ℕ) : List ℕ := indices va ++ [tableIndex va]

/-- The page is mapped to the frame. -/
def HeapPage (R : ℕ) (m : Machine) (va D : ℕ) : Prop := heapLinks.walk m.memory 0 R (heapPath va) = some D

/-- The tables of the heap below the root, apart from the frames that are kept. -/
structure HeapTables (R : ℕ) (kept : ℕ → Prop) (tag : HeapTag) (m : Machine) : Prop where
  pool : PoolInv m.framePool
  nonempty : m.framePool ≠ []
  below : ∀ s ∈ m.framePool, s.endWord ≤ 2 ^ 62
  sided : heapLinks.Sided R (fun _ => ()) (fun _ _ => True) (fun _ => True) tag m.memory
  managed : ∀ T, tag T ≠ none → IsFrame m.framePool T ∧ 0x200000 ≤ T
  held : ∀ f ∈ freeFrames m.framePool, ¬ kept f ∧ tag f = none
  apart : ∀ f, kept f → tag f = none
  root : kept R
  clean : ∀ T s, tag T = some (3, s) → ∀ i < 512, present (m.memory T i) = false → m.memory T i = 0

/-- What a change at the pages leaves alone. -/
structure HeapEffect (R : ℕ) (kept : ℕ → Prop) (pages : ℕ → Prop) (m m' : Machine) : Prop where
  kept : ∀ T, kept T → ∀ i, ¬ (T = R ∧ i = reservedHeapMappings) → m'.memory T i = m.memory T i
  mapped : ∀ va, pmlIndex va = reservedHeapMappings → (∀ p, pages p → ¬ SamePage va p) → ∀ D, HeapPage R m va D →
    HeapPage R m' va D ∧ m'.memory R reservedHeapMappings = m.memory R reservedHeapMappings
  active : m'.activePage = m.activePage

section Effects

variable {R : ℕ} {kept : ℕ → Prop} {pages pages' : ℕ → Prop} {m m' m'' : Machine}

/-- No change leaves everything alone. -/
theorem HeapEffect.same (hmem : m'.memory = m.memory) (hactive : m'.activePage = m.activePage) :
    HeapEffect R kept pages m m' where
  kept := fun T _ i _ => by rw [hmem]
  mapped := fun va _ _ D hD => by
    unfold HeapPage
    rw [hmem]
    exact ⟨hD, rfl⟩
  active := hactive

/-- One change after the other. -/
theorem HeapEffect.trans (h : HeapEffect R kept pages m m') (h' : HeapEffect R kept pages m' m'') :
    HeapEffect R kept pages m m'' where
  kept := fun T hT i hi => (h'.kept T hT i hi).trans (h.kept T hT i hi)
  mapped := fun va hva hout D hD => by
    obtain ⟨hpage, hword⟩ := h.mapped va hva hout D hD
    obtain ⟨hpage', hword'⟩ := h'.mapped va hva hout D hpage
    exact ⟨hpage', hword'.trans hword⟩
  active := h'.active.trans h.active

/-- A change at fewer pages leaves more alone. -/
theorem HeapEffect.mono (h : HeapEffect R kept pages m m') (hpages : ∀ p, pages p → pages' p) :
    HeapEffect R kept pages' m m' where
  kept := h.kept
  mapped := fun va hva hout => h.mapped va hva fun p hp => hout p (hpages p hp)
  active := h.active

end Effects

section Links

/-- An entry leads to a frame when it is present. -/
theorem heapLinks_child {l i w C : ℕ} (h : heapLinks.child l i w = some C) :
    present w = true ∧ align w = C ∧ (l = 0 → i = reservedHeapMappings) := by
  unfold heapLinks at h
  dsimp only at h
  split at h
  next hpresent => exact ⟨hpresent.1, Option.some.inj h, hpresent.2⟩
  next => exact absurd h (by simp)

/-- A present entry leads to its frame. -/
theorem heapLinks_present {l i w : ℕ} (hpresent : present w = true) (hslot : l = 0 → i = reservedHeapMappings) :
    heapLinks.child l i w = some (align w) := if_pos ⟨hpresent, hslot⟩

/-- An entry that is not present leads nowhere. -/
theorem heapLinks_absent {l i w : ℕ} (h : present w = false) : heapLinks.child l i w = none :=
  if_neg fun hpresent => absurd (h.symm.trans hpresent.1) (by simp)

/-- Neither does a cleared one. -/
theorem heapLinks_zero (l i : ℕ) : heapLinks.child l i 0 = none := heapLinks_absent rfl

/-- Every index of a path is an index of a table. -/
theorem heapPath_mem (va : ℕ) : ∀ i ∈ heapPath va, i ∈ heapLinks.slots := by
  unfold heapPath
  rw [List.forall_mem_append, List.forall_mem_singleton]
  exact ⟨indices_mem va, Finset.mem_range.mpr (tableIndex_lt va)⟩

/-- A path goes down to the frames. -/
theorem heapPath_depth (va : ℕ) : 0 + (heapPath va).length < heapLinks.depth := show 0 + 4 < 5 by decide

/-- The indices of a page go down to its last table. -/
theorem indices_depth (va : ℕ) : 0 + (indices va).length < heapLinks.depth := show 0 + 3 < 5 by decide

/-- Addresses with one path are in one page. -/
theorem samePage_of_heapPath {va va' : ℕ} (h : heapPath va = heapPath va') : SamePage va va' := by
  unfold heapPath indices at h
  simp only [List.cons_append, List.nil_append, List.cons.injEq, and_true] at h
  obtain ⟨hpml, hptr, hdir, htable⟩ := h
  unfold SamePage
  unfold pmlIndex at hpml
  unfold directoryPtrIndex at hptr
  unfold directoryIndex at hdir
  unfold tableIndex at htable
  omega

/-- In the heap slot the walk of the source is the walk of the heap. -/
theorem walk_heapLinks {mem : Memory} {R va : ℕ} (hva : pmlIndex va = reservedHeapMappings) :
    heapLinks.walk mem 0 R (indices va) = paging.walk mem 0 R (indices va) := by
  have hchild (l i w : ℕ) (hl : l < 3) (hi : l = 0 → i = reservedHeapMappings) :
      heapLinks.child l i w = paging.child l i w := by
    cases hpresent : present w with
    | false => rw [heapLinks_absent hpresent, child_of_not_present hpresent]
    | true =>
      rw [heapLinks_present hpresent hi, child_upper hl _ hpresent]
      rintro ⟨hzero, h510⟩
      exact absurd (h510.symm.trans (hi hzero)) (by decide)
  unfold indices
  simp only [Links.walk, hchild 0 _ _ (by decide) fun _ => hva, hchild 1 _ _ (by decide) fun h => absurd h (by decide),
    hchild 2 _ _ (by decide) fun h => absurd h (by decide)]

end Links

section Changes

variable {R : ℕ} {kept : ℕ → Prop} {tag tag' : HeapTag} {m m' : Machine}

/-- A change of neither the pool nor the memory keeps the tables. -/
theorem HeapTables.same (h : HeapTables R kept tag m) (hpool : m'.framePool = m.framePool)
    (hmem : m'.memory = m.memory) : HeapTables R kept tag m' := by
  obtain ⟨hinv, hnonempty, hbelow, hsided, hmanaged, hheld, hapart, hroot, hclean⟩ := h
  rw [← hpool] at hinv hnonempty hbelow hmanaged hheld
  rw [← hmem] at hsided hclean
  exact ⟨hinv, hnonempty, hbelow, hsided, hmanaged, hheld, hapart, hroot, hclean⟩

/-- The invariant after a change that keeps the layout of the pool. -/
theorem HeapTables.next {kept' : ℕ → Prop} (h : HeapTables R kept tag m)
    (hlayout : m'.framePool.map SectionInfo.layout = m.framePool.map SectionInfo.layout)
    (hpool : PoolInv m'.framePool)
    (hsided : heapLinks.Sided R (fun _ => ()) (fun _ _ => True) (fun _ => True) tag' m'.memory)
    (hmanaged : ∀ T, tag' T ≠ none → IsFrame m.framePool T ∧ 0x200000 ≤ T)
    (hheld : ∀ f ∈ freeFrames m'.framePool, ¬ kept' f ∧ tag' f = none) (hapart : ∀ f, kept' f → tag' f = none)
    (hroot : kept' R)
    (hclean : ∀ T s, tag' T = some (3, s) → ∀ i < 512, present (m'.memory T i) = false → m'.memory T i = 0) :
    HeapTables R kept' tag' m' where
  pool := hpool
  nonempty := by
    intro hnil
    rw [hnil, List.map_nil, eq_comm, List.map_eq_nil_iff] at hlayout
    exact h.nonempty hlayout
  below := by
    have hends : ∀ e ∈ m'.framePool.map SectionInfo.layout, e.2.1 ≤ 2 ^ 62 := by
      rw [hlayout]
      exact List.forall_mem_map.mpr h.below
    exact List.forall_mem_map.mp hends
  sided := hsided
  managed := fun T hT => (hmanaged T hT).imp_left (isFrame_congr hlayout T).mpr
  held := hheld
  apart := hapart
  root := hroot
  clean := hclean

/-- The table of an entry is the root or has a level. -/
theorem HeapPlace.tag_ne {l : ℕ} {e : Slot} (hplace : HeapPlace R tag l e) {f : ℕ} (hroot : f ≠ R) (hf : tag f = none) :
    e.table ≠ f := by
  rintro rfl
  exact hplace.table.elim hroot fun htagged => htagged hf

/-- The table of an entry that leads to a frame is not kept, unless it is the entry of the slot. -/
theorem HeapTables.not_kept (h : HeapTables R kept tag m) {l C w : ℕ} {e : Slot} (hplace : HeapPlace R tag l e)
    (hchild : heapLinks.child l e.index w = some C) (hkept : kept e.table) :
    e.table = R ∧ e.index = reservedHeapMappings := by
  rcases hplace.table with hroot | htagged
  · refine ⟨hroot, (heapLinks_child hchild).2.2 ?_⟩
    cases hl : l with
    | zero => rfl
    | succ k =>
      rw [hl] at hplace
      cases hplace with
      | below hT _ _ => exact absurd (hT.symm.trans (hroot ▸ h.sided.root)) (by simp)
  · exact absurd (h.apart _ hkept) htagged

/-- The next free frame is neither kept nor one of the heap. -/
theorem HeapTables.fresh (h : HeapTables R kept tag m) (hne : (getFreeFrame m.framePool).1 ≠ 0) :
    ¬ kept (getFreeFrame m.framePool).1 ∧ tag (getFreeFrame m.framePool).1 = none := by
  obtain ⟨-, -, -, -, hfree, -⟩ := h.pool.taken rfl hne
  apply h.held
  rw [hfree]
  exact List.mem_cons_self

/-- `free_frame` stays in its address space. -/
theorem freeFrame_activePage (m : Machine) (f : ℕ) : (m.freeFrame f).activePage = m.activePage := by
  unfold Machine.freeFrame
  dsimp only
  split <;> rfl

/-- A tagged frame is in use. -/
theorem HeapTables.used (h : HeapTables R kept tag m) {T : ℕ} (hT : tag T ≠ none) : 1 ≤ usageCount m.framePool T := by
  obtain ⟨hframe, hhigh⟩ := h.managed T hT
  by_contra hzero
  exact hT (h.held T ((h.pool.mem_freeFrames T).mpr ⟨hframe, hhigh, by omega⟩)).2

/-- The frame of a page is on the last level. -/
theorem HeapTables.page_level (h : HeapTables R kept tag m) {va D : ℕ} (hpage : HeapPage R m va D) :
    tag D = some (4, ()) := by
  rcases h.sided.atLevel_walk (Or.inl ⟨rfl, rfl⟩) (heapPath_depth va) (heapPath_mem va) hpage with
    ⟨habsurd, -⟩ | ⟨-, s, hs⟩
  · exact absurd habsurd (by simp [heapPath])
  · exact hs

/-- A change confined to one entry and one frame leaves the kept frames alone, and the pages of other frames. -/
theorem HeapTables.effect (h : HeapTables R kept tag m) {l C : ℕ} {e : Slot} {pages : ℕ → Prop}
    (hchange : heapLinks.Confined R (fun _ => ()) tag l () e.table e.index C m.memory m'.memory) (hC : ¬ kept C)
    (hslot : kept e.table → e.table = R ∧ e.index = reservedHeapMappings)
    (hother : ∀ va, pmlIndex va = reservedHeapMappings → (∀ p, pages p → ¬ SamePage va p) → ¬ HeapPage R m va C)
    (hactive : m'.activePage = m.activePage) : HeapEffect R kept pages m m' := by
  refine ⟨?_, ?_, hactive⟩
  · intro T hT i hi
    apply hchange.off
    · rintro rfl
      exact hC hT
    · rintro ⟨rfl, rfl⟩
      exact hi (hslot hT)
  · intro va hva hout D hD
    have hne : D ≠ C := by
      rintro rfl
      exact hother va hva hout hD
    have hroot : Links.AtLevel R tag 0 R := Or.inl ⟨rfl, rfl⟩
    refine ⟨h.sided.walk_confined hchange hroot (heapPath_depth va) (heapPath_mem va) hD hne, ?_⟩
    rw [← hva]
    exact h.sided.word_confined hchange hroot (heapPath_depth va) (heapPath_mem va) hD hne

/-- Linking a fresh frame: as a cleared table, or as the frame of a page. -/
theorem HeapTables.graft (h : HeapTables R kept tag m) {l : ℕ} {e : Slot} (hplace : HeapPlace R tag l e) {w f : ℕ}
    (hf : f = (getFreeFrame m.framePool).1) (hne : f ≠ 0) (hold : heapLinks.child l e.index (m.load e) = none)
    (hw : heapLinks.child l e.index w = some f) {filled : Memory} (hoff : ∀ n, n ≠ f → filled n = m.memory n)
    (hclear : l < 3 → ∀ i, filled f i = 0) (hpool : m'.framePool = (getFreeFrame m.framePool).2)
    (hactive : m'.activePage = m.activePage) (hmem : m'.memory = Links.store filled e.table e.index w) :
    HeapTables R kept (Function.update tag f (some (l + 1, ()))) m' ∧ HeapEffect R kept (fun _ => False) m m' := by
  obtain ⟨hframe, hhigh, hinv, hlayout, hfree, -⟩ := h.pool.taken hf hne
  obtain ⟨hkept, htag⟩ := h.fresh (hf ▸ hne)
  rw [← hf] at hkept htag
  have hroot : f ≠ R := fun heq => hkept (heq ▸ h.root)
  have htable : e.table ≠ f := hplace.tag_ne hroot htag
  have hother {T : ℕ} (hT : T ≠ f) : Function.update tag f (some (l + 1, ())) T = tag T := Function.update_of_ne hT _ _
  have hword (T i : ℕ) (hT : T ≠ f) (hhere : ¬ (T = e.table ∧ i = e.index)) : m'.memory T i = m.memory T i := by
    rw [hmem, Links.store_of_ne _ w hhere, hoff T hT]
  have hhere : m'.memory e.table e.index = w := by rw [hmem, Links.store_self]
  have hnew (i : ℕ) : m'.memory f i = filled f i := by
    rw [hmem, Links.store_of_ne _ w fun heq => htable heq.1.symm]
  -- what the new frame holds matters only where it is a table, and then it is cleared
  have hsided : heapLinks.Sided R (fun _ => ()) (fun _ _ => True) (fun _ => True)
      (Function.update tag f (some (l + 1, ()))) m'.memory := by
    have hcleared : heapLinks.Sided R (fun _ => ()) (fun _ _ => True) (fun _ => True)
        (Function.update tag f (some (l + 1, ())))
        (Links.store (Function.update m.memory f fun _ => 0) e.table e.index w) := by
      apply h.sided.graft hplace hold
      · rw [Links.store_self]
        exact hw
      · exact True.intro
      · exact htag
      · exact hroot
      · intro k j _
        rw [Links.store_of_ne _ w fun heq => htable heq.1.symm, Function.update_self]
        exact heapLinks_zero k j
      · intro T j hT hhere
        rw [Links.store_of_ne _ w hhere, cleared_off m.memory f T hT]
    apply hcleared.congr
    intro k s T i hplace'
    by_cases hT : T = f
    · subst hT
      rw [hnew, Links.store_of_ne _ w fun heq => htable heq.1.symm, Function.update_self]
      apply hclear
      cases hplace' with
      | root _ _ => exact absurd rfl hroot
      | below hT' hl _ =>
        rw [Function.update_self, Option.some.injEq, Prod.mk.injEq] at hT'
        have hdepth : heapLinks.depth = 5 := rfl
        omega
    · by_cases hentry : T = e.table ∧ i = e.index
      · obtain ⟨rfl, rfl⟩ := hentry
        rw [hhere, Links.store_self]
      · rw [hword T i hT hentry, Links.store_of_ne _ w hentry, cleared_off m.memory f T hT]
  constructor
  · refine h.next (by rw [hpool, hlayout]) (by rw [hpool]; exact hinv) hsided ?_ ?_ ?_ h.root ?_
    · intro T hT
      by_cases hTf : T = f
      · exact hTf ▸ ⟨hframe, hhigh⟩
      · rw [hother hTf] at hT
        exact h.managed T hT
    · intro g hg
      rw [hpool] at hg
      have hnodup := h.pool.freeFrames_nodup
      rw [hfree, List.nodup_cons] at hnodup
      rw [hother fun heq => hnodup.1 (heq ▸ hg)]
      apply h.held
      rw [hfree]
      exact List.mem_cons_of_mem _ hg
    · intro g hg
      rw [hother fun heq => hkept (heq ▸ hg)]
      exact h.apart g hg
    · intro T s hT i hi habsent
      by_cases hTf : T = f
      · subst hTf
        rw [Function.update_self, Option.some.injEq, Prod.mk.injEq] at hT
        rw [hnew]
        exact hclear (by omega) i
      · rw [hother hTf] at hT
        by_cases hentry : T = e.table ∧ i = e.index
        · obtain ⟨rfl, rfl⟩ := hentry
          rw [hhere, (heapLinks_child hw).1] at habsent
          exact absurd habsent (by simp)
        · rw [hword T i hTf hentry] at habsent ⊢
          exact h.clean T s hT i hi habsent
  · refine h.effect ⟨hplace, fun D hD => absurd (hold.symm.trans hD) (by simp), fun k s i D hplace' _ => ?_, hword⟩ hkept
      (h.not_kept hplace hw) (fun va _ _ hpage => ?_) hactive
    · exact hplace'.table.elim hroot fun htagged => htagged htag
    · exact absurd (htag.symm.trans (h.page_level hpage)) (by simp)

/-- Taking a frame for a new root, which is kept from then on. -/
theorem HeapTables.takeRoot (h : HeapTables R kept tag m) {kept' : ℕ → Prop} {f : ℕ}
    (hf : f = (getFreeFrame m.framePool).1) (hne : f ≠ 0) (hpool : m'.framePool = (getFreeFrame m.framePool).2)
    (hoff : ∀ n, n ≠ f → m'.memory n = m.memory n) (hkept' : ∀ g, kept' g → kept g ∨ g = f) (hroot : kept' R) :
    HeapTables R kept' tag m' := by
  obtain ⟨hframe, -, hinv, hlayout, hfree, -⟩ := h.pool.taken hf hne
  obtain ⟨hkept, htag⟩ := h.fresh (hf ▸ hne)
  rw [← hf] at hkept htag
  have htagged {T : ℕ} (hT : tag T ≠ none) : T ≠ f := fun heq => hT (heq ▸ htag)
  have hnodup := h.pool.freeFrames_nodup
  rw [hfree, List.nodup_cons] at hnodup
  refine h.next (by rw [hpool, hlayout]) (by rw [hpool]; exact hinv) ?_ h.managed ?_ ?_ hroot ?_
  · apply h.sided.congr
    intro k s T i hplace
    have hT : T ≠ f := hplace.table.elim (fun heq => heq ▸ fun hroot => hkept (hroot ▸ h.root)) htagged
    rw [hoff T hT]
  · intro g hg
    rw [hpool] at hg
    have hold := h.held g (hfree ▸ List.mem_cons_of_mem _ hg)
    refine ⟨fun hg' => ?_, hold.2⟩
    rcases hkept' g hg' with hbefore | hnew
    · exact hold.1 hbefore
    · exact hnodup.1 (hnew ▸ hg)
  · intro g hg
    rcases hkept' g hg with hbefore | hnew
    · exact h.apart g hbefore
    · exact hnew ▸ htag
  · intro T s hT i hi habsent
    rw [hoff T (htagged (by simp [hT]))] at habsent ⊢
    exact h.clean T s hT i hi habsent

/-- Giving back a frame with the entry that leads to it: an empty table, or the frame of a page. -/
theorem HeapTables.release (h : HeapTables R kept tag m) {l C : ℕ} {e : Slot} (hplace : HeapPlace R tag l e)
    (hchild : heapLinks.child l e.index (m.load e) = some C) (hclear : l < 3 → ∀ i < 512, m.memory C i = 0)
    (pages : ℕ → Prop) (hpage : l = 3 → ∃ va, pages va ∧ HeapPage R m va C) :
    ∃ tag', HeapTables R kept tag' ((m.freeFrame C).store e 0) ∧
      HeapEffect R kept pages m ((m.freeFrame C).store e 0) ∧ (∀ T, T ≠ C → tag' T = tag T) ∧
      heapLinks.Confined R (fun _ => ()) tag l () e.table e.index C m.memory ((m.freeFrame C).store e 0).memory := by
  have htag := (h.sided.link hplace hchild).1
  have htagged : tag C ≠ none := by simp [htag]
  obtain ⟨hframe, hhigh⟩ := h.managed C htagged
  have hkept : ¬ kept C := fun hC => htagged (h.apart C hC)
  have hroot : C ≠ R := fun heq => hkept (heq ▸ h.root)
  have htable : e.table ≠ C := h.sided.ne_child hplace hchild
  obtain ⟨hinv, hlayout, hfree, hmem⟩ := h.pool.freeFrame_used hframe hhigh (h.used htagged)
  have hwords (T : ℕ) (hT : T ≠ C) : (m.freeFrame C).memory T = m.memory T := by
    rcases hmem with hsame | hcleared
    · rw [hsame]
    · rw [hcleared, cleared_off m.memory C T hT]
  have hmemory : ((m.freeFrame C).store e 0).memory = Links.store (m.freeFrame C).memory e.table e.index 0 := rfl
  have hword (T i : ℕ) (hT : T ≠ C) (hhere : ¬ (T = e.table ∧ i = e.index)) :
      ((m.freeFrame C).store e 0).memory T i = m.memory T i := by
    rw [hmemory, Links.store_of_ne _ 0 hhere, hwords T hT]
  have hhere : ((m.freeFrame C).store e 0).memory e.table e.index = 0 := by rw [hmemory, Links.store_self]
  have hzero {k i : ℕ} {s : Unit} (hplace' : heapLinks.Upper R (fun _ => ()) tag k s C i) : m.memory C i = 0 := by
    have hi := Finset.mem_range.mp hplace'.mem_slots
    cases hplace' with
    | root _ _ => exact absurd rfl hroot
    | below hT' hl _ =>
      rw [htag, Option.some.injEq, Prod.mk.injEq] at hT'
      have hdepth : heapLinks.depth = 5 := rfl
      exact hclear (by omega) i hi
  -- what the frame holds matters only where it is a table, and then it is clear
  obtain ⟨tag', hcut, hother, howned⟩ : ∃ tag', heapLinks.Sided R (fun _ => ()) (fun _ _ => True) (fun _ => True) tag'
      (Links.store (Function.update m.memory C fun _ => 0) e.table e.index 0) ∧ (∀ T, T ≠ C → tag' T = tag T) ∧
        (True → tag' C = none) := by
    have hcleared : heapLinks.Sided R (fun _ => ()) (fun _ _ => True) (fun _ => True) tag
        (Function.update m.memory C fun _ => 0) := by
      apply h.sided.congr
      intro k s T i hplace'
      by_cases hT : T = C
      · subst hT
        rw [Function.update_self, hzero hplace']
      · rw [cleared_off m.memory C T hT]
    apply hcleared.cut hplace
    · rw [cleared_off m.memory C e.table htable]
      exact hchild
    · rw [Links.store_self]
      exact heapLinks_zero _ _
    · intro k j _
      rw [Function.update_self]
      exact heapLinks_zero k j
    · intro k j _
      rw [Links.store_of_ne _ 0 fun heq => htable heq.1.symm, Function.update_self]
      exact heapLinks_zero k j
    · intro T j hT hhere
      exact Links.store_of_ne _ 0 hhere
  have hgone : tag' C = none := howned True.intro
  have hchange : heapLinks.Confined R (fun _ => ()) tag l () e.table e.index C m.memory
      ((m.freeFrame C).store e 0).memory := by
    refine ⟨hplace, fun D hD => Option.some.inj (hD.symm.trans hchild), fun k s i D hplace' hD => ?_, hword⟩
    rw [hzero hplace', heapLinks_zero] at hD
    exact absurd hD (by simp)
  refine ⟨tag', ?_, ?_, hother, hchange⟩
  · refine h.next hlayout hinv ?_ ?_ ?_ ?_ h.root ?_
    · apply hcut.congr
      intro k s T i hplace'
      have hT : T ≠ C := by
        rintro rfl
        exact hplace'.table.elim hroot fun htagged => htagged hgone
      by_cases hentry : T = e.table ∧ i = e.index
      · obtain ⟨rfl, rfl⟩ := hentry
        rw [hhere, Links.store_self]
      · rw [hword T i hT hentry, Links.store_of_ne _ 0 hentry, cleared_off m.memory C T hT]
    · intro T hT
      have hTC : T ≠ C := by
        rintro rfl
        exact hT hgone
      rw [hother T hTC] at hT
      exact h.managed T hT
    · intro f hf
      rcases hfree f hf with rfl | hold
      · exact ⟨hkept, hgone⟩
      · have hfC : f ≠ C := by
          rintro rfl
          exact htagged (h.held f hold).2
        rw [hother f hfC]
        exact h.held f hold
    · intro f hf
      rw [hother f fun heq => hkept (heq ▸ hf)]
      exact h.apart f hf
    · intro T s hT i hi habsent
      have hTC : T ≠ C := by
        rintro rfl
        exact absurd (hgone.symm.trans hT) (by simp)
      rw [hother T hTC] at hT
      by_cases hentry : T = e.table ∧ i = e.index
      · obtain ⟨rfl, rfl⟩ := hentry
        exact hhere
      · rw [hword T i hTC hentry] at habsent ⊢
        exact h.clean T s hT i hi habsent
  · refine h.effect hchange hkept (h.not_kept hplace hchild) (fun va _ hout hreached => ?_) ?_
    · have hlevel := htag.symm.trans (h.page_level hreached)
      rw [Option.some.injEq, Prod.mk.injEq] at hlevel
      obtain ⟨va', hva', hpage'⟩ := hpage (Nat.succ.inj hlevel.1)
      apply hout va' hva'
      exact samePage_of_heapPath (h.sided.walk_inj (fun _ => True.intro) rfl (show 4 < 5 by decide)
        (heapPath_mem va) (heapPath_mem va') hreached hpage')
    · exact freeFrame_activePage m C

end Changes

end Cthulhu
