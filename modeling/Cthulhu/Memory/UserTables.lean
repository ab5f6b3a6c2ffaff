import Cthulhu.Lib.LinkSides
import Cthulhu.Memory.LeafEntries

/-!
# The tables of the user half

The tables of one address space, divided into those of the user half and those of the kernel half. The
invariant says that the halves share no table, that no table is a free frame, and that every
entry above the leaves gives user-mode access in the user half. It says nothing about what the
leaf entries map.

Only three changes matter to it: a fresh frame is linked as a table, an empty table is given back,
and a frame that is no table is given back.
-/

namespace Cthulhu

open Lib

/-- The lower half of a root is the user's. -/
def userHalf (i : ℕ) : Bool := decide (i < 256)

/-- The entries of the user half give user-mode access. -/
def Opens (user : Bool) (w : ℕ) : Prop := user = true → bit w 2 = true

/-- An entry above the leaves, in the tables of the root. -/
abbrev Above (R : ℕ) (tag : ℕ → Option (ℕ × Bool)) (l : ℕ) (user : Bool) (e : Slot) : Prop :=
  paging.Upper R userHalf tag l user e.table e.index

/-- The tables of an address space with their levels and halves. -/
structure UserTables (R : ℕ) (tag : ℕ → Option (ℕ × Bool)) (m : Machine) : Prop where
  pool : PoolInv m.framePool
  nonempty : m.framePool ≠ []
  high : ∀ f, IsFrame m.framePool f → 0x200000 ≤ f
  below : ∀ s ∈ m.framePool, s.endWord ≤ 2 ^ 62
  cow : CowFree m.framePool
  sided : paging.Sided R userHalf Opens (IsFrame m.framePool) tag m.memory
  held : ∀ f ∈ freeFrames m.framePool, f ≠ R ∧ tag f = none
  named : ∀ T, tag T ≠ none → IsFrame m.framePool T ∨ Unmanaged m.framePool T

/-- `free_frame` on a frame in use: its count drops, and with its last use the frame is cleared and free. -/
theorem PoolInv.freeFrame_used {m : Machine} (h : PoolInv m.framePool) {f : ℕ} (hf : IsFrame m.framePool f)
    (hhigh : 0x200000 ≤ f) (hused : 1 ≤ usageCount m.framePool f) :
    PoolInv (m.freeFrame f).framePool ∧
      (m.freeFrame f).framePool.map SectionInfo.layout = m.framePool.map SectionInfo.layout ∧
      (∀ g ∈ freeFrames (m.freeFrame f).framePool, g = f ∨ g ∈ freeFrames m.framePool) ∧
      ((m.freeFrame f).memory = m.memory ∨ (m.freeFrame f).memory = Function.update m.memory f fun _ => 0) := by
  have halign : align f = f := align_of_mod (h.frame_aligned hf).1
  obtain ⟨hinv, hlayout, -, hcases⟩ := h.releaseFrame hf hhigh hused
  rw [m.freeFrame_framePool, m.freeFrame_memory, halign]
  refine ⟨hinv, hlayout, fun g hg => ?_, ?_⟩
  · rcases hcases with ⟨-, -, hperm⟩ | ⟨-, -, hsame⟩
    · exact List.mem_cons.mp (hperm.mem_iff.mp hg)
    · exact Or.inr (hsame ▸ hg)
  · rcases hcases with ⟨-, hlast, -⟩ | ⟨-, hmore, -⟩
    · rw [hlast]
      exact Or.inr rfl
    · rw [hmore]
      exact Or.inl rfl

section Changes

variable {R : ℕ} {tag tag' : ℕ → Option (ℕ × Bool)} {m m' : Machine}

/-- The invariant after a change that keeps the layout of the pool. -/
theorem UserTables.next (h : UserTables R tag m)
    (hlayout : m'.framePool.map SectionInfo.layout = m.framePool.map SectionInfo.layout)
    (hpool : PoolInv m'.framePool) (hcow : CowFree m'.framePool)
    (hsided : paging.Sided R userHalf Opens (IsFrame m.framePool) tag' m'.memory)
    (hheld : ∀ f ∈ freeFrames m'.framePool, f ≠ R ∧ tag' f = none)
    (hnamed : ∀ T, tag' T ≠ none → IsFrame m.framePool T ∨ Unmanaged m.framePool T) : UserTables R tag' m' where
  pool := hpool
  nonempty := by
    intro hnil
    rw [hnil, List.map_nil, eq_comm, List.map_eq_nil_iff] at hlayout
    exact h.nonempty hlayout
  high := fun f hf => h.high f ((isFrame_congr hlayout f).mp hf)
  below := by
    have hends : ∀ e ∈ m'.framePool.map SectionInfo.layout, e.2.1 ≤ 2 ^ 62 := by
      rw [hlayout]
      exact List.forall_mem_map.mpr h.below
    exact List.forall_mem_map.mp hends
  cow := hcow
  sided := hsided.owned_mono fun C => (isFrame_congr hlayout C).mp
  held := hheld
  named := fun T hT => (hnamed T hT).imp (isFrame_congr hlayout T).mpr (unmanaged_congr hlayout T).mpr

/-- Whatever is written elsewhere than above the leaves, and whichever frames become free that are
no tables, the tables stay. -/
theorem UserTables.keep (h : UserTables R tag m)
    (hlayout : m'.framePool.map SectionInfo.layout = m.framePool.map SectionInfo.layout)
    (hpool : PoolInv m'.framePool) (hcow : CowFree m'.framePool)
    (hfree : ∀ f ∈ freeFrames m'.framePool, f ∈ freeFrames m.framePool ∨ (f ≠ R ∧ tag f = none))
    (hmem : ∀ {l u T i}, paging.Upper R userHalf tag l u T i → m'.memory T i = m.memory T i) : UserTables R tag m' :=
  h.next hlayout hpool hcow (h.sided.congr hmem) (fun f hf => (hfree f hf).elim (h.held f) id) h.named

/-- A change of neither the pool nor the memory keeps the tables. -/
theorem UserTables.same (h : UserTables R tag m) (hpool : m'.framePool = m.framePool) (hmem : m'.memory = m.memory) :
    UserTables R tag m' := by
  refine h.keep (by rw [hpool]) (by rw [hpool]; exact h.pool) (by rw [hpool]; exact h.cow) (fun f hf => ?_) fun _ => by
    rw [hmem]
  rw [hpool] at hf
  exact Or.inl hf

/-- A leaf entry is no entry above the leaves. -/
theorem UserTables.leaf_ne (h : UserTables R tag m) {T : ℕ} {u : Bool} (hT : tag T = some (3, u)) {l T' i : ℕ}
    {u' : Bool} (hplace : paging.Upper R userHalf tag l u' T' i) : T' ≠ T :=
  hplace.ne_of_tag h.sided.root hT (Nat.lt_of_succ_lt_succ hplace.lt_depth)

/-- Writing a leaf entry keeps the tables. -/
theorem UserTables.storeLeaf (h : UserTables R tag m) {p : Slot} {u : Bool} (hp : tag p.table = some (3, u)) (w : ℕ) :
    UserTables R tag (m.store p w) := by
  refine h.keep rfl h.pool h.cow (fun f hf => Or.inl hf) fun hplace => ?_
  exact Links.store_of_ne m.memory w fun hhere => h.leaf_ne hp hplace hhere.1

/-- The next free frame is no table. -/
theorem UserTables.fresh (h : UserTables R tag m) (hne : (getFreeFrame m.framePool).1 ≠ 0) :
    (getFreeFrame m.framePool).1 ≠ R ∧ tag (getFreeFrame m.framePool).1 = none := by
  obtain ⟨-, -, -, -, hfree, -⟩ := h.pool.taken rfl hne
  refine h.held _ ?_
  rw [hfree]
  exact List.mem_cons_self

/-- No entry above the leaves is in a node that has no tag. -/
theorem ne_of_untagged {f : ℕ} (hroot : f ≠ R) (htag : tag f = none) {l T i : ℕ} {u : Bool}
    (hplace : paging.Upper R userHalf tag l u T i) : T ≠ f := by
  rintro rfl
  exact hplace.table.elim hroot fun htagged => htagged htag

/-- Taking a frame for data and writing a leaf entry keeps the tables. -/
theorem UserTables.takeFrame (h : UserTables R tag m) (hne : (getFreeFrame m.framePool).1 ≠ 0)
    (hpool : m'.framePool = (getFreeFrame m.framePool).2)
    (hmem : ∀ {l u T i}, paging.Upper R userHalf tag l u T i → T ≠ (getFreeFrame m.framePool).1 →
      m'.memory T i = m.memory T i) : UserTables R tag m' := by
  obtain ⟨-, -, hinv, hlayout, hfree, -⟩ := h.pool.taken rfl hne
  obtain ⟨hroot, htag⟩ := h.fresh hne
  refine h.keep (by rw [hpool, hlayout]) (by rw [hpool]; exact hinv) (by rw [hpool]; exact h.cow.getFreeFrame)
    (fun f hf => Or.inl ?_) fun hplace => hmem hplace (ne_of_untagged hroot htag hplace)
  rw [hfree, ← hpool]
  exact List.mem_cons_of_mem _ hf

/-- Linking a cleared fresh frame as a table gives it a level and a half. -/
theorem UserTables.link (h : UserTables R tag m) {l : ℕ} {u : Bool} {e : Slot} (hplace : Above R tag l u e) {w : ℕ}
    (hold : paging.child l e.index (m.load e) = none) (hne : (getFreeFrame m.framePool).1 ≠ 0)
    (hw : paging.child l e.index w = some (getFreeFrame m.framePool).1) (hopen : Opens u w)
    (hpool : m'.framePool = (getFreeFrame m.framePool).2)
    (hmem : m'.memory = Links.store (Function.update m.memory (getFreeFrame m.framePool).1 fun _ => 0) e.table
      e.index w) :
    UserTables R (Function.update tag (getFreeFrame m.framePool).1 (some (l + 1, u))) m' := by
  obtain ⟨hframe, -, hinv, hlayout, hfree, -⟩ := h.pool.taken rfl hne
  obtain ⟨hroot, htag⟩ := h.fresh hne
  have htable := ne_of_untagged hroot htag hplace
  have hnodup := h.pool.freeFrames_nodup
  rw [hfree, List.nodup_cons] at hnodup
  have hhere : m'.memory e.table e.index = w := by
    rw [hmem, Links.store_self]
  have hsided : paging.Sided R userHalf Opens (IsFrame m.framePool)
      (Function.update tag (getFreeFrame m.framePool).1 (some (l + 1, u))) m'.memory := by
    refine h.sided.graft hplace hold (by rw [hhere]; exact hw) (by rw [hhere]; exact hopen) htag hroot
      (fun k j _ => ?_) fun T j hT hplace' => ?_
    · rw [hmem, Links.store_of_ne _ w fun heq => htable heq.1.symm, Function.update_self, child_zero]
    · rw [hmem, Links.store_of_ne _ w hplace', cleared_off m.memory _ T hT]
  refine h.next (by rw [hpool, hlayout]) (by rw [hpool]; exact hinv) (by rw [hpool]; exact h.cow.getFreeFrame) hsided
    (fun f hf => ?_) fun T hT => ?_
  · rw [hpool] at hf
    have hother : f ≠ (getFreeFrame m.framePool).1 := fun heq => hnodup.1 (heq ▸ hf)
    rw [Function.update_of_ne hother]
    refine h.held f ?_
    rw [hfree]
    exact List.mem_cons_of_mem _ hf
  · by_cases hTf : T = (getFreeFrame m.framePool).1
    · exact Or.inl (hTf ▸ hframe)
    · rw [Function.update_of_ne hTf] at hT
      exact h.named T hT

/-- What `free_frame` does to a frame in use: its count drops, and with its last use the frame is
cleared and free. -/
theorem UserTables.freeFrame (h : UserTables R tag m) {f : ℕ} (hf : IsFrame m.framePool f)
    (hused : 1 ≤ usageCount m.framePool f) :
    PoolInv (m.freeFrame f).framePool ∧
      (m.freeFrame f).framePool.map SectionInfo.layout = m.framePool.map SectionInfo.layout ∧
      CowFree (m.freeFrame f).framePool ∧
      (∀ g ∈ freeFrames (m.freeFrame f).framePool, g = f ∨ g ∈ freeFrames m.framePool) ∧
      ((m.freeFrame f).memory = m.memory ∨ (m.freeFrame f).memory = Function.update m.memory f fun _ => 0) := by
  obtain ⟨hinv, hlayout, hfree, hmem⟩ := h.pool.freeFrame_used hf (h.high f hf) hused
  refine ⟨hinv, hlayout, ?_, hfree, hmem⟩
  rw [m.freeFrame_framePool]
  exact h.cow.releaseFrame (align f)

/-- Giving back a frame that is in use and no table keeps the tables. -/
theorem UserTables.releaseData (h : UserTables R tag m) {f : ℕ} (hf : IsFrame m.framePool f)
    (hused : 1 ≤ usageCount m.framePool f) (hroot : f ≠ R) (htag : tag f = none) : UserTables R tag (m.freeFrame f) := by
  obtain ⟨hinv, hlayout, hcow, hfree, hmem⟩ := h.freeFrame hf hused
  refine h.keep hlayout hinv hcow (fun g hg => ?_) fun hplace => ?_
  · rcases hfree g hg with rfl | hold
    · exact Or.inr ⟨hroot, htag⟩
    · exact Or.inl hold
  · rcases hmem with hsame | hcleared
    · rw [hsame]
    · rw [hcleared, cleared_off m.memory f _ (ne_of_untagged hroot htag hplace)]

/-- A tagged frame of the pool is in use. -/
theorem UserTables.used (h : UserTables R tag m) {T : ℕ} (hT : tag T ≠ none) (hf : IsFrame m.framePool T) :
    1 ≤ usageCount m.framePool T := by
  by_contra hzero
  have hmem := (h.pool.mem_freeFrames T).mpr ⟨hf, h.high T hf, by omega⟩
  exact hT (h.held T hmem).2

/-- Giving back the empty table below an entry, one stage of `free_page_structure`, keeps the other
tables and writes no other table than the one of the entry. -/
theorem UserTables.releaseTable (h : UserTables R tag m) {l : ℕ} {u : Bool} {e : Slot} (hplace : Above R tag l u e)
    {C : ℕ} (hchild : paging.child l e.index (m.load e) = some C) (hclear : m.tableClear C = true) :
    ∃ tag', UserTables R tag' ((m.freeFrame C).store e 0) ∧ (∀ T, T ≠ C → tag' T = tag T) ∧
      ∀ T, T ≠ C → T ≠ e.table → ((m.freeFrame C).store e 0).memory T = m.memory T := by
  have htag := (h.sided.link hplace hchild).1
  have htagged : tag C ≠ none := by simp [htag]
  have hzero := (m.tableClear_iff C).mp hclear
  have htable : e.table ≠ C := h.sided.ne_child hplace hchild
  have hroot : C ≠ R := by
    rintro rfl
    exact htagged h.sided.root
  -- the frame is given back, or it is outside the pool and nothing happens
  have hgiven : PoolInv (m.freeFrame C).framePool ∧
      (m.freeFrame C).framePool.map SectionInfo.layout = m.framePool.map SectionInfo.layout ∧
      CowFree (m.freeFrame C).framePool ∧
      (∀ g ∈ freeFrames (m.freeFrame C).framePool, (IsFrame m.framePool C ∧ g = C) ∨ g ∈ freeFrames m.framePool) ∧
      ((m.freeFrame C).memory = m.memory ∨ (m.freeFrame C).memory = Function.update m.memory C fun _ => 0) := by
    have halign : align C = C := by
      rw [← (present_align_of_child (Nat.lt_of_succ_lt_succ hplace.lt_depth) hchild).2, align_align]
    rcases h.named C htagged with hf | hout
    · obtain ⟨hinv, hlayout, hcow, hfree, hmem⟩ := h.freeFrame hf (h.used htagged hf)
      exact ⟨hinv, hlayout, hcow, fun g hg => (hfree g hg).imp_left fun heq => ⟨hf, heq⟩, hmem⟩
    · rw [Machine.freeFrame_unmanaged (by rw [halign]; exact hout)]
      exact ⟨h.pool, rfl, h.cow, fun g hg => Or.inr hg, Or.inl rfl⟩
  obtain ⟨hinv, hlayout, hcow, hfree, hmem⟩ := hgiven
  have hwords (T : ℕ) (hT : T ≠ C) : (m.freeFrame C).memory T = m.memory T := by
    rcases hmem with hsame | hcleared
    · rw [hsame]
    · rw [hcleared, cleared_off m.memory C T hT]
  have hmemory : ((m.freeFrame C).store e 0).memory = Links.store (m.freeFrame C).memory e.table e.index 0 := rfl
  have hempty : ∀ k, ∀ j ∈ paging.slots, paging.child k j (m.memory C j) = none := by
    intro k j hj
    rw [hzero j (Finset.mem_range.mp hj), child_zero]
  have hempty' : ∀ k, ∀ j ∈ paging.slots, paging.child k j (((m.freeFrame C).store e 0).memory C j) = none := by
    intro k j hj
    rw [hmemory, Links.store_of_ne _ 0 fun heq => htable heq.1.symm]
    rcases hmem with hsame | hcleared
    · rw [hsame, hempty k j hj]
    · rw [hcleared, Function.update_self, child_zero]
  obtain ⟨tag', hsided, hother, howned⟩ := h.sided.cut hplace hchild
    (by rw [hmemory, Links.store_self, child_zero]) hempty hempty'
    fun T j hT hhere => by rw [hmemory, Links.store_of_ne _ 0 hhere, hwords T hT]
  refine ⟨tag', h.next hlayout hinv hcow hsided (fun f hf => ?_) (fun T hT => ?_), hother, fun T hT hTe => ?_⟩
  · rcases hfree f hf with ⟨hpool, rfl⟩ | hold
    · exact ⟨hroot, howned hpool⟩
    · obtain ⟨hfR, hftag⟩ := h.held f hold
      have hfC : f ≠ C := by
        rintro rfl
        exact htagged hftag
      exact ⟨hfR, (hother f hfC).trans hftag⟩
  · by_cases hTC : T = C
    · subst hTC
      exact h.named T htagged
    · exact h.named T (by rwa [← hother T hTC])
  · funext j
    rw [hmemory, Links.store_of_ne _ 0 fun heq => hTe heq.1, hwords T hT]

end Changes

end Cthulhu
