import Cthulhu.Memory.GetPage

/-!
# Use counts and references

The invariant that ties the frame pool to the page tables: the use count of every pool frame
is its number of references. Every function of the paging interface is made of the few
changes treated here: a fresh frame is linked, an entry is rewritten to lead to the same
place, a link is released together with its count, a link to an address outside the pool is
dropped or added, and a frame in use is shared.
-/

namespace Cthulhu

open Lib

/-- How uses compare with references: they are no fewer, and releasing a reference drops both. -/
class UseRule (rule : ℕ → ℕ → Prop) : Prop where
  le : ∀ {uses refs : ℕ}, rule uses refs → refs ≤ uses
  down : ∀ {uses refs : ℕ}, rule (uses + 1) (refs + 1) → rule uses refs

instance UseRule.exact : UseRule Eq := ⟨fun h => h.ge, fun h => Nat.succ.inj h⟩

instance UseRule.atLeast : UseRule GE.ge := ⟨fun h => h, fun h => Nat.le_of_succ_le_succ h⟩

/-- Use counts follow a rule, and every link leads to a pool frame or out of the pool. No frame of the pool is in the
first two megabytes, where `make_pool` keeps frames off the stacks. -/
structure CountedBy (rule : ℕ → ℕ → Prop) (roots : Finset ℕ) (m : Machine) : Prop where
  pool : PoolInv m.framePool
  nonempty : m.framePool ≠ []
  leveled : paging.Leveled m.memory roots
  counted : ∀ f, IsFrame m.framePool f → rule (usageCount m.framePool f) (references m.memory roots f)
  named : ∀ l < 4, ∀ T ∈ paging.tables m.memory roots l, ∀ i < 512, ∀ f,
    paging.child l i (m.memory T i) = some f → IsFrame m.framePool f ∨ Unmanaged m.framePool f
  high : ∀ f, IsFrame m.framePool f → 0x200000 ≤ f
  below : ∀ s ∈ m.framePool, s.endWord ≤ 2 ^ 62
  cow : CowFree m.framePool

/-- Use counts agree with references. -/
abbrev Counted (roots : Finset ℕ) (m : Machine) : Prop := CountedBy Eq roots m

/-- No frame has fewer uses than references. A frame whose entry has high bits is not found when the entry is cleared,
and keeps its use. -/
abbrev Covered (roots : Finset ℕ) (m : Machine) : Prop := CountedBy GE.ge roots m

section Layout

variable {rule : ℕ → ℕ → Prop} {roots : Finset ℕ} {m m' : Machine}

/-- Free frames have no references. -/
theorem CountedBy.growable [UseRule rule] (h : CountedBy rule roots m) : Growable roots m := by
  refine ⟨h.pool, h.nonempty, h.leveled, fun f hf => ?_⟩
  obtain ⟨hframe, -, hzero⟩ := (h.pool.mem_freeFrames f).mp hf
  have hle := UseRule.le (h.counted f hframe)
  rw [hzero] at hle
  exact Nat.le_zero.mp hle

/-- Counts that agree cover. -/
theorem CountedBy.covered (h : Counted roots m) : Covered roots m :=
  { h with counted := fun f hf => (h.counted f hf).ge }

/-- A frame is on a free stack exactly when it has no references. -/
theorem Counted.free_iff (h : Counted roots m) {f : ℕ} (hf : IsFrame m.framePool f) :
    f ∈ freeFrames m.framePool ↔ references m.memory roots f = 0 := by
  rw [h.pool.mem_freeFrames, h.counted f hf]
  exact ⟨fun hfree => hfree.2.2, fun hzero => ⟨hf, h.high f hf, hzero⟩⟩

/-- Addresses from `2 ^ 62` on are outside the pool. -/
theorem CountedBy.unmanaged_of_le (h : CountedBy rule roots m) {a : ℕ} (ha : 2 ^ 62 ≤ a) : Unmanaged m.framePool a := by
  intro s hs
  have hbelow := h.below s hs
  unfold SectionInfo.covers
  simp only [Bool.and_eq_false_iff, decide_eq_false_iff_not]
  omega

/-- Frames of a pool that ends below `2 ^ 62` are below it. -/
theorem PoolInv.frame_lt {pool : List SectionInfo} (h : PoolInv pool) (hbelow : ∀ s ∈ pool, s.endWord ≤ 2 ^ 62) {f : ℕ}
    (hf : IsFrame pool f) : f < 2 ^ 62 := by
  by_contra hge
  refine h.managed hf fun s hs => ?_
  have hend := hbelow s hs
  unfold SectionInfo.covers
  simp only [Bool.and_eq_false_iff, decide_eq_false_iff_not]
  omega

/-- Frames of the pool are below `2 ^ 62`. -/
theorem CountedBy.frame_lt (h : CountedBy rule roots m) {f : ℕ} (hf : IsFrame m.framePool f) : f < 2 ^ 62 :=
  h.pool.frame_lt h.below hf

/-- The invariant after a change that keeps the layout of the pool. -/
theorem CountedBy.next {roots' : Finset ℕ} (h : CountedBy rule roots m)
    (hlayout : m'.framePool.map SectionInfo.layout = m.framePool.map SectionInfo.layout)
    (hpool : PoolInv m'.framePool) (hcow : CowFree m'.framePool) (hlev : paging.Leveled m'.memory roots')
    (hcounted : ∀ f, IsFrame m.framePool f → rule (usageCount m'.framePool f) (references m'.memory roots' f))
    (hnamed : ∀ l < 4, ∀ T ∈ paging.tables m'.memory roots' l, ∀ i < 512, ∀ f,
      paging.child l i (m'.memory T i) = some f → IsFrame m.framePool f ∨ Unmanaged m.framePool f) :
    CountedBy rule roots' m' where
  pool := hpool
  nonempty := by
    intro hnil
    rw [hnil, List.map_nil, eq_comm, List.map_eq_nil_iff] at hlayout
    exact h.nonempty hlayout
  leveled := hlev
  counted := fun f hf => hcounted f ((isFrame_congr hlayout f).mp hf)
  named := fun l hl T hT i hi f hchild =>
    (hnamed l hl T hT i hi f hchild).imp (isFrame_congr hlayout f).mpr (unmanaged_congr hlayout f).mpr
  high := fun f hf => h.high f ((isFrame_congr hlayout f).mp hf)
  below := by
    have hends : ∀ e ∈ m'.framePool.map SectionInfo.layout, e.2.1 ≤ 2 ^ 62 := by
      rw [hlayout]
      exact List.forall_mem_map.mpr h.below
    exact List.forall_mem_map.mp hends
  cow := hcow

/-- A change of neither the pool nor the memory keeps the invariant. -/
theorem CountedBy.same (h : CountedBy rule roots m) (hpool : m'.framePool = m.framePool) (hmem : m'.memory = m.memory) :
    CountedBy rule roots m' := by
  refine h.next (by rw [hpool]) (by rw [hpool]; exact h.pool) (by rw [hpool]; exact h.cow)
    (by rw [hmem]; exact h.leveled) ?_ ?_
  · rw [hpool, hmem]
    exact h.counted
  · rw [hmem]
    exact h.named

end Layout

section Link

variable {rule : ℕ → ℕ → Prop} {roots : Finset ℕ} {m m' : Machine} {l : ℕ} {p : Slot} {w f : ℕ}

/-- Linking a fresh frame gives it its first use and its first reference. -/
theorem Counted.takeLink (h : Counted roots m) {filled : Memory} (hl : l < 4)
    (hT : p.table ∈ paging.tables m.memory roots l) (hi : p.index < 512)
    (hold : paging.child l p.index (m.load p) = none) (hw : paging.child l p.index w = some f)
    (hf : f = (getFreeFrame m.framePool).1) (hne : f ≠ 0) (hoff : ∀ n, n ≠ f → filled n = m.memory n)
    (hclear : l + 1 < 4 → ∀ j < 512, filled f j = 0)
    (hpool : m'.framePool = (getFreeFrame m.framePool).2)
    (hmem : m'.memory = Links.store filled p.table p.index w) : Counted roots m' := by
  have hgrowable := h.growable
  obtain ⟨hframe, -, hinv, hlayout, -, husage⟩ := h.pool.taken hf hne
  obtain ⟨hzero, hnot⟩ := hgrowable.fresh hf hne
  obtain ⟨hlev, htables, hrefs⟩ := hgrowable.link_effect hl hT hi hold hw hf hne hoff hclear
  refine h.next (by rw [hpool, hlayout]) (by rw [hpool]; exact hinv) (by rw [hpool]; exact h.cow.getFreeFrame)
    (by rw [hmem]; exact hlev) ?_ ?_
  · intro g hg
    rw [hpool, hmem, husage g hg, hrefs, h.counted g hg]
    split
    next heq => rw [heq, hzero]
    next => rfl
  · intro l' hl' T hT' i hi' g hchild
    rw [hmem] at hT' hchild
    by_cases hhere : T = p.table ∧ i = p.index
    · obtain ⟨rfl, rfl⟩ := hhere
      have hTl : p.table ∈ paging.tables (Links.store filled p.table p.index w) roots l := by
        rw [htables l hl, if_neg (by omega)]
        exact hT
      obtain rfl : l' = l := hlev l' hl' l hl _ hT' hTl
      rw [Links.store_self, hw] at hchild
      exact Or.inl (Option.some.inj hchild ▸ hframe)
    · rw [Links.store_of_ne filled w hhere] at hchild
      by_cases hTf : T = f
      · rw [htables l' hl'] at hT'
        by_cases hnext : l' = l + 1
        · rw [hTf, hclear (by omega) i hi', child_zero] at hchild
          exact absurd hchild (by simp)
        · rw [if_neg hnext] at hT'
          exact absurd ⟨l', hl', hTf ▸ hT'⟩ hnot
      · have hT'' : T ∈ paging.tables m.memory roots l' := by
          rw [htables l' hl'] at hT'
          split at hT'
          · exact (Finset.mem_insert.mp hT').resolve_left hTf
          · exact hT'
        rw [hoff T hTf] at hchild
        exact h.named l' hl' T hT'' i hi' g hchild

/-- Growth keeps the counts right. -/
theorem Counted.grow (h : Counted roots m) (hgrow : Grow roots m m') : Counted roots m' := by
  cases hgrow with
  | same hpool hmem => exact h.same hpool hmem
  | table l p w f hl hT hi hold hw hf hne hpool hmem =>
    exact h.takeLink (Nat.lt_succ_of_lt hl) hT hi hold hw hf hne (cleared_off m.memory f)
      (fun _ j _ => by rw [Function.update_self]) hpool hmem

/-- A whole walk keeps the counts right. -/
theorem Grown.counted (hgrown : Grown roots m m') (h : Counted roots m) : Counted roots m' :=
  (Grown.invariant (Counted roots) (fun _ _ _ hgrow hcounted => hcounted.grow hgrow) h.growable hgrown h).2

/-- Links read after one store, where the tables have only lost members. -/
theorem CountedBy.named_store (h : CountedBy rule roots m) (hl : l < 4) (hT : p.table ∈ paging.tables m.memory roots l)
    (hsub : ∀ l' < 4, paging.tables (Links.store m.memory p.table p.index w) roots l' ⊆
      paging.tables m.memory roots l')
    (hw : ∀ g, paging.child l p.index w = some g → IsFrame m.framePool g ∨ Unmanaged m.framePool g) :
    ∀ l' < 4, ∀ T ∈ paging.tables (Links.store m.memory p.table p.index w) roots l', ∀ i < 512, ∀ g,
      paging.child l' i (Links.store m.memory p.table p.index w T i) = some g →
        IsFrame m.framePool g ∨ Unmanaged m.framePool g := by
  intro l' hl' T hT' i hi g hchild
  by_cases hhere : T = p.table ∧ i = p.index
  · obtain ⟨rfl, rfl⟩ := hhere
    obtain rfl : l' = l := h.leveled l' hl' l hl _ (hsub l' hl' hT') hT
    rw [Links.store_self] at hchild
    exact hw g hchild
  · rw [Links.store_of_ne m.memory w hhere] at hchild
    exact h.named l' hl' T (hsub l' hl' hT') i hi g hchild

/-- Rewriting an entry to lead to the same place keeps the counts right. -/
theorem Counted.storeSame (h : Counted roots m) (hl : l < 4) (hT : p.table ∈ paging.tables m.memory roots l)
    (hi : p.index < 512) (hw : paging.child l p.index w = paging.child l p.index (m.load p)) :
    Counted roots (m.store p w) := by
  obtain ⟨htables, hrefs⟩ := store_same h.leveled hl hT hw
  have hsub (l' : ℕ) (hl' : l' < 4) : paging.tables (Links.store m.memory p.table p.index w) roots l' ⊆
      paging.tables m.memory roots l' := by rw [htables l' (by omega)]
  refine h.next rfl h.pool h.cow (h.leveled.mono hsub) (fun f hf => ?_) ?_
  · exact (h.counted f hf).trans (hrefs f).symm
  · refine h.named_store hl hT hsub fun g hg => ?_
    rw [hw] at hg
    exact h.named l hl p.table hT p.index hi g hg

/-- Dropping a leaf link that leads out of the pool keeps the counts right. -/
theorem CountedBy.dropUnmanaged (h : CountedBy rule roots m) (hT : p.table ∈ paging.tables m.memory roots 3)
    (hi : p.index < 512) (hw : paging.child 3 p.index w = none)
    (hold : ∀ g, paging.child 3 p.index (m.load p) = some g → Unmanaged m.framePool g) :
    CountedBy rule roots (m.store p w) := by
  obtain ⟨hlev, hsub, hrefs⟩ := store_unlink h.leveled (by decide) hT hi hw
    fun hdepth => absurd hdepth (by decide)
  refine h.next rfl h.pool h.cow hlev (fun f hf => ?_) ?_
  · have hother : ¬ paging.child 3 p.index (m.memory p.table p.index) = some f :=
      fun heq => h.pool.managed hf (hold f heq)
    have hsame := hrefs f
    rw [if_neg hother, Nat.add_zero] at hsame
    rw [show (m.store p w).memory = Links.store m.memory p.table p.index w from rfl, hsame]
    exact h.counted f hf
  · exact h.named_store (by decide) hT hsub fun g hg => by rw [hw] at hg; exact absurd hg (by simp)

/-- Links read after a leaf link was added. -/
theorem CountedBy.named_leaf (h : CountedBy rule roots m) (hT : p.table ∈ paging.tables m.memory roots 3)
    (hi : p.index < 512) (hold : paging.child 3 p.index (m.load p) = none)
    (hw : paging.child 3 p.index w = some f) (hf : IsFrame m.framePool f ∨ Unmanaged m.framePool f) :
    ∀ l' < 4, ∀ T ∈ paging.tables (Links.store m.memory p.table p.index w) roots l', ∀ i < 512, ∀ g,
      paging.child l' i (Links.store m.memory p.table p.index w T i) = some g →
        IsFrame m.framePool g ∨ Unmanaged m.framePool g := by
  obtain ⟨-, htables, -⟩ := store_link h.leveled (by decide) hT hi hold hw fun hdepth => absurd hdepth (by decide)
  refine h.named_store (by decide) hT (fun l' hl' => ?_) fun g hg => ?_
  · rw [htables l' hl', if_neg (by omega)]
  · rw [hw] at hg
    exact Option.some.inj hg ▸ hf

/-- Adding a leaf link that leads out of the pool keeps the counts right. -/
theorem Counted.linkUnmanaged (h : Counted roots m) (hT : p.table ∈ paging.tables m.memory roots 3)
    (hi : p.index < 512) (hold : paging.child 3 p.index (m.load p) = none)
    (hw : paging.child 3 p.index w = some f) (hf : Unmanaged m.framePool f) : Counted roots (m.store p w) := by
  obtain ⟨hlev, -, hrefs⟩ := store_link h.leveled (by decide) hT hi hold hw fun hdepth => absurd hdepth (by decide)
  refine h.next rfl h.pool h.cow hlev (fun g hg => ?_) (h.named_leaf hT hi hold hw (Or.inr hf))
  refine (h.counted g hg).trans (Eq.trans ?_ (hrefs g).symm)
  rw [if_neg fun heq : g = f => h.pool.managed hg (heq ▸ hf), Nat.add_zero]

/-- Adding a leaf link to a frame in use, with its count raised, keeps the counts right. -/
theorem Counted.shareLink (h : Counted roots m) (hT : p.table ∈ paging.tables m.memory roots 3)
    (hi : p.index < 512) (hold : paging.child 3 p.index (m.load p) = none)
    (hw : paging.child 3 p.index w = some f) (hf : IsFrame m.framePool f)
    (hused : 1 ≤ usageCount m.framePool f) (hroom : usageCount m.framePool f + 1 < 2 ^ 32)
    (hpool : m'.framePool = incrementUsage m.framePool f)
    (hmem : m'.memory = Links.store m.memory p.table p.index w) : Counted roots m' := by
  obtain ⟨hlev, -, hrefs⟩ := store_link h.leveled (by decide) hT hi hold hw fun hdepth => absurd hdepth (by decide)
  obtain ⟨hinv, hlayout, husage, -⟩ := h.pool.incrementUsage hf hused hroom
  refine h.next (by rw [hpool, hlayout]) (by rw [hpool]; exact hinv) (by rw [hpool]; exact h.cow.incrementUsage f)
    (by rw [hmem]; exact hlev) (fun g hg => ?_) (by rw [hmem]; exact h.named_leaf hT hi hold hw (Or.inl hf))
  rw [hpool, hmem, husage g hg, hrefs, ← h.counted g hg]
  split
  next heq => rw [heq]
  next => rfl

end Link

end Cthulhu
