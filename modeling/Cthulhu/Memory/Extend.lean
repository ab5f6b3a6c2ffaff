import Cthulhu.Memory.FrameNeed

/-!
# What allocating leaves behind

The state of the tables while `allocate` goes through its pages, compared with the state it
started from. Every table and every entry above the leaves is still there, the pages gone through
are mapped, and every new table holds an entry, with at most one exception: the table obtained
last, whose first entry is still to be written.
-/

namespace Cthulhu

open Lib

/-- Above the leaves an entry is zero or present. -/
def UpperClean (roots : Finset ℕ) (m : Machine) : Prop :=
  ∀ l < 3, ∀ T ∈ paging.tables m.memory roots l, ∀ i < 512, present (m.memory T i) = false → m.memory T i = 0

/-- The page tables form trees: roots are page-aligned, every table is linked once, use counts agree
with the links, and above the leaves there is nothing but links. -/
structure PageTree (roots : Finset ℕ) (m : Machine) : Prop where
  aligned : ∀ R ∈ roots, R % 0x1000 = 0
  counted : Counted roots m
  one : OneReference roots m
  clean : UpperClean roots m

/-- The tables of `a` are those of `m` after the pages were mapped; `pending` is the new table that is
still empty. -/
structure Extended (roots : Finset ℕ) (cr3 : ℕ) (pages : List ℕ) (pending : Option ℕ) (m a : Machine) : Prop where
  tree : PageTree roots a
  layout : a.framePool.map SectionInfo.layout = m.framePool.map SectionInfo.layout
  sup : ∀ l < 4, paging.tables m.memory roots l ⊆ paging.tables a.memory roots l
  words : ∀ l < 3, ∀ T ∈ paging.tables m.memory roots l, ∀ i < 512, m.memory T i ≠ 0 →
    a.memory T i = m.memory T i
  mirror : ∀ R ∈ roots, a.memory R 510 = m.memory R 510
  outside : ∀ root, align root ∈ roots → ∀ va, (align root = align cr3 → ∀ p ∈ pages, ¬ SamePage va p) →
    leafEntry a.memory root va = leafEntry m.memory root va
  mapped : ∀ p ∈ pages, present (leafEntry a.memory cr3 p) = true ∧
    (leafEntry m.memory cr3 p = 0 → leafEntry a.memory cr3 p < 2 ^ 62)
  filled : ∀ l < 3, ∀ T ∈ paging.tables a.memory roots (l + 1), T ∉ paging.tables m.memory roots (l + 1) →
    pending ≠ some T → ∃ i < 512, a.memory T i ≠ 0
  empty : ∀ T, pending = some T → (∃ l < 3, T ∈ paging.tables a.memory roots (l + 1) ∧
    T ∉ paging.tables m.memory roots (l + 1)) ∧ ∀ i < 512, a.memory T i = 0

section Basics

variable {roots : Finset ℕ} {cr3 : ℕ} {pages : List ℕ} {pending : Option ℕ} {m a b : Machine}

/-- The same memory and pool hold the same trees. -/
theorem PageTree.same (h : PageTree roots a) (hpool : b.framePool = a.framePool) (hmem : b.memory = a.memory) :
    PageTree roots b := by
  obtain ⟨haligned, hcounted, ⟨hinv, htables, hfree⟩, hclean⟩ := h
  unfold UpperClean at hclean
  rw [← hmem] at htables hfree hclean
  rw [← hpool] at hinv hfree
  exact ⟨haligned, hcounted.same hpool hmem, ⟨hinv, htables, hfree⟩, hclean⟩

/-- The state to start from. -/
theorem Extended.refl (h : PageTree roots m) : Extended roots cr3 [] none m m where
  tree := h
  layout := rfl
  sup := fun _ _ => Finset.Subset.refl _
  words := fun _ _ _ _ _ _ _ => rfl
  mirror := fun _ _ => rfl
  outside := fun _ _ _ _ => rfl
  mapped := fun _ hp => absurd hp (by simp)
  filled := fun _ _ _ hT hnew => absurd hT hnew
  empty := fun _ hpending => absurd hpending (by simp)

/-- A change of neither the pool nor the memory changes nothing. -/
theorem Extended.same (h : Extended roots cr3 pages pending m a) (hpool : b.framePool = a.framePool)
    (hmem : b.memory = a.memory) : Extended roots cr3 pages pending m b := by
  have htree := h.tree.same hpool hmem
  obtain ⟨-, hlayout, hsup, hwords, hmirror, houtside, hmapped, hfilled, hempty⟩ := h
  rw [← hmem] at hsup hwords hmirror houtside hmapped hfilled hempty
  rw [← hpool] at hlayout
  exact ⟨htree, hlayout, hsup, hwords, hmirror, houtside, hmapped, hfilled, hempty⟩

/-- Every link is still there. -/
theorem Extended.child_eq (h : Extended roots cr3 pages pending m a) {l T i C : ℕ} (hl : l < 3)
    (hT : T ∈ paging.tables m.memory roots l) (hi : i ∈ paging.slots)
    (hchild : paging.child l i (m.memory T i) = some C) : paging.child l i (a.memory T i) = some C := by
  rw [h.words l hl T hT i (Finset.mem_range.mp hi) fun hzero => ?_]
  · exact hchild
  · rw [hzero, child_zero] at hchild
    exact absurd hchild (by simp)

/-- Every walk is still there. -/
theorem Extended.walk_eq (h : Extended roots cr3 pages pending m a) {R D : ℕ} {path : List ℕ} (hR : R ∈ roots)
    (hpath : ∀ i ∈ path, i ∈ paging.slots) (hlen : path.length ≤ 3)
    (hwalk : paging.walk m.memory 0 R path = some D) : paging.walk a.memory 0 R path = some D :=
  Links.walk_mono (show R ∈ paging.tables m.memory roots 0 from hR) hpath
    (fun l hl _ hT _ hi _ hchild => h.child_eq (by omega) hT hi hchild) hwalk

/-- An entry that leads nowhere is zero, outside the mirror slot. -/
theorem UpperClean.load_eq (h : UpperClean roots m) {l T i : ℕ} (hl : l < 3) (hT : T ∈ paging.tables m.memory roots l)
    (hi : i < 512) (hmirror : ¬ (l = 0 ∧ i = 510)) (hchild : paging.child l i (m.memory T i) = none) :
    m.memory T i = 0 := by
  refine h l hl T hT i hi ?_
  by_contra hpresent
  rw [child_upper hl hmirror (by simpa using hpresent)] at hchild
  exact absurd hchild (by simp)

/-- An entry above the leaves that is not zero is present. -/
theorem UpperClean.present (h : UpperClean roots m) {l T i : ℕ} (hl : l < 3) (hT : T ∈ paging.tables m.memory roots l)
    (hi : i < 512) (hne : m.memory T i ≠ 0) : present (m.memory T i) = true := by
  by_contra habsent
  exact hne (h l hl T hT i hi (by simpa using habsent))

/-- A word that leads to a table is not zero, and lies outside the mirror slot. -/
theorem ne_zero_of_child {l i w f : ℕ} (h : paging.child l i w = some f) : w ≠ 0 ∧ ¬ (l = 0 ∧ i = 510) := by
  constructor
  · rintro rfl
    rw [child_zero] at h
    exact absurd h (by simp)
  · intro hmirror
    unfold paging at h
    simp [hmirror] at h

end Basics

section Link

variable {roots : Finset ℕ} {cr3 : ℕ} {pages : List ℕ} {pending : Option ℕ} {m a b : Machine} {l : ℕ} {p : Slot} {w f : ℕ}

/-- Words of a table after a frame was linked: the entry is written, the frame is cleared, and every
other word is as it was. -/
theorem linked_word {mem mem' : Memory} (hmem : mem' = Links.store (Function.update mem f fun _ => 0) p.table p.index w)
    {T i : ℕ} (hT : T ≠ f) : mem' T i = if T = p.table ∧ i = p.index then w else mem T i := by
  rw [hmem]
  split
  next hhere => rw [hhere.1, hhere.2, Links.store_self]
  next hhere => rw [Links.store_of_ne _ w hhere, Function.update_of_ne hT]

/-- Linking a cleared table keeps the trees. -/
theorem PageTree.grow (h : PageTree roots a) (hgrow : Grow roots a b) : PageTree roots b := by
  refine ⟨h.aligned, h.counted.grow hgrow, h.one.grow h.counted.growable hgrow, ?_⟩
  cases hgrow with
  | same hpool hmem =>
    unfold UpperClean
    rw [hmem]
    exact h.clean
  | table l p w f hl hT hi hold hw hf hne hpool hmem =>
    obtain ⟨-, htables, -⟩ := h.counted.growable.table_effect hl hT hi hold hw hf hne
    have hnot := (h.counted.growable.fresh hf hne).2
    have htable : p.table ≠ f := fun heq => hnot ⟨l, Nat.lt_succ_of_lt hl, heq ▸ hT⟩
    intro l' hl' T hT' i hi' habsent
    by_cases hTf : T = f
    · rw [hmem, Links.store_of_ne _ w fun hhere => htable (hhere.1.symm.trans hTf), hTf, Function.update_self]
    · rw [linked_word hmem hTf] at habsent ⊢
      split at habsent
      next =>
        rw [(present_align_of_child hl hw).1] at habsent
        exact absurd habsent (by decide)
      next hhere =>
        rw [if_neg hhere]
        refine h.clean l' hl' T ?_ i hi' habsent
        rw [hmem, htables l' (by omega)] at hT'
        split at hT'
        · exact (Finset.mem_insert.mp hT').resolve_left hTf
        · exact hT'

/-- Linking a cleared table from the pending one, or from a table that was there. -/
theorem Extended.link (h : Extended roots cr3 pages pending m a) (hcr3 : align cr3 ∈ roots) (hl : l < 3)
    (hT : p.table ∈ paging.tables a.memory roots l) (hi : p.index < 512)
    (hold : paging.child l p.index (a.load p) = none) (hw : paging.child l p.index w = some f)
    (hf : f = (getFreeFrame a.framePool).1) (hne : f ≠ 0) (hpool : b.framePool = (getFreeFrame a.framePool).2)
    (hmem : b.memory = Links.store (Function.update a.memory f fun _ => 0) p.table p.index w)
    (hgrow : Grow roots a b) (hpending : ∀ T, pending = some T → T = p.table) :
    Extended roots cr3 pages (some f) m b := by
  have hgrowable := h.tree.counted.growable
  obtain ⟨-, htables, -⟩ := hgrowable.table_effect hl hT hi hold hw hf hne
  rw [← hmem] at htables
  have hnot := (hgrowable.fresh hf hne).2
  have htable : p.table ≠ f := fun heq => hnot ⟨l, Nat.lt_succ_of_lt hl, heq ▸ hT⟩
  have hcleared (i : ℕ) : b.memory f i = 0 := by
    rw [hmem, Links.store_of_ne _ w fun hhere => htable hhere.1.symm, Function.update_self]
  obtain ⟨hwne, hmirror⟩ := ne_zero_of_child hw
  obtain ⟨-, -, -, hlayout, -, -⟩ := h.tree.counted.pool.taken hf hne
  have hzero : a.memory p.table p.index = 0 := h.tree.clean.load_eq hl hT hi hmirror hold
  have hleaf {root : ℕ} (hroot : align root ∈ roots) (va : ℕ) := hgrowable.leafEntry_grow hgrow hroot va
  have hold' {k T : ℕ} (hk : k < 4) (hT' : T ∈ paging.tables m.memory roots k) : T ≠ f :=
    fun heq => hnot ⟨k, hk, heq ▸ h.sup k hk hT'⟩
  refine ⟨h.tree.grow hgrow, by rw [hpool, hlayout, h.layout], fun k hk => (h.sup k hk).trans
    (hgrowable.tables_grow hgrow hk), fun k hk T hT' i hi' hne' => ?_, fun R hR => ?_, fun root hroot va hva => ?_,
    fun page hpage => ?_, fun k hk T hT' hnew hnotf => ?_, fun T hTf => ?_⟩
  · have hsame := h.words k hk T hT' i hi' hne'
    rw [linked_word hmem (hold' (by omega) hT'), if_neg, hsame]
    rintro ⟨rfl, rfl⟩
    exact hne' (hsame.symm.trans hzero)
  · rw [linked_word hmem (hold' (k := 0) (by decide) hR), if_neg, h.mirror R hR]
    rintro ⟨rfl, hindex⟩
    exact hmirror ⟨h.tree.counted.leveled l (Nat.lt_succ_of_lt hl) 0 (by decide) _ hT hR, hindex.symm⟩
  · rw [hleaf hroot va, h.outside root hroot va hva]
  · rw [hleaf hcr3 page]
    exact h.mapped page hpage
  · have hTf : T ≠ f := fun heq => hnotf (heq ▸ rfl)
    by_cases hhere : T = p.table
    · refine ⟨p.index, hi, ?_⟩
      rw [linked_word hmem hTf, if_pos ⟨hhere, rfl⟩]
      exact hwne
    · have hTa : T ∈ paging.tables a.memory roots (k + 1) := by
        rw [htables (k + 1) (by omega)] at hT'
        split at hT'
        · exact (Finset.mem_insert.mp hT').resolve_left hTf
        · exact hT'
      obtain ⟨i, hi', hne'⟩ := h.filled k hk T hTa hnew fun heq => hhere (hpending T heq)
      refine ⟨i, hi', ?_⟩
      rw [linked_word hmem hTf, if_neg fun hboth => hhere hboth.1]
      exact hne'
  · obtain rfl := Option.some.inj hTf
    refine ⟨⟨l, hl, ?_, fun hT' => hold' (k := l + 1) (by omega) hT' rfl⟩, fun i _ => hcleared i⟩
    rw [htables (l + 1) (by omega), if_pos rfl]
    exact Finset.mem_insert_self _ _

end Link

section Map

variable {roots : Finset ℕ} {cr3 : ℕ} {pages : List ℕ} {pending : Option ℕ} {m a b : Machine}

/-- Mapping a page through the pending table, or through a table that was there. -/
theorem Extended.map (h : Extended roots cr3 pages pending m a) (hcr3 : align cr3 ∈ roots) {va pt w : ℕ}
    (hwalk : paging.walk a.memory 0 (align cr3) (indices va) = some pt) {filled : Memory}
    (hagree : ∀ l < 4, ∀ T ∈ paging.tables a.memory roots l, filled T = a.memory T)
    (hmem : b.memory = Links.store filled pt (tableIndex va) w)
    (hlayout : b.framePool.map SectionInfo.layout = a.framePool.map SectionInfo.layout)
    (hcounted : Counted roots b) (hone : OneReference roots b) (hpresent : present w = true)
    (hlow : leafEntry m.memory cr3 va = 0 → w < 2 ^ 62) (hpending : ∀ T, pending = some T → T = pt) :
    Extended roots cr3 (pages ++ [va]) none m b := by
  have hgrowable := h.tree.counted.growable
  have hslot := leafSlot_of_walk hcr3 hwalk
  obtain ⟨htables, hwords⟩ := hgrowable.tables_leafStore hslot hagree w
  have hentry {root : ℕ} (hroot : align root ∈ roots) (page : ℕ) :=
    hgrowable.leafEntry_store hslot hagree w hroot page
  have hplace {root : ℕ} (hroot : align root ∈ roots) (page : ℕ) := h.tree.one.slot_iff hcr3 hroot hwalk page
  dsimp only at htables hwords hentry
  rw [← hmem] at htables hwords hentry
  have hclean : UpperClean roots b := by
    intro l hl T hT i hi habsent
    rw [htables l (by omega)] at hT
    rw [hwords l hl T hT] at habsent ⊢
    exact h.tree.clean l hl T hT i hi habsent
  have hhere {page : ℕ} (hpage : SamePage page va) : leafEntry b.memory cr3 page = w := by
    rw [hentry hcr3, if_pos ((hplace hcr3 page).mpr ⟨rfl, hpage⟩)]
  have hother {root page : ℕ} (hroot : align root ∈ roots) (hpage : ¬ (align root = align cr3 ∧ SamePage page va)) :
      leafEntry b.memory root page = leafEntry a.memory root page := by
    rw [hentry hroot, if_neg fun hboth => hpage ((hplace hroot page).mp hboth)]
  refine ⟨⟨h.tree.aligned, hcounted, hone, hclean⟩, hlayout.trans h.layout, fun l hl => ?_, fun l hl T hT i hi hne => ?_,
    fun R hR => ?_, fun root hroot page hpage => ?_, fun page hpage => ?_, fun l hl T hT hnew _ => ?_,
    fun T hT => absurd hT (by simp)⟩
  · rw [htables l hl]
    exact h.sup l hl
  · rw [hwords l hl T (h.sup l (by omega) hT)]
    exact h.words l hl T hT i hi hne
  · rw [hwords 0 (by decide) R hR, h.mirror R hR]
  · rw [hother hroot fun hboth => hpage hboth.1 va (by simp) hboth.2]
    exact h.outside root hroot page fun hroot' p hp => hpage hroot' p (List.mem_append_left _ hp)
  · by_cases hsame : SamePage page va
    · rw [hhere hsame, hsame.leafEntry_eq m.memory cr3]
      exact ⟨hpresent, hlow⟩
    · rw [hother hcr3 fun hboth => hsame hboth.2]
      rcases List.mem_append.mp hpage with hpage | hpage
      · exact h.mapped page hpage
      · obtain rfl := List.mem_singleton.mp hpage
        exact absurd rfl hsame
  · rw [htables (l + 1) (by omega)] at hT
    by_cases hTpt : T = pt
    · refine ⟨tableIndex va, tableIndex_lt va, ?_⟩
      rw [hTpt, hmem, Links.store_self]
      rintro rfl
      exact absurd hpresent (by decide)
    · obtain ⟨i, hi, hne⟩ := h.filled l hl T hT hnew fun heq => hTpt (hpending T heq)
      refine ⟨i, hi, ?_⟩
      rw [hmem, Links.store_of_ne filled w fun hboth => hTpt hboth.1, hagree (l + 1) (by omega) T hT]
      exact hne

end Map

end Cthulhu
