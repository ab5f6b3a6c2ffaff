import Cthulhu.Memory.CountedLoops

/-!
# What unmapping leaves behind

The state of the tables while `deallocate` goes through its pages, compared with the state it
started from. Every entry is as it was or was cleared on purpose. A table is gone only when all
its entries were cleared, and a table that had an entry and is still there has one left, with at
most one exception: the table whose entry was cleared last, which `free_page_structure` is about
to look at.
-/

namespace Cthulhu

open Lib

/-- The entry was cleared on purpose: it was present, and its page is one of those given back, or
the table it led to is gone. -/
def Wiped (roots : Finset ℕ) (cr3 : ℕ) (pages : ℕ → Prop) (m m' : Machine) (l T i : ℕ) : Prop :=
  present (m.memory T i) = true ∧
    if l = 3 then ∃ va, pages va ∧ paging.walk m.memory 0 (align cr3) (indices va) = some T ∧ tableIndex va = i
    else ¬ paging.IsTable m'.memory roots (align (m.memory T i))

/-- The table had entries and all of them were cleared on purpose. -/
def Emptied (roots : Finset ℕ) (cr3 : ℕ) (pages : ℕ → Prop) (m m' : Machine) (l T : ℕ) : Prop :=
  (∃ i < 512, m.memory T i ≠ 0) ∧ ∀ i < 512, m.memory T i ≠ 0 → Wiped roots cr3 pages m m' l T i

/-- The tables of `m'` are those of `m` after the pages were given back; `pending` is the table that
may be empty without having been dropped yet. -/
structure Pruned (roots : Finset ℕ) (cr3 : ℕ) (pages : ℕ → Prop) (pending : Option ℕ) (m m' : Machine) : Prop where
  counted : Counted roots m'
  layout : m'.framePool.map SectionInfo.layout = m.framePool.map SectionInfo.layout
  sub : ∀ l < 4, paging.tables m'.memory roots l ⊆ paging.tables m.memory roots l
  fewer : ∀ n, references m'.memory roots n ≤ references m.memory roots n
  words : ∀ l < 4, ∀ T ∈ paging.tables m'.memory roots l, ∀ i < 512,
    m'.memory T i = m.memory T i ∨ m'.memory T i = 0 ∧ Wiped roots cr3 pages m m' l T i
  cleared : ∀ va, pages va → present (leafEntry m'.memory cr3 va) = false
  dropped : ∀ l < 4, ∀ T ∈ paging.tables m.memory roots l, T ∉ paging.tables m'.memory roots l →
    Emptied roots cr3 pages m m' l T ∧ references m'.memory roots T = 0
  kept : ∀ l < 3, ∀ T ∈ paging.tables m'.memory roots (l + 1), pending ≠ some T →
    (∃ i < 512, m.memory T i ≠ 0) → ∃ i < 512, m'.memory T i ≠ 0
  touched : ∀ T, pending = some T → ∃ i < 512, m.memory T i ≠ 0

section Basics

variable {roots : Finset ℕ} {cr3 : ℕ} {pages : ℕ → Prop} {pending : Option ℕ} {m m' m'' : Machine}

/-- A present entry is not zero. -/
theorem ne_zero_of_present {w : ℕ} (h : present w = true) : w ≠ 0 := by
  rintro rfl
  exact absurd h (by decide)

/-- What was cleared stays cleared when more pages are given back and more tables go. -/
theorem Wiped.mono {pages' : ℕ → Prop} {l T i : ℕ} (h : Wiped roots cr3 pages m m' l T i)
    (hpages : ∀ va, pages va → pages' va)
    (hsub : ∀ l < 4, paging.tables m''.memory roots l ⊆ paging.tables m'.memory roots l) :
    Wiped roots cr3 pages' m m'' l T i := by
  obtain ⟨hpresent, hwiped⟩ := h
  refine ⟨hpresent, ?_⟩
  split at hwiped
  next hl =>
    rw [if_pos hl]
    obtain ⟨va, hva, hwalk⟩ := hwiped
    exact ⟨va, hpages va hva, hwalk⟩
  next hl =>
    rw [if_neg hl]
    rintro ⟨k, hk, hmem⟩
    exact hwiped ⟨k, hk, hsub k hk hmem⟩

/-- An entry that is not zero was not touched. -/
theorem Pruned.word_eq (h : Pruned roots cr3 pages pending m m') {l T i : ℕ} (hl : l < 4)
    (hT : T ∈ paging.tables m'.memory roots l) (hi : i < 512) (hne : m'.memory T i ≠ 0) :
    m'.memory T i = m.memory T i :=
  (h.words l hl T hT i hi).resolve_right fun hzero => hne hzero.1

/-- Every link was there before. -/
theorem Pruned.child_eq (h : Pruned roots cr3 pages pending m m') {l T i C : ℕ} (hl : l < 4)
    (hT : T ∈ paging.tables m'.memory roots l) (hi : i ∈ paging.slots)
    (hchild : paging.child l i (m'.memory T i) = some C) : paging.child l i (m.memory T i) = some C := by
  rw [← h.word_eq hl hT (Finset.mem_range.mp hi) fun hzero => ?_]
  · exact hchild
  · rw [hzero, child_zero] at hchild
    exact absurd hchild (by simp)

/-- Every walk was there before. -/
theorem Pruned.walk_eq (h : Pruned roots cr3 pages pending m m') {root va pt : ℕ} (hroot : align root ∈ roots)
    (hwalk : paging.walk m'.memory 0 (align root) (indices va) = some pt) :
    paging.walk m.memory 0 (align root) (indices va) = some pt := by
  refine Links.walk_mono (show align root ∈ paging.tables m'.memory roots 0 from hroot) (indices_mem va)
    (fun l hl T hT i hi C hchild => ?_) hwalk
  have hl3 : l < 3 := by simpa [indices] using hl
  exact h.child_eq (by omega) hT hi hchild

/-- The state to start from. -/
theorem Pruned.refl (h : Counted roots m) : Pruned roots cr3 (fun _ => False) none m m where
  counted := h
  layout := rfl
  sub := fun _ _ => Finset.Subset.refl _
  fewer := fun _ => Nat.le_refl _
  words := fun _ _ _ _ _ _ => Or.inl rfl
  cleared := fun _ hva => hva.elim
  dropped := fun _ _ _ hT hgone => absurd hT hgone
  kept := fun _ _ _ _ _ hex => hex
  touched := fun _ hpending => absurd hpending (by simp)

/-- A change of neither the pool nor the memory changes nothing. -/
theorem Pruned.same (h : Pruned roots cr3 pages pending m m') (hpool : m''.framePool = m'.framePool)
    (hmem : m''.memory = m'.memory) : Pruned roots cr3 pages pending m m'' := by
  have hcounted := h.counted.same hpool hmem
  obtain ⟨-, hlayout, hsub, hrefs, hwords, hcleared, hdropped, hkept, htouched⟩ := h
  unfold Emptied Wiped at *
  rw [← hmem] at hsub hrefs hwords hcleared hdropped hkept
  rw [← hpool] at hlayout
  exact ⟨hcounted, hlayout, hsub, hrefs, hwords, hcleared, hdropped, hkept, htouched⟩

/-- Giving back more pages, none of which is mapped. -/
theorem Pruned.widen {pages' : ℕ → Prop} (h : Pruned roots cr3 pages pending m m')
    (hpages : ∀ va, pages va → pages' va)
    (habsent : ∀ va, pages' va → present (leafEntry m'.memory cr3 va) = false) :
    Pruned roots cr3 pages' pending m m' := by
  have hmono {l T i : ℕ} (hwiped : Wiped roots cr3 pages m m' l T i) : Wiped roots cr3 pages' m m' l T i :=
    hwiped.mono hpages fun _ _ => Finset.Subset.refl _
  refine ⟨h.counted, h.layout, h.sub, h.fewer, fun l hl T hT i hi => ?_, habsent, fun l hl T hT hgone => ?_, h.kept,
    h.touched⟩
  · exact (h.words l hl T hT i hi).imp_right (And.imp_right hmono)
  · obtain ⟨⟨hex, hall⟩, hzero⟩ := h.dropped l hl T hT hgone
    exact ⟨⟨hex, fun i hi hne => hmono (hall i hi hne)⟩, hzero⟩

end Basics

section Cuts

variable {roots : Finset ℕ} {cr3 : ℕ} {pages : ℕ → Prop} {m m' m'' : Machine} {l f : ℕ} {e : Slot}

/-- A cut changes the entry seen at an address only to zero. -/
theorem Cut.leafEntry (hcut : Cut roots l e f m' m'') {root : ℕ} (hroot : align root ∈ roots) (va : ℕ) :
    leafEntry m''.memory root va = Cthulhu.leafEntry m'.memory root va ∨
      Cthulhu.leafEntry m''.memory root va = 0 := by
  unfold Cthulhu.leafEntry
  cases hwalk : paging.walk m''.memory 0 (align root) (indices va) with
  | none => exact Or.inr rfl
  | some pt =>
    have hmem : align root ∈ paging.tables m''.memory roots 0 := hroot
    have hzero : m''.memory e.table e.index = 0 := hcut.cleared
    have hword {k T i : ℕ} (hk : k < 4) (hT : T ∈ paging.tables m''.memory roots k) :
        m''.memory T i = m'.memory T i ∨ m''.memory T i = 0 := by
      by_cases hhere : T = e.table ∧ i = e.index
      · exact Or.inr (by rw [hhere.1, hhere.2, hzero])
      · exact Or.inl (hcut.words k hk T hT i hhere)
    have hbefore := Links.walk_mono (M := m'.memory) hmem (indices_mem va) (fun k hk T hT i hi C hchild => by
      have hk3 : k < 3 := by simpa [indices] using hk
      rcases hword (by omega) hT with hsame | hnone
      · rwa [hsame] at hchild
      · rw [hnone, child_zero] at hchild
        exact absurd hchild (by simp)) hwalk
    rw [hbefore]
    exact hword (show 3 < 4 by decide) (Links.walk_mem hmem (indices_mem va) hwalk)

/-- A cut on purpose keeps the comparison; the table it was made in is looked at next.

The cut table, if any, has to be the pending one, and empty. -/
theorem Pruned.cut {pages' : ℕ → Prop} {pending : Option ℕ} (h : Pruned roots cr3 pages pending m m')
    (hcut : Cut roots l e f m' m'') (hcounted : Counted roots m'') (hl : l < 4)
    (hT : e.table ∈ paging.tables m'.memory roots l) (hi : e.index < 512) (hne : m'.load e ≠ 0)
    (hpages : ∀ va, pages va → pages' va)
    (hcleared : ∀ va, pages' va → present (leafEntry m''.memory cr3 va) = false)
    (hwiped : Wiped roots cr3 pages' m m'' l e.table e.index)
    (hpending : ∀ T, pending = some T → ¬ paging.IsTable m''.memory roots T)
    (hgone : l + 1 < 4 → f ∈ paging.tables m'.memory roots (l + 1) → f ∉ paging.tables m''.memory roots (l + 1) →
      pending = some f ∧ (∀ i < 512, m'.memory f i = 0) ∧ references m''.memory roots f = 0) :
    Pruned roots cr3 pages' (some e.table) m m'' := by
  have hmono {k T i : ℕ} (hw : Wiped roots cr3 pages m m' k T i) : Wiped roots cr3 pages' m m'' k T i :=
    hw.mono hpages hcut.sub
  have hle (n : ℕ) : references m''.memory roots n ≤ references m'.memory roots n := by
    rw [← hcut.references n]
    exact Nat.le_add_right _ _
  have hword : m.memory e.table e.index = m'.memory e.table e.index := (h.word_eq hl hT hi hne).symm
  refine ⟨hcounted, hcut.layout.trans h.layout, fun k hk => (hcut.sub k hk).trans (h.sub k hk),
    fun n => (hle n).trans (h.fewer n), fun k hk T hT' i hi' => ?_, hcleared, fun k hk T hT' hgone' => ?_,
    fun k hk T hT' hnot hex => ?_, fun T hT' => ?_⟩
  · by_cases hhere : T = e.table ∧ i = e.index
    · obtain ⟨rfl, rfl⟩ := hhere
      obtain rfl : k = l := h.counted.leveled k hk l hl _ (hcut.sub k hk hT') hT
      exact Or.inr ⟨hcut.cleared, hwiped⟩
    · rw [hcut.words k hk T hT' i hhere]
      exact (h.words k hk T (hcut.sub k hk hT') i hi').imp_right (And.imp_right hmono)
  · by_cases hbefore : T ∈ paging.tables m'.memory roots k
    · obtain ⟨rfl, rfl⟩ := (hcut.keep k hk T hbefore).resolve_left hgone'
      obtain ⟨hpend, hempty, hzero⟩ := hgone hk hbefore hgone'
      refine ⟨⟨h.touched T hpend, fun i hi' hne' => ?_⟩, hzero⟩
      refine hmono ((h.words _ hk T hbefore i hi').resolve_left fun heq => hne' ?_).2
      rw [← heq, hempty i hi']
    · obtain ⟨⟨hex, hall⟩, hzero⟩ := h.dropped k hk T hT' hbefore
      exact ⟨⟨hex, fun i hi' hne' => hmono (hall i hi' hne')⟩, Nat.le_zero.mp (hzero ▸ hle T)⟩
  · have hTe : T ≠ e.table := fun heq => hnot (heq ▸ rfl)
    have hbefore := hcut.sub (k + 1) (by omega) hT'
    have hpend : pending ≠ some T := fun heq => hpending T heq ⟨k + 1, show k + 1 < 4 by omega, hT'⟩
    obtain ⟨i, hi', hne'⟩ := h.kept k hk T hbefore hpend hex
    exact ⟨i, hi', by rw [hcut.words (k + 1) (by omega) T hT' i fun hhere => hTe hhere.1]; exact hne'⟩
  · obtain rfl := Option.some.inj hT'
    exact ⟨e.index, hi, by rw [hword]; exact hne⟩

/-- Clearing the entry of a page that is given back. -/
theorem Pruned.leaf (h : Pruned roots cr3 pages none m m') (hcr3 : align cr3 ∈ roots) {va pt : ℕ}
    (hwalk : paging.walk m'.memory 0 (align cr3) (indices va) = some pt)
    (hpresent : present (m'.memory pt (tableIndex va)) = true)
    (hcut : Cut roots 3 ⟨pt, tableIndex va⟩ f m' m'') (hcounted : Counted roots m'') :
    Pruned roots cr3 (fun a => pages a ∨ a = va) (some pt) m m'' := by
  have hT : pt ∈ paging.tables m'.memory roots 3 :=
    Links.walk_mem (show align cr3 ∈ paging.tables m'.memory roots 0 from hcr3) (indices_mem va) hwalk
  have hne := ne_zero_of_present hpresent
  have hsame := (hcut.keepsAbove (by decide)).walk_eq h.counted.leveled hT hcr3
  refine h.cut hcut hcounted (by decide) hT (tableIndex_lt va) hne (fun _ => Or.inl) ?_ ⟨?_, ?_⟩
    (fun T hpend => absurd hpend (by simp)) fun hdepth => absurd hdepth (by decide)
  · rintro a (ha | rfl)
    · rcases hcut.leafEntry hcr3 a with heq | heq
      · rw [heq, h.cleared a ha]
      · rw [heq]
        decide
    · have hzero := (leafEntry_of_some ((hsame a).trans hwalk)).trans hcut.cleared
      rw [hzero]
      decide
  · rw [← h.word_eq (by decide) hT (tableIndex_lt va) hne]
    exact hpresent
  · rw [if_pos rfl]
    exact ⟨va, Or.inr rfl, h.walk_eq hcr3 hwalk, rfl⟩

/-- Dropping the pending table once it is empty. -/
theorem Pruned.drop {T : ℕ} (h : Pruned roots cr3 pages (some T) m m')
    (hone : ∀ T, paging.IsTable m.memory roots T → references m.memory roots T = 1) (hcr3 : align cr3 ∈ roots)
    (hl : l < 3) (hT : e.table ∈ paging.tables m'.memory roots l) (hi : e.index < 512)
    (hlink : paging.child l e.index (m'.load e) = some T) (hclear : m'.tableClear T = true)
    (hcounted : Counted roots m'') (hcut : Cut roots l e T m' m'') :
    Pruned roots cr3 pages (some e.table) m m'' := by
  have hT' : T ∈ paging.tables m'.memory roots (l + 1) :=
    Links.mem_tables_succ.mpr ⟨e.table, hT, e.index, Finset.mem_range.mpr hi, hlink⟩
  have hzero : references m''.memory roots T = 0 := by
    have hcount := hcut.references T
    have hle := h.fewer T
    rw [hone T ⟨l + 1, show l + 1 < 4 by omega, h.sub (l + 1) (by omega) hT'⟩] at hle
    rw [if_pos rfl] at hcount
    omega
  have hnot := not_isTable_of_references hzero
  obtain ⟨hpresent, hTe⟩ := present_align_of_child hl hlink
  have hne := ne_zero_of_present hpresent
  have hword : m'.load e = m.memory e.table e.index := h.word_eq (by omega) hT hi hne
  refine h.cut hcut hcounted (by omega) hT hi hne (fun _ hva => hva) (fun va hva => ?_) ⟨?_, ?_⟩ ?_ ?_
  · rcases hcut.leafEntry hcr3 va with heq | heq
    · rw [heq, h.cleared va hva]
    · rw [heq]
      decide
  · rw [← hword]
    exact hpresent
  · rw [if_neg (by omega), ← hword]
    rwa [hTe]
  · intro T' hT'
    rwa [← Option.some.inj hT']
  · exact fun _ _ _ => ⟨rfl, (m'.tableClear_iff T).mp hclear, hzero⟩

/-- The whole cascade: in the end no table is left empty. -/
theorem Pruned.cascade {T : ℕ} (h : Pruned roots cr3 pages (some T) m m')
    (hone : ∀ T, paging.IsTable m.memory roots T → references m.memory roots T = 1) (hcr3 : align cr3 ∈ roots)
    (hcascade : Cascade Eq roots l T m' m'') : Pruned roots cr3 pages none m m'' := by
  have hsettle {T : ℕ} {a : Machine} (ha : Pruned roots cr3 pages (some T) m a)
      (hsome : (∃ i < 512, a.memory T i ≠ 0) ∨ T ∈ roots) : Pruned roots cr3 pages none m a := by
    refine ⟨ha.counted, ha.layout, ha.sub, ha.fewer, ha.words, ha.cleared, ha.dropped, fun k hk T' hT' _ hex => ?_,
      fun _ hpend => absurd hpend (by simp)⟩
    by_cases hTT : T = T'
    · subst hTT
      refine hsome.resolve_right fun hroot => ?_
      have hlevel := ha.counted.leveled 0 (by decide) (k + 1) (show k + 1 < 4 by omega) T hroot hT'
      omega
    · exact ha.kept k hk T' hT' (fun heq => hTT (Option.some.inj heq)) hex
  induction hcascade with
  | @keep _ T a hclear =>
    refine hsettle h (Or.inl ?_)
    by_contra hnone
    push Not at hnone
    rw [(a.tableClear_iff T).mpr hnone] at hclear
    exact absurd hclear (by decide)
  | root hT => exact hsettle h (Or.inr hT)
  | drop hl hT hi hlink hclear hcounted hcut _ ih =>
    exact ih (h.drop hone hcr3 hl hT hi hlink hclear hcounted hcut)

/-- Giving back one page. -/
theorem Pruned.removal (h : Pruned roots cr3 pages none m m')
    (hone : ∀ T, paging.IsTable m.memory roots T → references m.memory roots T = 1) (hcr3 : align cr3 ∈ roots)
    {va : ℕ} (hremoval : Removal Eq roots cr3 va m' m'') :
    Pruned roots cr3 (fun a => pages a ∨ a = va) none m m'' := by
  cases hremoval with
  | absent habsent hsame =>
    rw [hsame]
    refine h.widen (fun _ => Or.inl) ?_
    rintro a (ha | rfl)
    · exact h.cleared a ha
    · exact habsent
  | cleared pt f m₁ hwalk hpresent hcut hcounted hcascade =>
    exact (h.leaf hcr3 hwalk hpresent hcut hcounted).cascade hone hcr3 hcascade

end Cuts

end Cthulhu
