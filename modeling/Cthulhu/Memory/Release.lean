import Cthulhu.Memory.Counted
import Cthulhu.Memory.PageWalk

/-!
# Releasing links and empty tables

`free_frame` followed by the clearing of the entry that led to the frame, as
`deallocate_frame` does for a leaf entry and `free_page_structure` for every table it finds
empty. Both keep use counts and references in step, provided the frame is found in the entry
that is cleared.
-/

namespace Cthulhu

open Lib

/-- The tables down to a level, and their words except one, are as they were. -/
def KeepsAbove (roots : Finset ℕ) (l : ℕ) (e : Slot) (m m' : Machine) : Prop :=
  ∀ l' ≤ l, paging.tables m'.memory roots l' = paging.tables m.memory roots l' ∧
    ∀ T ∈ paging.tables m.memory roots l', ∀ i, ¬ (T = e.table ∧ i = e.index) →
      m'.memory T i = m.memory T i

/-- What the release of a link does to the tables: the entry is cleared, the table it led to may go,
and the link counts no more. Every table that stays keeps its other words. -/
structure Cut (roots : Finset ℕ) (l : ℕ) (e : Slot) (f : ℕ) (m m' : Machine) : Prop where
  layout : m'.framePool.map SectionInfo.layout = m.framePool.map SectionInfo.layout
  sub : ∀ l' < 4, paging.tables m'.memory roots l' ⊆ paging.tables m.memory roots l'
  keep : ∀ l' < 4, ∀ T ∈ paging.tables m.memory roots l', T ∈ paging.tables m'.memory roots l' ∨ (l' = l + 1 ∧ T = f)
  words : ∀ l' < 4, ∀ T ∈ paging.tables m'.memory roots l', ∀ i, ¬ (T = e.table ∧ i = e.index) →
    m'.memory T i = m.memory T i
  cleared : m'.load e = 0
  references : ∀ n, references m'.memory roots n + (if n = f then 1 else 0) = references m.memory roots n

/-- The tables dropped from one of a level upwards: as long as the table is empty, it is cut off and
its parent is looked at next. -/
inductive Cascade (rule : ℕ → ℕ → Prop) (roots : Finset ℕ) : ℕ → ℕ → Machine → Machine → Prop
  | keep {l T : ℕ} {m : Machine} (hclear : m.tableClear T = false) : Cascade rule roots l T m m
  | root {T : ℕ} {m : Machine} (hT : T ∈ roots) : Cascade rule roots 0 T m m
  | drop {l T : ℕ} {e : Slot} {m m₁ m₂ : Machine} (hl : l < 3) (hT : e.table ∈ paging.tables m.memory roots l)
    (hi : e.index < 512) (hlink : paging.child l e.index (m.load e) = some T) (hclear : m.tableClear T = true)
    (hcounted : CountedBy rule roots m₁) (hcut : Cut roots l e T m m₁) (hrest : Cascade rule roots l e.table m₁ m₂) :
    Cascade rule roots (l + 1) T m m₂

section Release

variable {rule : ℕ → ℕ → Prop} {roots : Finset ℕ} {m : Machine} {l : ℕ} {e : Slot} {f : ℕ}

/-- A cut keeps the tables down to its level. -/
theorem Cut.keepsAbove {m' : Machine} (h : Cut roots l e f m m') (hl : l < 4) : KeepsAbove roots l e m m' := by
  intro l' hl'
  have htables : paging.tables m'.memory roots l' = paging.tables m.memory roots l' := by
    refine (h.sub l' (by omega)).antisymm fun T hT => ?_
    rcases h.keep l' (by omega) T hT with hkept | ⟨hnext, -⟩
    · exact hkept
    · omega
  exact ⟨htables, fun T hT => h.words l' (by omega) T (htables ▸ hT)⟩

/-- The pool after `free_frame`. -/
theorem Machine.freeFrame_framePool (m : Machine) (a : ℕ) :
    (m.freeFrame a).framePool = (Cthulhu.releaseFrame m.framePool (align a)).1 := by
  unfold Machine.freeFrame Cthulhu.freeFrame
  dsimp only
  split <;> rfl

/-- The memory after `free_frame`: a frame whose last use ended is cleared. -/
theorem Machine.freeFrame_memory (m : Machine) (a : ℕ) :
    (m.freeFrame a).memory = match (Cthulhu.releaseFrame m.framePool (align a)).2 with
      | some frame => Function.update m.memory frame fun _ => 0
      | none => m.memory := by
  unfold Machine.freeFrame Cthulhu.freeFrame
  dsimp only
  split <;> simp_all [Machine.fill]

/-- Freeing an address outside the pool does nothing. -/
theorem Machine.freeFrame_unmanaged {a : ℕ} (h : Unmanaged m.framePool (align a)) : m.freeFrame a = m := by
  unfold Machine.freeFrame Cthulhu.freeFrame
  rw [releaseFrame_none m.framePool (align a) h]

/-- An aligned entry with high bits is no address of the pool, so its frame is not found. -/
theorem CountedBy.freeFrame_high (h : CountedBy rule roots m) {w : ℕ} (hw : 2 ^ 62 ≤ w) : m.freeFrame (align w) = m := by
  have hbound := align_le w
  have hfar : 2 ^ 62 ≤ align (align w) := by
    rw [align_align]
    unfold align
    omega
  exact Machine.freeFrame_unmanaged (h.unmanaged_of_le hfar)

/-- A store keeps the tables down to its level. -/
theorem CountedBy.keepsAbove_store (h : CountedBy rule roots m) (hl : l < 4)
    (hT : e.table ∈ paging.tables m.memory roots l) (w : ℕ) : KeepsAbove roots l e m (m.store e w) :=
  fun l' hl' => ⟨h.leveled.tables_store_below hl hT l' hl', fun _ _ _ hhere => Links.store_of_ne m.memory w hhere⟩

/-- Clearing an entry whose table is empty cuts one link. -/
theorem CountedBy.cut_store (h : CountedBy rule roots m) (hl : l < 4) (hT : e.table ∈ paging.tables m.memory roots l)
    (hi : e.index < 512) (hlink : paging.child l e.index (m.load e) = some f)
    (hclear : l + 1 < 4 → ∀ j < 512, m.memory f j = 0) :
    Cut roots l e f m (m.store e 0) ∧ paging.Leveled (m.store e 0).memory roots := by
  have hlink' : paging.child l e.index (m.memory e.table e.index) = some f := hlink
  have hclear' : l + 1 < 4 → ∀ C, paging.child l e.index (m.memory e.table e.index) = some C →
      ∀ j < 512, m.memory C j = 0 := by
    intro hdepth C hC
    rw [hlink'] at hC
    exact Option.some.inj hC ▸ hclear hdepth
  obtain ⟨hlev, hsub, hrefs⟩ := store_unlink h.leveled hl hT hi (child_zero l e.index) hclear'
  obtain ⟨-, hkeep⟩ := h.leveled.tables_cut hl hT (child_zero l e.index) fun hdepth C hC j hj => by
    rw [hclear' hdepth C hC j (Finset.mem_range.mp hj), child_zero]
  refine ⟨⟨rfl, hsub, fun l' hl' T hT' => ?_, fun _ _ _ _ _ hhere => Links.store_of_ne m.memory 0 hhere,
    Links.store_self _ _ _ _, fun n => ?_⟩, hlev⟩
  · refine (hkeep l' hl' T hT').imp_right fun hgone => ⟨hgone.1, ?_⟩
    rw [hlink', Option.some.injEq] at hgone
    exact hgone.2.symm
  · have hn := hrefs n
    simp only [hlink', Option.some.injEq, @eq_comm ℕ f] at hn
    exact hn

/-- Releasing a link out of the pool clears the entry and nothing else. -/
theorem CountedBy.releaseUnmanaged (h : CountedBy rule roots m) (hl : l < 4)
    (hT : e.table ∈ paging.tables m.memory roots l) (hi : e.index < 512)
    (hlink : paging.child l e.index (m.load e) = some f) (hf : Unmanaged m.framePool f)
    (hclear : l + 1 < 4 → ∀ j < 512, m.memory f j = 0) :
    CountedBy rule roots (m.store e 0) ∧ Cut roots l e f m (m.store e 0) := by
  obtain ⟨hcut, hlev⟩ := h.cut_store hl hT hi hlink hclear
  refine ⟨h.next rfl h.pool h.cow hlev (fun g hg => ?_) ?_, hcut⟩
  · have hsame := hcut.references g
    rw [if_neg fun heq : g = f => h.pool.managed hg (heq ▸ hf), Nat.add_zero] at hsame
    rw [hsame]
    exact h.counted g hg
  · exact h.named_store hl hT hcut.sub fun g hg => by rw [child_zero] at hg; exact absurd hg (by simp)

/-- Clearing a frame that the cut left without references changes no table. -/
theorem Cut.clearFrame {m' m'' : Machine} (h : Cut roots l e f m m') (hl : l < 4)
    (hT : e.table ∈ paging.tables m.memory roots l) (hzero : Cthulhu.references m'.memory roots f = 0)
    (hmem : m''.memory = Function.update m'.memory f fun _ => 0)
    (hlayout : m''.framePool.map SectionInfo.layout = m.framePool.map SectionInfo.layout) : Cut roots l e f m m'' := by
  have hnot := not_isTable_of_references hzero
  have hoff := cleared_off m'.memory f
  have htables {l' : ℕ} (hl' : l' < 4) : paging.tables m''.memory roots l' = paging.tables m'.memory roots l' := by
    rw [hmem, tables_off hnot hoff (by omega)]
  refine ⟨hlayout, fun l' hl' => ?_, fun l' hl' => ?_, fun l' hl' T hT' i hhere => ?_, ?_, fun n => ?_⟩
  · rw [htables hl']
    exact h.sub l' hl'
  · rw [htables hl']
    exact h.keep l' hl'
  · rw [htables hl'] at hT'
    rw [hmem, hoff T fun heq => hnot ⟨l', hl', heq ▸ hT'⟩]
    exact h.words l' hl' T hT' i hhere
  · have htable : e.table ∈ paging.tables m'.memory roots l :=
      (h.keep l hl e.table hT).resolve_right fun hgone => absurd hgone.1 (by omega)
    unfold Machine.load
    rw [hmem, hoff e.table fun heq => hnot ⟨l, hl, heq ▸ htable⟩]
    exact h.cleared
  · rw [hmem, references_off hnot hoff]
    exact h.references n

/-- Releasing a link to a pool frame lowers its count and its references together. -/
theorem CountedBy.releaseFrame [UseRule rule] (h : CountedBy rule roots m) (hl : l < 4)
    (hT : e.table ∈ paging.tables m.memory roots l) (hi : e.index < 512)
    (hlink : paging.child l e.index (m.load e) = some f) (hf : IsFrame m.framePool f)
    (hclear : l + 1 < 4 → ∀ j < 512, m.memory f j = 0) :
    CountedBy rule roots ((m.freeFrame f).store e 0) ∧ Cut roots l e f m ((m.freeFrame f).store e 0) := by
  obtain ⟨hcut, hlev⟩ := h.cut_store hl hT hi hlink hclear
  have hused : 1 ≤ usageCount m.framePool f := (Links.linkCount_pos hl hT (Finset.mem_range.mpr hi) hlink).trans
    ((Nat.le_add_left _ _).trans (UseRule.le (h.counted f hf)))
  obtain ⟨hinv, hlayout, husage, hcases⟩ := h.pool.releaseFrame hf (h.high f hf) hused
  have halign : align f = f := align_of_mod (h.pool.frame_aligned hf).1
  have hnamed := h.named_store hl hT hcut.sub fun g hg => by rw [child_zero] at hg; exact absurd hg (by simp)
  have hcounted (g : ℕ) (hg : IsFrame m.framePool g) : rule (usageCount (Cthulhu.releaseFrame m.framePool f).1 g)
      (references (m.store e 0).memory roots g) := by
    have hdrop := hcut.references g
    have hrule := h.counted g hg
    rw [husage g hg]
    split
    next heq =>
      rw [if_pos heq] at hdrop
      rw [← hdrop, heq, ← Nat.sub_add_cancel hused] at hrule
      rw [heq]
      exact UseRule.down hrule
    next hne =>
      rw [if_neg hne, Nat.add_zero] at hdrop
      rwa [hdrop]
  have hpool' : ((m.freeFrame f).store e 0).framePool = (Cthulhu.releaseFrame m.framePool f).1 :=
    (m.freeFrame_framePool f).trans (by rw [halign])
  have hmem' : ((m.freeFrame f).store e 0).memory = Links.store (m.freeFrame f).memory e.table e.index 0 := rfl
  rw [m.freeFrame_memory, halign] at hmem'
  generalize (m.freeFrame f).store e 0 = m' at hpool' hmem' ⊢
  have hlayout' : m'.framePool.map SectionInfo.layout = m.framePool.map SectionInfo.layout := by
    rw [hpool', hlayout]
  rcases hcases with ⟨hlast, hcleared, -⟩ | ⟨-, hkept, -⟩
  · -- the last use: the frame has no reference left, so clearing it changes no table
    rw [hcleared] at hmem'
    dsimp only at hmem'
    have hzero : references (m.store e 0).memory roots f = 0 := by
      have hdrop := hcut.references f
      have hle := UseRule.le (h.counted f hf)
      rw [if_pos rfl] at hdrop
      omega
    have hnot := not_isTable_of_references hzero
    have htable : e.table ≠ f := by
      intro heq
      refine hnot ⟨l, hl, ?_⟩
      rw [← heq]
      exact (hcut.keep l hl e.table hT).resolve_right fun hgone => absurd hgone.1 (by omega)
    have hmem : m'.memory = Function.update (m.store e 0).memory f fun _ => 0 := by
      rw [hmem']
      unfold Links.store
      rw [Function.update_comm htable.symm, Function.update_of_ne htable]
      rfl
    have hoff := cleared_off (m.store e 0).memory f
    refine ⟨h.next hlayout' (by rw [hpool']; exact hinv) (by rw [hpool']; exact h.cow.releaseFrame f) ?_
      (fun g hg => ?_) ?_, hcut.clearFrame hl hT hzero hmem hlayout'⟩
    · rw [hmem]
      exact leveled_off hlev hnot hoff
    · rw [hpool', hmem, references_off hnot hoff]
      exact hcounted g hg
    · rw [hmem]
      intro l' hl' T hT' i hi' g hchild
      rw [tables_off hnot hoff (by omega)] at hT'
      rw [hoff T fun heq => hnot ⟨l', hl', heq ▸ hT'⟩] at hchild
      exact hnamed l' hl' T hT' i hi' g hchild
  · rw [hkept] at hmem'
    have hmem : m'.memory = (m.store e 0).memory := hmem'
    refine ⟨h.next hlayout' (by rw [hpool']; exact hinv) (by rw [hpool']; exact h.cow.releaseFrame f)
      (by rw [hmem]; exact hlev) (fun g hg => ?_) (by rw [hmem]; exact hnamed), ⟨hlayout', ?_, ?_, ?_, ?_, ?_⟩⟩
    · rw [hpool', hmem]
      exact hcounted g hg
    · rw [hmem]
      exact hcut.sub
    · rw [hmem]
      exact hcut.keep
    · rw [hmem]
      exact hcut.words
    · unfold Machine.load
      rw [hmem]
      exact hcut.cleared
    · rw [hmem]
      exact hcut.references

/-- Releasing a link whose entry names the frame keeps the counts right. -/
theorem CountedBy.releaseLink [UseRule rule] (h : CountedBy rule roots m) (hl : l < 4)
    (hT : e.table ∈ paging.tables m.memory roots l) (hi : e.index < 512)
    (hlink : paging.child l e.index (m.load e) = some (align (m.load e)))
    (hclear : l + 1 < 4 → ∀ j < 512, m.memory (align (m.load e)) j = 0) :
    CountedBy rule roots ((m.freeFrame (align (m.load e))).store e 0) ∧
      Cut roots l e (align (m.load e)) m ((m.freeFrame (align (m.load e))).store e 0) := by
  rcases h.named l hl e.table hT e.index hi _ hlink with hframe | hout
  · exact h.releaseFrame hl hT hi hlink hframe hclear
  · rw [Machine.freeFrame_unmanaged (by rwa [align_align])]
    exact h.releaseUnmanaged hl hT hi hlink hout hclear

/-- A cleared table has only zero entries. -/
theorem Machine.tableClear_iff (m : Machine) (table : ℕ) :
    m.tableClear table = true ↔ ∀ i < 512, m.memory table i = 0 := by
  unfold Machine.tableClear
  simp

end Release

section FreePageStructure

variable {rule : ℕ → ℕ → Prop} [UseRule rule] {roots : Finset ℕ} {m : Machine}

/-- Freeing the table below an entry when it is empty, one stage of `free_page_structure`. -/
theorem CountedBy.releaseTable (h : CountedBy rule roots m) {l : ℕ} {e : Slot} (hl : l < 3)
    (hT : e.table ∈ paging.tables m.memory roots l) (hi : e.index < 512)
    (hlink : paging.child l e.index (m.load e) = some (align (m.load e)))
    (hclear : m.tableClear (align (m.load e)) = true) :
    CountedBy rule roots ((m.freeFrame (align (m.load e))).store e 0) ∧
      Cut roots l e (align (m.load e)) m ((m.freeFrame (align (m.load e))).store e 0) :=
  h.releaseLink (Nat.lt_succ_of_lt hl) hT hi hlink fun _ => (m.tableClear_iff _).mp hclear

/-- An entry of a higher level is the same after a release below it. -/
theorem KeepsAbove.load_eq {m' : Machine} {l k : ℕ} {e u : Slot} (hkeep : KeepsAbove roots l e m m')
    (hlev : paging.Leveled m.memory roots) (hl : l < 4) (hk : k < l)
    (hT : e.table ∈ paging.tables m.memory roots l) (hu : u.table ∈ paging.tables m.memory roots k) :
    m'.load u = m.load u ∧ u.table ∈ paging.tables m'.memory roots k := by
  obtain ⟨htables, hwords⟩ := hkeep k (by omega)
  refine ⟨hwords u.table hu u.index fun heq => ?_, by rw [htables]; exact hu⟩
  have hsame := hlev k (Nat.lt_trans hk hl) l hl e.table (heq.1 ▸ hu) hT
  omega

/-- `free_page_structure` keeps the counts right when the leaf entry it clears leads out of the pool
or nowhere; it clears that entry and then drops the tables this left empty. -/
theorem CountedBy.freePageStructure (h : CountedBy rule roots m) {va cr3 : ℕ} (hcr3 : align cr3 ∈ roots)
    (hva : pmlIndex va ≠ 510)
    (hleaf : present (leafEntry m.memory cr3 va) = true → Unmanaged m.framePool (frameOf (leafEntry m.memory cr3 va))) :
    CountedBy rule roots (m.freePageStructure va cr3) ∧
      ∀ pt, paging.walk m.memory 0 (align cr3) (indices va) = some pt →
        Cascade rule roots 3 pt (m.store ⟨pt, tableIndex va⟩ 0) (m.freePageStructure va cr3) := by
  have hpml : pmlIndex va < 512 := Nat.mod_lt _ (by decide)
  have hptr : directoryPtrIndex va < 512 := Nat.mod_lt _ (by decide)
  have hdir : directoryIndex va < 512 := Nat.mod_lt _ (by decide)
  unfold Machine.freePageStructure leafEntry indices at *
  dsimp only at *
  cases hpresent₀ : present (m.load ⟨align cr3, pmlIndex va⟩) with
  | false =>
    refine ⟨h, fun pt hwalk => ?_⟩
    rw [Links.walk_cons_none _ (child_of_not_present hpresent₀)] at hwalk
    exact absurd hwalk (by simp)
  | true =>
  have hlink₀ := child_upper (l := 0) (i := pmlIndex va) (by decide) (fun hm => hva hm.2) hpresent₀
  have hT₀ : align cr3 ∈ paging.tables m.memory roots 0 := hcr3
  have hT₁ := Links.mem_tables_succ.mpr ⟨_, hT₀, _, Finset.mem_range.mpr hpml, hlink₀⟩
  rw [Links.walk_cons_some _ hlink₀] at hleaf ⊢
  cases hpresent₁ : present (m.load ⟨align (m.load ⟨align cr3, pmlIndex va⟩), directoryPtrIndex va⟩) with
  | false =>
    refine ⟨h, fun pt hwalk => ?_⟩
    rw [Links.walk_cons_none _ (child_of_not_present hpresent₁)] at hwalk
    exact absurd hwalk (by simp)
  | true =>
  have hlink₁ := child_upper (l := 1) (i := directoryPtrIndex va) (by decide)
    (fun hm => absurd hm.1 (by decide)) hpresent₁
  have hT₂ := Links.mem_tables_succ.mpr ⟨_, hT₁, _, Finset.mem_range.mpr hptr, hlink₁⟩
  rw [Links.walk_cons_some _ hlink₁] at hleaf ⊢
  generalize hpdpt : align (m.load ⟨align cr3, pmlIndex va⟩) = pdpt at *
  cases hpresent₂ : present (m.load ⟨align (m.load ⟨pdpt, directoryPtrIndex va⟩), directoryIndex va⟩) with
  | false =>
    refine ⟨h, fun pt hwalk => ?_⟩
    rw [Links.walk_cons_none _ (child_of_not_present hpresent₂)] at hwalk
    exact absurd hwalk (by simp)
  | true =>
  have hlink₂ := child_upper (l := 2) (i := directoryIndex va) (by decide)
    (fun hm => absurd hm.1 (by decide)) hpresent₂
  have hT₃ := Links.mem_tables_succ.mpr ⟨_, hT₂, _, Finset.mem_range.mpr hdir, hlink₂⟩
  rw [Links.walk_cons_some _ hlink₂] at hleaf ⊢
  generalize hpdir : align (m.load ⟨pdpt, directoryPtrIndex va⟩) = pdir at *
  generalize hpt : align (m.load ⟨pdir, directoryIndex va⟩) = pt at *
  have hreduce (m' : Machine) (hboth : CountedBy rule roots m' ∧ Cascade rule roots 3 pt (m.store ⟨pt, tableIndex va⟩ 0) m') :
      CountedBy rule roots m' ∧ ∀ pt', paging.walk m.memory 3 pt [] = some pt' →
        Cascade rule roots 3 pt' (m.store ⟨pt', tableIndex va⟩ 0) m' := by
    refine ⟨hboth.1, fun pt' hwalk => ?_⟩
    obtain rfl : pt = pt' := Option.some.inj hwalk
    exact hboth.2
  apply hreduce
  clear hreduce
  -- the leaf entry is cleared first
  have h₃ : CountedBy rule roots (m.store ⟨pt, tableIndex va⟩ 0) := by
    refine h.dropUnmanaged (p := ⟨pt, tableIndex va⟩) hT₃ (tableIndex_lt va) (child_zero 3 _) fun g hg => ?_
    rw [child_leaf] at hg
    split at hg
    next hpresent => exact Option.some.inj hg ▸ hleaf hpresent
    next => exact absurd hg (by simp)
  have hkeep₃ := h.keepsAbove_store (e := ⟨pt, tableIndex va⟩) (l := 3) (by decide) hT₃ 0
  obtain ⟨hload₂, hT₂'⟩ := hkeep₃.load_eq (u := ⟨pdir, directoryIndex va⟩) h.leveled (by decide) (by decide) hT₃ hT₂
  obtain ⟨hload₁, hT₁'⟩ := hkeep₃.load_eq (u := ⟨pdpt, directoryPtrIndex va⟩) h.leveled (by decide) (by decide) hT₃ hT₁
  obtain ⟨hload₀, hT₀'⟩ := hkeep₃.load_eq (u := ⟨align cr3, pmlIndex va⟩) h.leveled (by decide) (by decide) hT₃ hT₀
  generalize m.store ⟨pt, tableIndex va⟩ 0 = m₃ at *
  simp only [Bool.not_true, Bool.false_eq_true, if_false, Bool.not_eq_true']
  split
  next hclear₂ => exact ⟨h₃, .keep hclear₂⟩
  next hclear₂ =>
  -- then the leaf table, which is now empty
  rw [Bool.not_eq_false] at hclear₂
  have hlink₂' : paging.child 2 (directoryIndex va) (m₃.load ⟨pdir, directoryIndex va⟩) =
      some (align (m₃.load ⟨pdir, directoryIndex va⟩)) := by rw [hload₂, hpt, hlink₂]
  obtain ⟨h₂, hcut₂⟩ := h₃.releaseTable (e := ⟨pdir, directoryIndex va⟩) (by decide) hT₂' hdir hlink₂'
    (by rw [hload₂, hpt]; exact hclear₂)
  have hkeep₂ := hcut₂.keepsAbove (by decide)
  obtain ⟨hload₁₂, hT₁₂⟩ := hkeep₂.load_eq (u := ⟨pdpt, directoryPtrIndex va⟩) h₃.leveled (by decide) (by decide)
    hT₂' hT₁'
  obtain ⟨hload₀₂, hT₀₂⟩ := hkeep₂.load_eq (u := ⟨align cr3, pmlIndex va⟩) h₃.leveled (by decide) (by decide)
    hT₂' hT₀'
  generalize (m₃.freeFrame (align (m₃.load ⟨pdir, directoryIndex va⟩))).store ⟨pdir, directoryIndex va⟩ 0 = m₂ at *
  rw [hload₂, hpt] at hcut₂
  have hdrop₂ (m' : Machine) (hrest : CountedBy rule roots m' ∧ Cascade rule roots 2 pdir m₂ m') :
      CountedBy rule roots m' ∧ Cascade rule roots 3 pt m₃ m' :=
    ⟨hrest.1, .drop (e := ⟨pdir, directoryIndex va⟩) (by decide) hT₂' hdir (by rw [hload₂, hlink₂]) hclear₂ h₂
      hcut₂ hrest.2⟩
  apply hdrop₂
  split
  next hclear₁ => exact ⟨h₂, .keep hclear₁⟩
  next hclear₁ =>
  -- the directory
  rw [Bool.not_eq_false] at hclear₁
  rw [hload₁] at hload₁₂
  have hlink₁' : paging.child 1 (directoryPtrIndex va) (m₂.load ⟨pdpt, directoryPtrIndex va⟩) =
      some (align (m₂.load ⟨pdpt, directoryPtrIndex va⟩)) := by rw [hload₁₂, hpdir, hlink₁]
  obtain ⟨h₁, hcut₁⟩ := h₂.releaseTable (e := ⟨pdpt, directoryPtrIndex va⟩) (by decide) hT₁₂ hptr hlink₁'
    (by rw [hload₁₂, hpdir]; exact hclear₁)
  obtain ⟨hload₀₁, hT₀₁⟩ := (hcut₁.keepsAbove (by decide)).load_eq (u := ⟨align cr3, pmlIndex va⟩) h₂.leveled
    (by decide) (by decide) hT₁₂ hT₀₂
  generalize (m₂.freeFrame (align (m₂.load ⟨pdpt, directoryPtrIndex va⟩))).store
    ⟨pdpt, directoryPtrIndex va⟩ 0 = m₁ at *
  rw [hload₁₂, hpdir] at hcut₁
  have hdrop₁ (m' : Machine) (hrest : CountedBy rule roots m' ∧ Cascade rule roots 1 pdpt m₁ m') :
      CountedBy rule roots m' ∧ Cascade rule roots 2 pdir m₂ m' :=
    ⟨hrest.1, .drop (e := ⟨pdpt, directoryPtrIndex va⟩) (by decide) hT₁₂ hptr (by rw [hload₁₂, hlink₁]) hclear₁ h₁
      hcut₁ hrest.2⟩
  apply hdrop₁
  split
  next hclear₀ => exact ⟨h₁, .keep hclear₀⟩
  next hclear₀ =>
  -- and last the directory pointer table
  rw [Bool.not_eq_false] at hclear₀
  rw [hload₀₂, hload₀] at hload₀₁
  have hlink₀' : paging.child 0 (pmlIndex va) (m₁.load ⟨align cr3, pmlIndex va⟩) =
      some (align (m₁.load ⟨align cr3, pmlIndex va⟩)) := by rw [hload₀₁, hpdpt, hlink₀]
  obtain ⟨h₀, hcut₀⟩ := h₁.releaseTable (e := ⟨align cr3, pmlIndex va⟩) (by decide) hT₀₁ hpml hlink₀'
    (by rw [hload₀₁, hpdpt]; exact hclear₀)
  generalize (m₁.freeFrame (align (m₁.load ⟨align cr3, pmlIndex va⟩))).store ⟨align cr3, pmlIndex va⟩ 0 = m₀ at *
  rw [hload₀₁, hpdpt] at hcut₀
  exact ⟨h₀, .drop (e := ⟨align cr3, pmlIndex va⟩) (by decide) hT₀₁ hpml (by rw [hload₀₁, hlink₀]) hclear₀ h₀ hcut₀
    (.root hcr3)⟩

end FreePageStructure

end Cthulhu
