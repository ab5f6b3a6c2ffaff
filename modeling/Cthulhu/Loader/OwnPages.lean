import Cthulhu.Memory.LeafEntries

/-!
# Pages with a frame of their own

A page owns its frame when nothing else in its address space leads to that frame. The frame is then
no table, and a walk that allocates tables leaves the frame and what it holds as they are.
-/

namespace Cthulhu

open Lib

/-- The page is mapped, and its entry is the only one that leads to its frame. -/
structure Owned (roots : Finset ℕ) (cr3 : ℕ) (m : Machine) (va : ℕ) : Prop where
  present : present (leafEntry m.memory cr3 va) = true
  low : leafEntry m.memory cr3 va < 2 ^ 62
  single : references m.memory roots (align (leafEntry m.memory cr3 va)) = 1

/-- The frame of a page. -/
def pageFrame (cr3 : ℕ) (m : Machine) (va : ℕ) : ℕ := align (leafEntry m.memory cr3 va)

/-- The pages that own their frames own the same frames, with the same words. -/
def OwnedKept (roots : Finset ℕ) (cr3 : ℕ) (m m' : Machine) : Prop :=
  ∀ va, Owned roots cr3 m va → Owned roots cr3 m' va ∧ pageFrame cr3 m' va = pageFrame cr3 m va ∧
    m'.memory (pageFrame cr3 m va) = m.memory (pageFrame cr3 m va)

section Owned

variable {roots : Finset ℕ} {cr3 va va' : ℕ} {m m' m'' : Machine}

/-- What is kept twice is kept. -/
theorem OwnedKept.trans (h : OwnedKept roots cr3 m m') (h' : OwnedKept roots cr3 m' m'') : OwnedKept roots cr3 m m'' := by
  intro va hva
  obtain ⟨hown, hframe, hmem⟩ := h va hva
  obtain ⟨hown', hframe', hmem'⟩ := h' va hown
  rw [hframe] at hframe' hmem'
  exact ⟨hown', hframe', hmem'.trans hmem⟩

/-- The place of an owned page: a leaf slot that leads to its frame. -/
theorem Owned.place (h : Owned roots cr3 m va) (hcr3 : align cr3 ∈ roots) :
    ∃ pt, paging.walk m.memory 0 (align cr3) (indices va) = some pt ∧
      pt ∈ paging.tables m.memory roots 3 ∧
      paging.child 3 (tableIndex va) (m.memory pt (tableIndex va)) = some (pageFrame cr3 m va) := by
  cases hwalk : paging.walk m.memory 0 (align cr3) (indices va) with
  | none =>
    have hpresent := h.present
    rw [leafEntry_of_none hwalk] at hpresent
    exact absurd hpresent (by decide)
  | some pt =>
    have hslot := leafSlot_of_walk hcr3 hwalk
    refine ⟨pt, rfl, hslot.1, ?_⟩
    rw [← leafEntry_of_some hwalk, child_leaf, h.present, if_pos rfl, frameOf_of_lt h.low]
    rfl

/-- The frame of an owned page is no table. -/
theorem Owned.not_isTable (h : Owned roots cr3 m va) (hcr3 : align cr3 ∈ roots) :
    ¬ paging.IsTable m.memory roots (pageFrame cr3 m va) := by
  obtain ⟨pt, -, hpt, hchild⟩ := h.place hcr3
  have hi : tableIndex va ∈ paging.slots := Finset.mem_range.mpr (tableIndex_lt va)
  have hone := h.single
  rw [show align (leafEntry m.memory cr3 va) = pageFrame cr3 m va from rfl] at hone
  have hlink := Links.linkCount_pos (show 3 < paging.depth by decide) hpt hi hchild
  unfold references at hone
  rintro ⟨l, hl, hT⟩
  cases l with
  | zero =>
    rw [if_pos (show pageFrame cr3 m va ∈ roots from hT)] at hone
    omega
  | succ l =>
    obtain ⟨T, hT', i, hi', hchild'⟩ := Links.mem_tables_succ.mp hT
    have htwo := Links.two_le_linkCount (show 3 < paging.depth by decide) hpt hi hchild (Nat.lt_of_succ_lt hl) hT' hi'
      hchild' fun heq => by
        have hlevel := congrArg Prod.fst heq
        have hdepth : l + 1 < 4 := hl
        dsimp only at hlevel
        omega
    omega

/-- The frame of an owned page is not the table of a leaf entry. -/
theorem Owned.ne_table (h : Owned roots cr3 m va) (hcr3 : align cr3 ∈ roots) {p : Slot} (hp : LeafSlot roots m p) :
    pageFrame cr3 m va ≠ p.table := by
  intro heq
  have htable := hp.1
  rw [← heq] at htable
  exact h.not_isTable hcr3 ⟨3, by decide, htable⟩

/-- Owned pages with one frame are one page. -/
theorem Owned.samePage (h : Owned roots cr3 m va) (h' : Owned roots cr3 m va') (hcr3 : align cr3 ∈ roots) (htree : OneReference roots m)
    (hframe : pageFrame cr3 m va = pageFrame cr3 m va') : SamePage va va' := by
  obtain ⟨pt, hwalk, hpt, hchild⟩ := h.place hcr3
  obtain ⟨pt', hwalk', hpt', hchild'⟩ := h'.place hcr3
  have hone := h.single
  unfold references at hone
  rw [← hframe] at hchild'
  obtain ⟨-, rfl, hindex⟩ := Links.place_unique (show paging.linkCount m.memory roots (pageFrame cr3 m va) ≤ 1 by
    unfold pageFrame; omega) (show 3 < paging.depth by decide) hpt (Finset.mem_range.mpr (tableIndex_lt va)) hchild
    (show 3 < paging.depth by decide) hpt' (Finset.mem_range.mpr (tableIndex_lt va')) hchild'
  exact ((htree.slot_iff hcr3 hcr3 hwalk' va).mp ⟨hwalk, hindex⟩).2

/-- Entries on one page are owned together. -/
theorem Owned.of_samePage (h : Owned roots cr3 m va) (hsame : SamePage va' va) : Owned roots cr3 m va' := by
  have hentry := hsame.leafEntry_eq m.memory cr3
  exact ⟨by rw [hentry]; exact h.present, by rw [hentry]; exact h.low, by rw [hentry]; exact h.single⟩

/-- An owned page stays owned when its entry leads to the same frame, low and present, and the
references to it stay. -/
theorem Owned.next (h : Owned roots cr3 m va) (hpresent : Cthulhu.present (leafEntry m'.memory cr3 va) = true)
    (hlow : leafEntry m'.memory cr3 va < 2 ^ 62) (hframe : pageFrame cr3 m' va = pageFrame cr3 m va)
    (hrefs : references m'.memory roots (pageFrame cr3 m va) = references m.memory roots (pageFrame cr3 m va)) :
    Owned roots cr3 m' va :=
  ⟨hpresent, hlow, by rw [show align (leafEntry m'.memory cr3 va) = pageFrame cr3 m' va from rfl, hframe, hrefs]; exact h.single⟩

end Owned

section Grown

variable {roots : Finset ℕ} {cr3 : ℕ} {m m' : Machine}

/-- One growth leaves a frame that is referenced and no table as it is. -/
theorem Growable.grow_frame (h : Growable roots m) (hgrow : Grow roots m m') {g : ℕ}
    (href : references m.memory roots g ≠ 0) (hnot : ¬ paging.IsTable m.memory roots g) :
    m'.memory g = m.memory g ∧ references m'.memory roots g = references m.memory roots g ∧
      ¬ paging.IsTable m'.memory roots g := by
  cases hgrow with
  | same hpool hmem =>
    rw [hmem]
    exact ⟨rfl, rfl, hnot⟩
  | table l p w f hl hT hi hold hw hf hne hpool hmem =>
    obtain ⟨-, htables, hrefs⟩ := h.table_effect hl hT hi hold hw hf hne
    have hgf : g ≠ f := fun heq => href (heq ▸ (h.fresh hf hne).1)
    have hgp : g ≠ p.table := fun heq => hnot ⟨l, Nat.lt_succ_of_lt hl, heq ▸ hT⟩
    refine ⟨?_, ?_, ?_⟩
    · funext i
      rw [hmem, Links.store_of_ne _ w fun hhere => hgp hhere.1, Function.update_of_ne hgf]
    · rw [hmem, hrefs, if_neg hgf, Nat.add_zero]
    · rintro ⟨k, hk, hmemk⟩
      rw [hmem, htables k hk] at hmemk
      split at hmemk
      · exact hnot ⟨k, hk, (Finset.mem_insert.mp hmemk).resolve_left hgf⟩
      · exact hnot ⟨k, hk, hmemk⟩

/-- Walks that allocate keep the owned pages. -/
theorem Mappable.grown_owned (h : Mappable roots m) (hcr3 : align cr3 ∈ roots) (hgrown : Grown roots m m') : OwnedKept roots cr3 m m' := by
  intro va hva
  have hentry := hgrown.leafEntry h.growable hcr3 va
  have hframe : pageFrame cr3 m' va = pageFrame cr3 m va := by
    unfold pageFrame
    rw [hentry]
  have hkept := (Grown.invariant (fun a => a.memory (pageFrame cr3 m va) = m.memory (pageFrame cr3 m va) ∧
    references a.memory roots (pageFrame cr3 m va) = 1 ∧
      ¬ paging.IsTable a.memory roots (pageFrame cr3 m va)) (fun a b ha hgrow hinv => by
      obtain ⟨hmem, hrefs, hnot⟩ := ha.grow_frame hgrow (by rw [hinv.2.1]; decide) hinv.2.2
      exact ⟨hmem.trans hinv.1, hrefs.trans hinv.2.1, hnot⟩) h.growable hgrown ⟨rfl, hva.single, hva.not_isTable hcr3⟩).2
  refine ⟨hva.next (by rw [hentry]; exact hva.present) (by rw [hentry]; exact hva.low) hframe ?_, hframe, hkept.1⟩
  rw [hkept.2.1]
  exact hva.single.symm

end Grown

end Cthulhu
