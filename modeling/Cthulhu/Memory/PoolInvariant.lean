import Mathlib.Data.Finset.Card
import Mathlib.Data.Finset.Range
import Cthulhu.Memory.PoolSteps

/-!
# The frame pool invariant

A section is described by its geometry, by the two indexings that tie frame records to
stack elements, and by the list its free stack threads. The section lemmas say how taking,
releasing and re-counting one frame change that description; the pool lemmas lift them to
the section an address belongs to.
-/

namespace Cthulhu

open Lib

/-- Address of the frame with the given index. -/
def SectionInfo.frame (s : SectionInfo) (i : ℕ) : ℕ := s.startWord + 0x1000 * i

/-- A section whose free stack is the given list of element indices. -/
structure SectionInv (s : SectionInfo) (stack : List ℕ) : Prop where
  aligned : s.startWord % 0x1000 = 0
  fits : s.frame s.totalFrames ≤ s.endWord
  bounded : s.endWord < 2 ^ 64
  indexed : s.totalFrames ≤ 2 ^ 32
  address : ∀ i < s.totalFrames, (s.elements i).frameAddress = s.frame i
  ord : ∀ i < s.totalFrames, 0x200000 ≤ s.frame i → (s.elements i).arrayOrd = i
  bound : ∀ i < s.totalFrames, (s.frameArray i).boundStackElement = i
  counted : ∀ i < s.totalFrames, (s.frameArray i).usageCount < 2 ^ 32
  linked : Linked (fun i => (s.elements i).next) s.head stack
  nodup : stack.Nodup
  free : ∀ i, i ∈ stack ↔ i < s.totalFrames ∧ 0x200000 ≤ s.frame i ∧ (s.frameArray i).usageCount = 0

/-- The address ranges of two sections do not meet. -/
def SectionInfo.Apart (s t : SectionInfo) : Prop := s.endWord ≤ t.startWord ∨ t.endWord ≤ s.startWord

/-- Every section is sound and the sections are pairwise apart. -/
structure PoolInv (pool : List SectionInfo) : Prop where
  sections : ∀ s ∈ pool, ∃ stack, SectionInv s stack
  apart : pool.Pairwise SectionInfo.Apart

section Section

variable {s : SectionInfo} {stack : List ℕ}

/-- A duplicate-free stack of valid indices is no longer than the frame array. -/
theorem SectionInv.length_le (h : SectionInv s stack) : stack.length ≤ s.totalFrames := by
  have hsub : stack.toFinset ⊆ Finset.range s.totalFrames := by
    intro i hi
    exact Finset.mem_range.mpr ((h.free i).mp (List.mem_toFinset.mp hi)).1
  have hcard := Finset.card_le_card hsub
  rwa [List.toFinset_card_of_nodup h.nodup, Finset.card_range] at hcard

/-- Following the links from the head visits exactly the represented stack. -/
theorem SectionInv.freeStack_eq (h : SectionInv s stack) : s.freeStack = stack :=
  h.linked.follow_eq h.length_le

/-- The free frame addresses of a section, read through the geometry. -/
theorem SectionInv.freeAddresses (h : SectionInv s stack) :
    (s.freeStack.map fun i => (s.elements i).frameAddress) = stack.map s.frame := by
  rw [h.freeStack_eq]
  exact List.map_congr_left fun i hi => h.address i ((h.free i).mp hi).1

/-- A frame of the section is covered by it and found at its own index. -/
theorem SectionInv.covers_frame (h : SectionInv s stack) {i : ℕ} (hi : i < s.totalFrames) :
    s.covers (s.frame i) = true ∧ s.index (s.frame i) = i := by
  have hfits := h.fits
  have hbounded := h.bounded
  have hindexed := h.indexed
  unfold SectionInfo.frame at hfits ⊢
  unfold SectionInfo.covers SectionInfo.index
  constructor
  · simp only [Bool.and_eq_true, decide_eq_true_eq]
    omega
  · rw [sub64_of_le (by omega)]
    omega

/-- An address apart from the section is not covered by it. -/
theorem SectionInv.covers_of_apart {t : SectionInfo} (hs : SectionInv s stack)
    (hapart : s.Apart t) {i : ℕ} (hi : i < s.totalFrames) : t.covers (s.frame i) = false := by
  have hfits := hs.fits
  unfold SectionInfo.frame at hfits
  unfold SectionInfo.frame SectionInfo.covers
  simp only [Bool.and_eq_false_iff, decide_eq_false_iff_not]
  unfold SectionInfo.Apart at hapart
  omega

/-- The frame at the head of the stack is free, and taking it leaves the rest of the stack. -/
theorem SectionInv.pop (h : SectionInv s stack) {e : ℕ} (hhead : s.head = some e) :
    ∃ tail, stack = e :: tail ∧ SectionInv (s.pop e) tail ∧
      ∀ i, ((s.pop e).frameArray i).usageCount = if i = e then 1 else (s.frameArray i).usageCount := by
  have hlinked := h.linked
  rw [hhead] at hlinked
  obtain ⟨tail, rfl, htail⟩ := hlinked.exists_cons
  obtain ⟨hlt, hhigh, -⟩ := (h.free e).mp List.mem_cons_self
  have hord := h.ord e hlt hhigh
  have husage (i : ℕ) : ((s.pop e).frameArray i).usageCount =
      if i = e then 1 else (s.frameArray i).usageCount := by
    simp only [SectionInfo.pop, hord, Function.update_apply]
    split <;> rfl
  have hbound (i : ℕ) : ((s.pop e).frameArray i).boundStackElement = (s.frameArray i).boundStackElement := by
    simp only [SectionInfo.pop, hord, Function.update_apply]
    split <;> simp_all
  refine ⟨tail, rfl, ?_, husage⟩
  exact {
    aligned := h.aligned
    fits := h.fits
    bounded := h.bounded
    indexed := h.indexed
    address := h.address
    ord := h.ord
    bound := fun i hi => (hbound i).trans (h.bound i hi)
    counted := fun i hi => by
      rw [husage]
      split
      · decide
      · exact h.counted i hi
    linked := htail
    nodup := (List.nodup_cons.mp h.nodup).2
    free := fun i => by
      rw [husage]
      have hfree := h.free i
      have hnot := (List.nodup_cons.mp h.nodup).1
      rw [List.mem_cons] at hfree
      by_cases hie : i = e
      · subst hie
        simp [hnot]
      · rw [if_neg hie]
        change i ∈ tail ↔ i < s.totalFrames ∧ 0x200000 ≤ s.frame i ∧ (s.frameArray i).usageCount = 0
        simpa [hie] using hfree }

/-- Re-counting a used frame to another positive count keeps the section sound. -/
theorem SectionInv.write (h : SectionInv s stack) {i : ℕ} {f : FrameInfo → FrameInfo}
    (hbound : (f (s.frameArray i)).boundStackElement = (s.frameArray i).boundStackElement)
    (hused : (s.frameArray i).usageCount ≠ 0) (hpos : (f (s.frameArray i)).usageCount ≠ 0)
    (hlt : (f (s.frameArray i)).usageCount < 2 ^ 32) : SectionInv (s.write i f) stack := by
  have hother (j : ℕ) (hj : j ≠ i) : (s.write i f).frameArray j = s.frameArray j :=
    Function.update_of_ne hj _ _
  have hself : (s.write i f).frameArray i = f (s.frameArray i) := Function.update_self _ _ _
  exact {
    aligned := h.aligned
    fits := h.fits
    bounded := h.bounded
    indexed := h.indexed
    address := h.address
    ord := h.ord
    bound := fun j hj => by
      by_cases hji : j = i
      · subst hji
        rw [hself, hbound]
        exact h.bound j hj
      · rw [hother j hji]
        exact h.bound j hj
    counted := fun j hj => by
      by_cases hji : j = i
      · subst hji
        rwa [hself]
      · rw [hother j hji]
        exact h.counted j hj
    linked := h.linked
    nodup := h.nodup
    free := fun j => by
      by_cases hji : j = i
      · subst hji
        rw [h.free, hself]
        simp [hused, hpos]
      · rw [h.free, hother j hji]
        rfl }

/-- Releasing a frame that has other uses only lowers its count. -/
theorem SectionInv.release_shared (h : SectionInv s stack) {i : ℕ} (hi : i < s.totalFrames)
    (hused : 2 ≤ (s.frameArray i).usageCount) :
    SectionInv (s.release i).1 stack ∧ (s.release i).2 = none ∧
      ∀ j, ((s.release i).1.frameArray j).usageCount =
        if j = i then (s.frameArray i).usageCount - 1 else (s.frameArray j).usageCount := by
  have hcount := h.counted i hi
  have hdec : dec32 (s.frameArray i).usageCount = (s.frameArray i).usageCount - 1 := by
    unfold dec32
    rw [if_neg (by omega)]
  let f : FrameInfo → FrameInfo := fun fi =>
    { fi with usageCount := dec32 fi.usageCount
              cowCount := if fi.cowCount > 0 then fi.cowCount - 1 else fi.cowCount }
  have hrelease : s.release i = (s.write i f, none) := by
    unfold SectionInfo.release
    rw [if_neg (by rw [hdec]; omega)]
    rfl
  have hdec' : (f (s.frameArray i)).usageCount = (s.frameArray i).usageCount - 1 := hdec
  rw [hrelease]
  refine ⟨h.write rfl (by omega) (by omega) (by omega), rfl, fun j => ?_⟩
  simp only [SectionInfo.write, Function.update_apply]
  split
  · exact hdec'
  · rfl

/-- Releasing the last use pushes the frame's element and names the frame to clear. -/
theorem SectionInv.release_last (h : SectionInv s stack) {i : ℕ} (hi : i < s.totalFrames)
    (hhigh : 0x200000 ≤ s.frame i) (hused : (s.frameArray i).usageCount = 1) :
    SectionInv (s.release i).1 (i :: stack) ∧ (s.release i).2 = some (s.frame i) ∧
      ∀ j, ((s.release i).1.frameArray j).usageCount = if j = i then 0 else (s.frameArray j).usageCount := by
  have hbound := h.bound i hi
  have hdec : dec32 (s.frameArray i).usageCount = 0 := by rw [hused]; rfl
  have hfresh : i ∉ stack := by
    rw [h.free, hused]
    simp
  have helem (j : ℕ) : ((s.release i).1.elements j).frameAddress = (s.elements j).frameAddress ∧
      ((s.release i).1.elements j).arrayOrd = (s.elements j).arrayOrd := by
    simp only [SectionInfo.release, hdec, if_true, hbound, Function.update_apply]
    split <;> simp_all
  have hnext : (fun j => ((s.release i).1.elements j).next) =
      Function.update (fun j => (s.elements j).next) i s.head := by
    funext j
    simp only [SectionInfo.release, hdec, if_true, hbound, Function.update_apply]
    split <;> simp_all
  have husage (j : ℕ) : ((s.release i).1.frameArray j).usageCount =
      if j = i then 0 else (s.frameArray j).usageCount := by
    simp only [SectionInfo.release, hdec, if_true, Function.update_apply]
    split <;> simp_all
  have hbound' (j : ℕ) : ((s.release i).1.frameArray j).boundStackElement =
      (s.frameArray j).boundStackElement := by
    simp only [SectionInfo.release, hdec, if_true, Function.update_apply]
    split <;> simp_all
  have hhead : (s.release i).1.head = some i := by
    simp only [SectionInfo.release, hdec, if_true, hbound]
  have hstart : (s.release i).1.startWord = s.startWord := by
    simp only [SectionInfo.release, hdec, if_true]
  have hend : (s.release i).1.endWord = s.endWord := by
    simp only [SectionInfo.release, hdec, if_true]
  have htotal : (s.release i).1.totalFrames = s.totalFrames := by
    simp only [SectionInfo.release, hdec, if_true]
  have hframe : (s.release i).1.frame = s.frame := by
    funext j
    unfold SectionInfo.frame
    rw [hstart]
  refine ⟨?_, ?_, husage⟩
  · exact {
      aligned := by rw [hstart]; exact h.aligned
      fits := by rw [hframe, htotal, hend]; exact h.fits
      bounded := by rw [hend]; exact h.bounded
      indexed := by rw [htotal]; exact h.indexed
      address := fun j hj => by
        rw [(helem j).1, hframe]
        exact h.address j (htotal ▸ hj)
      ord := fun j hj hjhigh => by
        rw [(helem j).2]
        exact h.ord j (htotal ▸ hj) (hframe ▸ hjhigh)
      bound := fun j hj => (hbound' j).trans (h.bound j (htotal ▸ hj))
      counted := fun j hj => by
        rw [husage]
        split
        · decide
        · exact h.counted j (htotal ▸ hj)
      linked := by
        rw [hhead, hnext]
        exact h.linked.push hfresh
      nodup := List.nodup_cons.mpr ⟨hfresh, h.nodup⟩
      free := fun j => by
        rw [List.mem_cons, h.free, husage, hframe, htotal]
        by_cases hji : j = i
        · subst hji
          simp [hi, hhigh]
        · simp [hji] }
  · simp only [SectionInfo.release, hdec, if_true, hbound, h.address i hi]

end Section

section Pool

variable {pool before after : List SectionInfo} {s s' : SectionInfo}

/-- The bounds and size of a section, which no pool operation changes. -/
def SectionInfo.layout (s : SectionInfo) : ℕ × ℕ × ℕ := (s.startWord, s.endWord, s.totalFrames)

/-- No section covers the address, so the pool functions ignore it. -/
def Unmanaged (pool : List SectionInfo) (a : ℕ) : Prop := ∀ s ∈ pool, s.covers a = false

/-- Being a frame depends on the layout alone. -/
theorem isFrame_congr {pool' : List SectionInfo}
    (h : pool'.map SectionInfo.layout = pool.map SectionInfo.layout) (f : ℕ) :
    IsFrame pool' f ↔ IsFrame pool f := by
  have hread (p : List SectionInfo) : IsFrame p f ↔
      ∃ l ∈ p.map SectionInfo.layout, ∃ i < l.2.2, f = l.1 + 0x1000 * i := by
    simp [IsFrame, SectionInfo.layout]
  rw [hread, hread, h]

/-- Being outside every section depends on the layout alone. -/
theorem unmanaged_congr {pool' : List SectionInfo}
    (h : pool'.map SectionInfo.layout = pool.map SectionInfo.layout) (a : ℕ) :
    Unmanaged pool' a ↔ Unmanaged pool a := by
  have hread (p : List SectionInfo) : Unmanaged p a ↔
      ∀ l ∈ p.map SectionInfo.layout, (l.1 ≤ a && a < l.2.1) = false := by
    rw [List.forall_mem_map]
    rfl
  rw [hread, hread, h]

/-- Replacing a section by a sound one with the same layout keeps the pool sound. -/
theorem PoolInv.replace (h : PoolInv (before ++ s :: after)) {stack : List ℕ}
    (hs : SectionInv s' stack) (hlayout : s'.layout = s.layout) : PoolInv (before ++ s' :: after) := by
  simp only [SectionInfo.layout, Prod.mk.injEq] at hlayout
  obtain ⟨hstart, hend, -⟩ := hlayout
  constructor
  · intro t ht
    rcases List.mem_append.mp ht with ht | ht
    · exact h.sections t (List.mem_append_left _ ht)
    · rcases List.mem_cons.mp ht with rfl | ht
      · exact ⟨stack, hs⟩
      · exact h.sections t (List.mem_append_right _ (List.mem_cons_of_mem _ ht))
  · have happart := h.apart
    simp only [List.pairwise_append, List.pairwise_cons, List.mem_cons, forall_eq_or_imp,
      SectionInfo.Apart] at happart ⊢
    rw [hstart, hend]
    exact happart

/-- Different sections of a sound pool share no frame. -/
theorem PoolInv.covers_other (h : PoolInv (before ++ s :: after)) {t : SectionInfo}
    (ht : t ∈ before ∨ t ∈ after) {i : ℕ} (hi : i < s.totalFrames) : t.covers (s.frame i) = false := by
  obtain ⟨stack, hs⟩ := h.sections s (by simp)
  have happart := h.apart
  simp only [List.pairwise_append, List.pairwise_cons] at happart
  obtain ⟨-, ⟨hafter, -⟩, hbefore⟩ := happart
  rcases ht with ht | ht
  · exact hs.covers_of_apart (hbefore t ht s List.mem_cons_self).symm hi
  · exact hs.covers_of_apart (hafter t ht) hi

/-- The count of a frame is the one in its own section's record. -/
theorem PoolInv.usageCount_eq (h : PoolInv pool) (hs : s ∈ pool) {i : ℕ} (hi : i < s.totalFrames) :
    usageCount pool (s.frame i) = (s.frameArray i).usageCount := by
  obtain ⟨before, after, rfl⟩ := List.append_of_mem hs
  obtain ⟨stack, hinv⟩ := h.sections s hs
  obtain ⟨hcover, hindex⟩ := hinv.covers_frame hi
  rw [usageCount, getFrameInfo_append before after s _ (fun t ht => h.covers_other (Or.inl ht) hi) hcover,
    hindex]
  rfl

/-- A frame is covered, so it is managed. -/
theorem PoolInv.managed (h : PoolInv pool) {f : ℕ} (hf : IsFrame pool f) : ¬ Unmanaged pool f := by
  obtain ⟨s, hs, i, hi, rfl⟩ := hf
  obtain ⟨stack, hinv⟩ := h.sections s hs
  intro hnone
  have hcover := (hinv.covers_frame hi).1
  rw [SectionInfo.frame, hnone s hs] at hcover
  exact Bool.false_ne_true hcover

/-- Frames are page-aligned addresses that a 64-bit word holds. -/
theorem PoolInv.frame_aligned (h : PoolInv pool) {f : ℕ} (hf : IsFrame pool f) :
    f % 0x1000 = 0 ∧ f + 0x1000 < 2 ^ 64 := by
  obtain ⟨s, hs, i, hi, rfl⟩ := hf
  obtain ⟨stack, hinv⟩ := h.sections s hs
  have haligned := hinv.aligned
  have hfits := hinv.fits
  have hbounded := hinv.bounded
  unfold SectionInfo.frame at hfits
  omega

/-- Every frame's count fits its 32-bit field. -/
theorem PoolInv.usageCount_lt (h : PoolInv pool) {f : ℕ} (hf : IsFrame pool f) :
    usageCount pool f < 2 ^ 32 := by
  obtain ⟨s, hs, i, hi, rfl⟩ := hf
  obtain ⟨stack, hinv⟩ := h.sections s hs
  have := h.usageCount_eq hs hi
  rw [SectionInfo.frame] at this
  rw [this]
  exact hinv.counted i hi

/-- The free stacks hold exactly the unused frames from `0x200000` on. -/
theorem PoolInv.mem_freeFrames (h : PoolInv pool) (f : ℕ) :
    f ∈ freeFrames pool ↔ IsFrame pool f ∧ 0x200000 ≤ f ∧ usageCount pool f = 0 := by
  unfold freeFrames
  rw [List.mem_flatMap]
  constructor
  · rintro ⟨s, hs, hf⟩
    obtain ⟨stack, hinv⟩ := h.sections s hs
    rw [hinv.freeAddresses] at hf
    obtain ⟨i, hi, rfl⟩ := List.mem_map.mp hf
    obtain ⟨hlt, hhigh, hzero⟩ := (hinv.free i).mp hi
    exact ⟨⟨s, hs, i, hlt, rfl⟩, hhigh, (h.usageCount_eq hs hlt).trans hzero⟩
  · rintro ⟨⟨s, hs, i, hi, rfl⟩, hhigh, hzero⟩
    obtain ⟨stack, hinv⟩ := h.sections s hs
    have hcount := h.usageCount_eq hs hi
    rw [SectionInfo.frame, hzero] at hcount
    refine ⟨s, hs, ?_⟩
    rw [hinv.freeAddresses]
    exact List.mem_map.mpr ⟨i, (hinv.free i).mpr ⟨hi, hhigh, hcount.symm⟩, rfl⟩

/-- Counts after one section's records change at one frame. -/
theorem PoolInv.usageCount_replace (h : PoolInv (before ++ s :: after))
    (h' : PoolInv (before ++ s' :: after)) (hlayout : s'.layout = s.layout) {i count : ℕ}
    (hi : i < s.totalFrames)
    (hcount : ∀ j, (s'.frameArray j).usageCount = if j = i then count else (s.frameArray j).usageCount)
    {g : ℕ} (hg : IsFrame (before ++ s :: after) g) :
    usageCount (before ++ s' :: after) g =
      if g = s.frame i then count else usageCount (before ++ s :: after) g := by
  have hlayout' := hlayout
  simp only [SectionInfo.layout, Prod.mk.injEq] at hlayout'
  obtain ⟨hstart, -, htotal⟩ := hlayout'
  obtain ⟨t, ht, j, hj, rfl⟩ := hg
  change usageCount _ (t.frame j) = if t.frame j = _ then _ else usageCount _ (t.frame j)
  rw [h.usageCount_eq ht hj]
  have hcases : t = s ∨ t ∈ before ∨ t ∈ after := by
    rcases List.mem_append.mp ht with hb | hb
    · exact Or.inr (Or.inl hb)
    · rcases List.mem_cons.mp hb with rfl | hb
      · exact Or.inl rfl
      · exact Or.inr (Or.inr hb)
  rcases hcases with rfl | hother
  · have hframe : t.frame j = s'.frame j := by
      unfold SectionInfo.frame
      rw [hstart]
    rw [hframe, h'.usageCount_eq (by simp) (htotal ▸ hj), hcount]
    have heq : s'.frame j = t.frame i ↔ j = i := by
      unfold SectionInfo.frame
      rw [hstart]
      omega
    simp only [heq]
  · have hmem : t ∈ before ++ s' :: after := by
      rcases hother with hb | hb <;> simp [hb]
    have hne : t.frame j ≠ s.frame i := by
      intro heq
      obtain ⟨stackT, htinv⟩ := h.sections t ht
      have hcover := (htinv.covers_frame hj).1
      rw [heq, h.covers_other hother hi] at hcover
      exact Bool.false_ne_true hcover
    rw [h'.usageCount_eq hmem hj, if_neg hne]

end Pool

end Cthulhu
