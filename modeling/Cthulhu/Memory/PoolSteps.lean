import Cthulhu.Memory.FramePool

/-!
# What one pool operation does

Each pool function changes at most one section. The lemmas here say which one and how,
without any invariant; later proofs take these cases apart and never unfold the recursion
over the sections again.
-/

namespace Cthulhu

/-- The section after its first free element is taken. -/
def SectionInfo.pop (s : SectionInfo) (e : ℕ) : SectionInfo :=
  { s with
    head := (s.elements e).next
    frameArray := Function.update s.frameArray (s.elements e).arrayOrd
      { s.frameArray (s.elements e).arrayOrd with usageCount := 1 } }

/-- The section after a write to one frame record. -/
def SectionInfo.write (s : SectionInfo) (i : ℕ) (f : FrameInfo → FrameInfo) : SectionInfo :=
  { s with frameArray := Function.update s.frameArray i (f (s.frameArray i)) }

/-- Either every stack is empty, or the first section with a free frame gives one up. -/
theorem getFreeFrame_cases (pool : List SectionInfo) :
    ((getFreeFrame pool).1 = 0 ∧ (getFreeFrame pool).2 = pool ∧ ∀ s ∈ pool, s.head = none) ∨
      ∃ before s after e, pool = before ++ s :: after ∧ (∀ t ∈ before, t.head = none) ∧
        s.head = some e ∧ (getFreeFrame pool).1 = (s.elements e).frameAddress ∧
        (getFreeFrame pool).2 = before ++ s.pop e :: after := by
  induction pool with
  | nil => exact Or.inl ⟨rfl, rfl, by simp⟩
  | cons s rest ih =>
    cases hhead : s.head with
    | some e =>
      refine Or.inr ⟨[], s, rest, e, rfl, by simp, hhead, ?_, ?_⟩
      · simp only [getFreeFrame, hhead]
      · simp only [getFreeFrame, hhead, SectionInfo.pop, List.nil_append]
    | none =>
      rcases ih with ⟨hzero, hsame, hnone⟩ | ⟨before, t, after, e, rfl, hbefore, ht, haddr, hpool⟩
      · refine Or.inl ⟨?_, ?_, ?_⟩
        · simp only [getFreeFrame, hhead, hzero]
        · simp only [getFreeFrame, hhead, hsame]
        · simpa [hhead] using hnone
      · refine Or.inr ⟨s :: before, t, after, e, rfl, ?_, ht, ?_, ?_⟩
        · simpa [hhead] using hbefore
        · simp only [getFreeFrame, hhead, haddr]
        · simp only [getFreeFrame, hhead, hpool, List.cons_append]

/-- Releasing changes the first section that covers the address. -/
theorem releaseFrame_append (before after : List SectionInfo) (s : SectionInfo) (fa : ℕ)
    (hbefore : ∀ t ∈ before, t.covers fa = false) (hs : s.covers fa = true) :
    releaseFrame (before ++ s :: after) fa =
      (before ++ (s.release (s.index fa)).1 :: after, (s.release (s.index fa)).2) := by
  induction before with
  | nil => simp [releaseFrame, hs]
  | cons t before ih =>
    have ht := hbefore t List.mem_cons_self
    have hrest := ih fun u hu => hbefore u (List.mem_cons_of_mem t hu)
    simp [releaseFrame, ht, hrest]

/-- Releasing an address in no section changes nothing. -/
theorem releaseFrame_none (pool : List SectionInfo) (fa : ℕ) (h : ∀ s ∈ pool, s.covers fa = false) :
    releaseFrame pool fa = (pool, none) := by
  induction pool with
  | nil => rfl
  | cons s rest ih =>
    have hs := h s List.mem_cons_self
    have hrest := ih fun u hu => h u (List.mem_cons_of_mem s hu)
    simp [releaseFrame, hs, hrest]

/-- A record write changes the first section that covers the address. -/
theorem setFrameInfo_append (before after : List SectionInfo) (s : SectionInfo) (fa : ℕ)
    (f : FrameInfo → FrameInfo) (hbefore : ∀ t ∈ before, t.covers fa = false) (hs : s.covers fa = true) :
    setFrameInfo (before ++ s :: after) fa f = before ++ s.write (s.index fa) f :: after := by
  induction before with
  | nil => simp [setFrameInfo, hs, SectionInfo.write]
  | cons t before ih =>
    have ht := hbefore t List.mem_cons_self
    have hrest := ih fun u hu => hbefore u (List.mem_cons_of_mem t hu)
    simp [setFrameInfo, ht, hrest]

/-- A record write to an address in no section changes nothing. -/
theorem setFrameInfo_none (pool : List SectionInfo) (fa : ℕ) (f : FrameInfo → FrameInfo)
    (h : ∀ s ∈ pool, s.covers fa = false) : setFrameInfo pool fa f = pool := by
  induction pool with
  | nil => rfl
  | cons s rest ih =>
    have hs := h s List.mem_cons_self
    have hrest := ih fun u hu => h u (List.mem_cons_of_mem s hu)
    simp [setFrameInfo, hs, hrest]

/-- The record found is the one of the first section that covers the address. -/
theorem getFrameInfo_append (before after : List SectionInfo) (s : SectionInfo) (fa : ℕ)
    (hbefore : ∀ t ∈ before, t.covers fa = false) (hs : s.covers fa = true) :
    getFrameInfo (before ++ s :: after) fa = some (s.frameArray (s.index fa)) := by
  induction before with
  | nil => simp [getFrameInfo, hs]
  | cons t before ih =>
    have ht := hbefore t List.mem_cons_self
    simp only [List.cons_append, getFrameInfo, ht]
    exact ih fun u hu => hbefore u (List.mem_cons_of_mem t hu)

/-- No record is found exactly when no section covers the address. -/
theorem getFrameInfo_eq_none (pool : List SectionInfo) (fa : ℕ) :
    getFrameInfo pool fa = none ↔ ∀ s ∈ pool, s.covers fa = false := by
  induction pool with
  | nil => simp [getFrameInfo]
  | cons s rest ih => cases hs : s.covers fa <;> simp [getFrameInfo, hs, ih]

/-- The free frames of a pool, split at one section. -/
theorem freeFrames_append (before after : List SectionInfo) (s : SectionInfo) :
    freeFrames (before ++ s :: after) = freeFrames before ++
      ((s.freeStack.map fun i => (s.elements i).frameAddress) ++ freeFrames after) := by
  simp [freeFrames]

end Cthulhu
