import Mathlib.Data.List.Perm.Basic
import Cthulhu.Memory.MakePool

/-!
# Operations of the frame pool

Specifications of taking, sharing and releasing a frame of a sound pool: which frame moves,
how the counts change, and that the sections keep their layout. No operation of the pool
marks a frame as copied on write.
-/

namespace Cthulhu

open Lib

section Operations

variable {pool : List SectionInfo}

/-- Taking a frame fails only on an empty pool, and otherwise removes the first free frame. -/
theorem PoolInv.getFreeFrame (h : PoolInv pool) :
    ((getFreeFrame pool).1 = 0 ∧ (getFreeFrame pool).2 = pool ∧ ∀ s ∈ pool, s.head = none) ∨
      (IsFrame pool (getFreeFrame pool).1 ∧ 0x200000 ≤ (getFreeFrame pool).1 ∧
        PoolInv (getFreeFrame pool).2 ∧
        (getFreeFrame pool).2.map SectionInfo.layout = pool.map SectionInfo.layout ∧
        freeFrames pool = (getFreeFrame pool).1 :: freeFrames (getFreeFrame pool).2 ∧
        ∀ g, IsFrame pool g → usageCount (getFreeFrame pool).2 g =
          if g = (getFreeFrame pool).1 then 1 else usageCount pool g) := by
  rcases getFreeFrame_cases pool with hempty | ⟨before, s, after, e, rfl, hbefore, hhead, haddr, hpool⟩
  · exact Or.inl hempty
  right
  obtain ⟨stack, hinv⟩ := h.sections s (by simp)
  obtain ⟨tail, rfl, htail, husage⟩ := hinv.pop hhead
  obtain ⟨hlt, hhigh, -⟩ := (hinv.free e).mp List.mem_cons_self
  have hframe : (Cthulhu.getFreeFrame (before ++ s :: after)).1 = s.frame e := haddr.trans (hinv.address e hlt)
  have hinv' : PoolInv (before ++ s.pop e :: after) := h.replace htail rfl
  have hskip : freeFrames before = [] := by
    unfold freeFrames
    rw [List.flatMap_eq_nil_iff]
    intro t ht
    obtain ⟨stackT, htinv⟩ := h.sections t (by simp [ht])
    have hnil : stackT = [] := by
      have hlinked := htinv.linked
      rw [hbefore t ht] at hlinked
      exact hlinked.eq_nil
    rw [htinv.freeAddresses, hnil, List.map_nil]
  rw [hframe, hpool]
  refine ⟨⟨s, by simp, e, hlt, rfl⟩, hhigh, hinv', by simp [SectionInfo.layout, SectionInfo.pop], ?_, ?_⟩
  · rw [freeFrames_append, freeFrames_append, hskip, hinv.freeAddresses, htail.freeAddresses]
    rfl
  · intro g hg
    exact h.usageCount_replace hinv' rfl hlt husage hg

/-- Releasing a used frame lowers its count; the last release returns and clears it. -/
theorem PoolInv.releaseFrame (h : PoolInv pool) {f : ℕ} (hf : IsFrame pool f) (hhigh : 0x200000 ≤ f)
    (hused : 1 ≤ usageCount pool f) :
    PoolInv (releaseFrame pool f).1 ∧
      (releaseFrame pool f).1.map SectionInfo.layout = pool.map SectionInfo.layout ∧
      (∀ g, IsFrame pool g → usageCount (releaseFrame pool f).1 g =
        if g = f then usageCount pool f - 1 else usageCount pool g) ∧
      ((usageCount pool f = 1 ∧ (releaseFrame pool f).2 = some f ∧
          (freeFrames (releaseFrame pool f).1).Perm (f :: freeFrames pool)) ∨
        (2 ≤ usageCount pool f ∧ (releaseFrame pool f).2 = none ∧
          freeFrames (releaseFrame pool f).1 = freeFrames pool)) := by
  obtain ⟨s, hs, i, hi, hfi⟩ := hf
  obtain rfl : f = s.frame i := hfi
  obtain ⟨before, after, rfl⟩ := List.append_of_mem hs
  obtain ⟨stack, hinv⟩ := h.sections s hs
  have hcount := h.usageCount_eq hs hi
  obtain ⟨hcover, hindex⟩ := hinv.covers_frame hi
  have hrelease := releaseFrame_append before after s (s.frame i)
    (fun t ht => h.covers_other (Or.inl ht) hi) hcover
  rw [hindex] at hrelease
  have hlayout : (s.release i).1.layout = s.layout := by
    unfold SectionInfo.release
    dsimp only
    split <;> rfl
  rw [hrelease]
  rw [hcount] at hused
  by_cases hlast : (s.frameArray i).usageCount = 1
  · obtain ⟨hinv', hclear, husage⟩ := hinv.release_last hi hhigh hlast
    have hpool' : PoolInv (before ++ (s.release i).1 :: after) := h.replace hinv' hlayout
    refine ⟨hpool', by simp [hlayout], fun g hg => ?_, Or.inl ⟨hcount.trans hlast, hclear, ?_⟩⟩
    · rw [h.usageCount_replace hpool' hlayout hi husage hg, hcount, hlast]
    · have hframe : (s.release i).1.frame = s.frame := by
        funext j
        unfold SectionInfo.frame
        rw [show (s.release i).1.startWord = s.startWord from congrArg Prod.fst hlayout]
      rw [freeFrames_append, freeFrames_append, hinv.freeAddresses, hinv'.freeAddresses, hframe,
        List.map_cons, List.cons_append]
      exact List.perm_middle
  · obtain ⟨hinv', hclear, husage⟩ := hinv.release_shared hi (by omega)
    have hpool' : PoolInv (before ++ (s.release i).1 :: after) := h.replace hinv' hlayout
    refine ⟨hpool', by simp [hlayout], fun g hg => ?_, Or.inr ⟨by omega, hclear, ?_⟩⟩
    · rw [h.usageCount_replace hpool' hlayout hi husage hg, hcount]
    · have hframe : (s.release i).1.frame = s.frame := by
        funext j
        unfold SectionInfo.frame
        rw [show (s.release i).1.startWord = s.startWord from congrArg Prod.fst hlayout]
      rw [freeFrames_append, freeFrames_append, hinv.freeAddresses, hinv'.freeAddresses, hframe]

/-- Sharing a used frame raises its count by one, as long as the field can hold it. -/
theorem PoolInv.incrementUsage (h : PoolInv pool) {f : ℕ} (hf : IsFrame pool f)
    (hused : 1 ≤ usageCount pool f) (hroom : usageCount pool f + 1 < 2 ^ 32) :
    PoolInv (incrementUsage pool f) ∧
      (incrementUsage pool f).map SectionInfo.layout = pool.map SectionInfo.layout ∧
      (∀ g, IsFrame pool g → usageCount (incrementUsage pool f) g =
        if g = f then usageCount pool f + 1 else usageCount pool g) ∧
      freeFrames (incrementUsage pool f) = freeFrames pool := by
  obtain ⟨s, hs, i, hi, hfi⟩ := hf
  obtain rfl : f = s.frame i := hfi
  obtain ⟨before, after, rfl⟩ := List.append_of_mem hs
  obtain ⟨stack, hinv⟩ := h.sections s hs
  have hcount := h.usageCount_eq hs hi
  obtain ⟨hcover, hindex⟩ := hinv.covers_frame hi
  have hwrite := setFrameInfo_append before after s (s.frame i) FrameInfo.incrementUsage
    (fun t ht => h.covers_other (Or.inl ht) hi) hcover
  rw [hindex] at hwrite
  rw [hcount] at hused hroom
  have hnew : (s.frameArray i).incrementUsage.usageCount = (s.frameArray i).usageCount + 1 :=
    Nat.mod_eq_of_lt hroom
  have hinv' : SectionInv (s.write i FrameInfo.incrementUsage) stack :=
    hinv.write rfl (by omega) (by omega) (by omega)
  have hpool' : PoolInv (before ++ s.write i FrameInfo.incrementUsage :: after) := h.replace hinv' rfl
  unfold Cthulhu.incrementUsage
  rw [hwrite]
  refine ⟨hpool', by simp [SectionInfo.layout, SectionInfo.write], fun g hg => ?_, ?_⟩
  · have husage (j : ℕ) : ((s.write i FrameInfo.incrementUsage).frameArray j).usageCount =
        if j = i then (s.frameArray i).usageCount + 1 else (s.frameArray j).usageCount := by
      simp only [SectionInfo.write, Function.update_apply]
      split
      · exact hnew
      · rfl
    rw [h.usageCount_replace hpool' rfl hi husage hg, hcount]
  · rw [freeFrames_append, freeFrames_append, hinv.freeAddresses, hinv'.freeAddresses]
    rfl

/-- The free frames of a sound pool are listed once. -/
theorem PoolInv.freeFrames_nodup (h : PoolInv pool) : (freeFrames pool).Nodup := by
  unfold freeFrames
  rw [List.nodup_flatMap]
  constructor
  · intro s hs
    obtain ⟨stack, hinv⟩ := h.sections s hs
    rw [hinv.freeAddresses]
    refine hinv.nodup.map ?_
    intro i j hij
    unfold SectionInfo.frame at hij
    omega
  · refine List.Pairwise.imp_of_mem ?_ h.apart
    intro s t hs ht hapart f hfs hft
    obtain ⟨stack, hinv⟩ := h.sections s hs
    obtain ⟨stackT, hinvT⟩ := h.sections t ht
    change f ∈ s.freeStack.map fun i => (s.elements i).frameAddress at hfs
    change f ∈ t.freeStack.map fun i => (t.elements i).frameAddress at hft
    rw [hinv.freeAddresses] at hfs
    rw [hinvT.freeAddresses] at hft
    obtain ⟨i, hi, rfl⟩ := List.mem_map.mp hfs
    obtain ⟨j, hj, hij⟩ := List.mem_map.mp hft
    have hcover := (hinvT.covers_frame ((hinvT.free j).mp hj).1).1
    rw [hij, hinv.covers_of_apart hapart ((hinv.free i).mp hi).1] at hcover
    exact Bool.false_ne_true hcover

/-- A frame taken from the pool was free, and every other frame stays as it was. -/
theorem PoolInv.taken (h : PoolInv pool) {f : ℕ} (hf : f = (Cthulhu.getFreeFrame pool).1)
    (hne : f ≠ 0) :
    IsFrame pool f ∧ 0x200000 ≤ f ∧ PoolInv (Cthulhu.getFreeFrame pool).2 ∧
      (Cthulhu.getFreeFrame pool).2.map SectionInfo.layout = pool.map SectionInfo.layout ∧
      freeFrames pool = f :: freeFrames (Cthulhu.getFreeFrame pool).2 ∧
      ∀ g, IsFrame pool g → usageCount (Cthulhu.getFreeFrame pool).2 g = if g = f then 1 else usageCount pool g := by
  subst hf
  rcases h.getFreeFrame with ⟨hzero, -⟩ | hsome
  · exact absurd hzero hne
  · exact hsome

/-- Where no frame can be taken, none is free. -/
theorem PoolInv.freeFrames_of_exhausted (h : PoolInv pool) (hzero : (Cthulhu.getFreeFrame pool).1 = 0) :
    freeFrames pool = [] := by
  rcases h.getFreeFrame with ⟨-, -, hnone⟩ | ⟨-, hhigh, -⟩
  · refine List.flatMap_eq_nil_iff.mpr fun s hs => ?_
    obtain ⟨stack, hinv⟩ := h.sections s hs
    have hlinked := hinv.linked
    rw [hnone s hs] at hlinked
    rw [hinv.freeStack_eq, hlinked.eq_nil]
    rfl
  · omega

/-- A pool keeps its sections when a frame is taken. -/
theorem getFreeFrame_ne_nil (h : pool ≠ []) : (getFreeFrame pool).2 ≠ [] := by
  cases pool with
  | nil => exact absurd rfl h
  | cons s rest =>
    unfold getFreeFrame
    split <;> simp

end Operations

/-- No frame of the pool is marked as copied on write. -/
def CowFree (pool : List SectionInfo) : Prop :=
  ∀ s ∈ pool, ∀ i < s.totalFrames, (s.frameArray i).cowCount = 0

section CowFree

variable {pool : List SectionInfo}

/-- The property is one of each section. -/
theorem cowFree_cons {s : SectionInfo} :
    CowFree (s :: pool) ↔ (∀ i < s.totalFrames, (s.frameArray i).cowCount = 0) ∧ CowFree pool :=
  List.forall_mem_cons

/-- The record of a frame carries no copy mark. -/
theorem CowFree.getFrameInfo (h : CowFree pool) (hpool : PoolInv pool) {f : ℕ} (hf : IsFrame pool f) :
    ∃ fi, getFrameInfo pool f = some fi ∧ fi.cowCount = 0 := by
  obtain ⟨s, hs, i, hi, hfi⟩ := hf
  obtain rfl : f = s.frame i := hfi
  obtain ⟨before, after, rfl⟩ := List.append_of_mem hs
  obtain ⟨stack, hinv⟩ := hpool.sections s hs
  obtain ⟨hcover, hindex⟩ := hinv.covers_frame hi
  have hread := getFrameInfo_append before after s (s.frame i)
    (fun t ht => hpool.covers_other (Or.inl ht) hi) hcover
  rw [hindex] at hread
  exact ⟨_, hread, h s hs i hi⟩

/-- Taking a frame marks none. -/
theorem CowFree.getFreeFrame (h : CowFree pool) : CowFree (Cthulhu.getFreeFrame pool).2 := by
  induction pool with
  | nil => exact h
  | cons s rest ih =>
    rw [cowFree_cons] at h
    unfold Cthulhu.getFreeFrame
    split
    · refine cowFree_cons.mpr ⟨fun i hi => ?_, h.2⟩
      simp only [Function.update_apply]
      split
      next heq => exact heq ▸ h.1 i hi
      next => exact h.1 i hi
    · exact cowFree_cons.mpr ⟨h.1, ih h.2⟩

/-- A release lowers the counts in one record and keeps the number of records. -/
theorem SectionInfo.release_records (s : SectionInfo) (idx : ℕ) :
    (s.release idx).1.totalFrames = s.totalFrames ∧
      ∀ i, ((s.release idx).1.frameArray i).cowCount ≤ (s.frameArray i).cowCount := by
  unfold SectionInfo.release
  dsimp only
  split <;>
  · refine ⟨rfl, fun i => ?_⟩
    simp only [Function.update_apply]
    split
    next heq =>
      subst heq
      dsimp only
      split <;> omega
    next => exact Nat.le_refl _

/-- Releasing a frame marks none. -/
theorem CowFree.releaseFrame (h : CowFree pool) (fa : ℕ) : CowFree (Cthulhu.releaseFrame pool fa).1 := by
  induction pool with
  | nil => exact h
  | cons s rest ih =>
    rw [cowFree_cons] at h
    unfold Cthulhu.releaseFrame
    split
    · refine cowFree_cons.mpr ⟨fun i hi => ?_, h.2⟩
      obtain ⟨htotal, hcow⟩ := s.release_records (s.index fa)
      rw [htotal] at hi
      exact Nat.le_zero.mp (h.1 i hi ▸ hcow i)
    · exact cowFree_cons.mpr ⟨h.1, ih h.2⟩

/-- Raising a use count marks none. -/
theorem CowFree.incrementUsage (h : CowFree pool) (fa : ℕ) : CowFree (Cthulhu.incrementUsage pool fa) := by
  unfold Cthulhu.incrementUsage
  induction pool with
  | nil => exact h
  | cons s rest ih =>
    rw [cowFree_cons] at h
    unfold setFrameInfo
    split
    · refine cowFree_cons.mpr ⟨fun i hi => ?_, h.2⟩
      simp only [Function.update_apply]
      split
      next heq => exact heq ▸ h.1 i hi
      next => exact h.1 i hi
    · exact cowFree_cons.mpr ⟨h.1, ih h.2⟩

end CowFree

end Cthulhu
