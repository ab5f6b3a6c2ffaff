import Cthulhu.Memory.MakePool

/-!
# Frame lookup

`free_frame` and `get_frame_info` compute the index of a frame from its address and the start of the section. The
range they test ends with the region, and the frames end before it: behind the last frame there are as many bytes
as the division by the cost of a frame leaves over. The index is 32 bits wide.
-/

namespace Cthulhu

/-- The record that an index finds is the one of the frame of an address. -/
structure SectionInfo.FindsFrame (s : SectionInfo) (idx fa : ℕ) : Prop where
  index : idx < s.totalFrames
  record : (s.elements (s.frameArray idx).boundStackElement).frameAddress = align fa

/-- `free_frame` and `get_frame_info` find the record of the frame of an address, and treat an address without a frame
as one outside the pool. -/
structure SectionInfo.LooksUp (s : SectionInfo) (fa : ℕ) : Prop where
  finds : IsFrame [s] (align fa) → s.FindsFrame (s.index fa) fa ∧ s.FindsFrame (s.index (align fa)) fa
  outside : ¬ IsFrame [s] (align fa) → getFrameInfo [s] fa = none ∧ freeFrame [s] fa = ([s], none)

/-- A frame of the section, by its index. -/
theorem isFrame_singleton {s : SectionInfo} {f : ℕ} : IsFrame [s] f ↔ ∃ i < s.totalFrames, f = s.startWord + 0x1000 * i := by
  unfold IsFrame
  simp only [List.mem_singleton, exists_eq_left]

section Section

variable {length base fa : ℕ}

/-- In a section with an address the first frame is a whole page, and the frames end inside the region, wherever the
words wrap. -/
theorem poolStart_room (hlarge : 0x10000 ≤ length) (hlength : length < 2 ^ 64) (hbase : base < 2 ^ 64)
    (hroom : poolStart length base < add64 base length) : poolStart length base % 0x1000 = 0 ∧
      poolStart length base + 0x1000 * poolFrames length ≤ add64 base length := by
  have hframes := poolFrames_eq hlarge
  have hmetadata : poolMetadata length = 48 + 40 * poolFrames length := by
    unfold poolMetadata
    omega
  refine ⟨align_mod _, ?_⟩
  unfold poolStart at hroom ⊢
  rw [hmetadata] at hroom ⊢
  have hbehind := align_le (add64 (add64 base (48 + 40 * poolFrames length)) 0x1000)
  by_cases hwrap : base + length < 2 ^ 64
  · have hfirst : add64 base (48 + 40 * poolFrames length) = base + (48 + 40 * poolFrames length) :=
      add64_of_lt (by omega)
    have hsecond : add64 (base + (48 + 40 * poolFrames length)) 0x1000 = base + (48 + 40 * poolFrames length) + 0x1000 :=
      add64_of_lt (by omega)
    have hend : add64 base length = base + length := add64_of_lt hwrap
    rw [hfirst, hsecond] at hbehind ⊢
    rw [hend]
    omega
  · -- the end wraps, and so does the first frame below it
    have hend : add64 base length = base + length - 2 ^ 64 := by
      unfold add64
      omega
    have hstart : add64 (add64 base (48 + 40 * poolFrames length)) 0x1000 =
        (base + (48 + 40 * poolFrames length) + 0x1000) % 2 ^ 64 := by
      unfold add64
      omega
    rw [hend] at hroom ⊢
    rw [hstart] at hbehind hroom ⊢
    omega

/-- The first `n` elements and records of a section belong to its frames in their order. -/
def SectionInfo.Ordered (s : SectionInfo) : Prop :=
  ∀ i < s.totalFrames, (s.frameArray i).boundStackElement = i ∧ (s.elements i).frameAddress = s.startWord + 0x1000 * i

variable {s : SectionInfo}

/-- The page of an address is a frame when the address lies below the end of the frames. -/
theorem isFrame_align_iff (haligned : s.startWord % 0x1000 = 0) (hlow : s.startWord ≤ fa) :
    IsFrame [s] (align fa) ↔ (fa - s.startWord) / 0x1000 < s.totalFrames := by
  rw [isFrame_singleton]
  unfold align
  constructor
  · rintro ⟨i, hi, hfa⟩
    omega
  · intro h
    exact ⟨(fa - s.startWord) / 0x1000, h, by omega⟩

/-- An address and its page have the same index, the number of pages before it in 32 bits. -/
theorem SectionInfo.index_eq (haligned : s.startWord % 0x1000 = 0) (hlow : s.startWord ≤ fa) :
    s.index fa = (fa - s.startWord) / 0x1000 % 2 ^ 32 ∧ s.index (align fa) = s.index fa := by
  have halign := align_le fa
  have hmod := align_mod fa
  unfold SectionInfo.index
  rw [sub64_of_le hlow, sub64_of_le (by omega)]
  omega

/-- An index finds the frame of an address exactly when it is the number of pages before it. -/
theorem SectionInfo.Ordered.findsFrame_iff (h : s.Ordered) (haligned : s.startWord % 0x1000 = 0) (hlow : s.startWord ≤ fa)
    {idx : ℕ} : s.FindsFrame idx fa ↔ idx < s.totalFrames ∧ idx = (fa - s.startWord) / 0x1000 := by
  have halign := align_le fa
  have hmod := align_mod fa
  constructor
  · rintro ⟨hidx, hrecord⟩
    obtain ⟨hbound, haddress⟩ := h idx hidx
    rw [hbound, haddress] at hrecord
    exact ⟨hidx, by omega⟩
  · rintro ⟨hidx, heq⟩
    obtain ⟨hbound, haddress⟩ := h idx hidx
    refine ⟨hidx, ?_⟩
    rw [hbound, haddress]
    omega

/-- The lookup of an address in the range of an ordered section. -/
theorem SectionInfo.Ordered.looksUp_iff (h : s.Ordered) (haligned : s.startWord % 0x1000 = 0) (hlow : s.startWord ≤ fa)
    (hhigh : fa < s.endWord) : s.LooksUp fa ↔ fa - s.startWord < 0x1000 * min s.totalFrames (2 ^ 32) := by
  have hframe := isFrame_align_iff haligned hlow
  obtain ⟨hindex, hsame⟩ := SectionInfo.index_eq haligned hlow
  have hcovers : s.covers fa = true := by simp [SectionInfo.covers, hlow, hhigh]
  constructor
  · intro hlooks
    by_cases hisFrame : IsFrame [s] (align fa)
    · have hfinds := (h.findsFrame_iff haligned hlow).mp (hlooks.finds hisFrame).1
      have hbelow := hframe.mp hisFrame
      omega
    · -- the range test lets the address pass
      have hnone := (hlooks.outside hisFrame).1
      rw [getFrameInfo, if_pos hcovers] at hnone
      exact absurd hnone (by simp)
  · intro hbelow
    have hisFrame : IsFrame [s] (align fa) := hframe.mpr (by omega)
    have hfinds : s.FindsFrame (s.index fa) fa := (h.findsFrame_iff haligned hlow).mpr (by omega)
    exact ⟨fun _ => ⟨hfinds, by rwa [hsame]⟩, fun hnot => absurd hisFrame hnot⟩

end Section

/-- The lookup theorem: the lookup of an address in the range of a section is right exactly below the end of its frames
and of the reach of a 32-bit index. -/
theorem makePool_looksUp_iff (length base fa : ℕ) (stale : StaleMetadata) (hlarge : 0x10000 ≤ length)
    (hlength : length < 2 ^ 64) (hbase : base < 2 ^ 64) (hlow : (makePool length base stale).startWord ≤ fa)
    (hhigh : fa < (makePool length base stale).endWord) : (makePool length base stale).LooksUp fa ↔
      fa - (makePool length base stale).startWord < 0x1000 * min (makePool length base stale).totalFrames (2 ^ 32) := by
  have hlayout : (makePool length base stale).layout = (poolStart length base, add64 base length, poolFrames length) := by
    unfold makePool
    rw [linkElement_foldl_layout]
    rfl
  simp only [SectionInfo.layout, Prod.mk.injEq] at hlayout
  obtain ⟨hstart, hend, htotal⟩ := hlayout
  have hwords : add64 base length < 2 ^ 64 := add64_lt base length
  obtain ⟨haligned, hinside⟩ := poolStart_room hlarge hlength hbase (by omega)
  obtain ⟨last, hlinked⟩ : ∃ last, LinkInv (poolStart length base) (poolFrames length) (makePool length base stale, last) :=
    ⟨_, linkElement_foldl (by omega) _ rfl⟩
  have hordered : (makePool length base stale).Ordered := by
    intro i hi
    rw [htotal] at hi
    rw [hstart]
    exact ⟨hlinked.bound i hi, hlinked.address i hi⟩
  exact hordered.looksUp_iff (by rw [hstart]; exact haligned) hlow hhigh

/-- The lookup of the last byte of the last frame of a section. -/
theorem makePool_looksUp_iff_last : (makePool 0x10000 0x200000 zeroMetadata).LooksUp 0x20EFFF ↔
    0x20EFFF - (makePool 0x10000 0x200000 zeroMetadata).startWord <
      0x1000 * min (makePool 0x10000 0x200000 zeroMetadata).totalFrames (2 ^ 32) :=
  makePool_looksUp_iff 0x10000 0x200000 0x20EFFF zeroMetadata (by decide) (by decide) (by decide) (by decide) (by decide)

/-- The address behind the last frame passes the range test, and the record behind the last one is found for it. -/
theorem makePool_looksUp_tail : (makePool 0x10000 0x200000 zeroMetadata).covers 0x20F000 = true ∧
    (makePool 0x10000 0x200000 zeroMetadata).index 0x20F000 = (makePool 0x10000 0x200000 zeroMetadata).totalFrames ∧
    ¬ (makePool 0x10000 0x200000 zeroMetadata).LooksUp 0x20F000 := by
  refine ⟨by decide, by decide, fun h => ?_⟩
  have hnone := (h.outside (by rw [isFrame_singleton]; decide)).1
  exact absurd hnone (by decide)

end Cthulhu
