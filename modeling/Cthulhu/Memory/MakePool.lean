import Mathlib.Data.List.Range
import Cthulhu.Memory.PoolInvariant

/-!
# Sections built by `make_pool`

The geometry of a region large enough for `make_pool`, and the loop that links its stack
elements. Frames below `0x200000` come first, so the linked elements are the remaining ones
in increasing order.
-/

namespace Cthulhu

open Lib

/-- A region the callers of `make_pool` pass: large enough, not at the null address, and
without 64-bit wrap-around. -/
structure Region where
  base : ℕ
  length : ℕ
  stale : StaleMetadata
  positive : 0 < base
  large : 0x10000 ≤ length
  fits : base + length < 2 ^ 64

/-- Metadata areas that were zero. -/
def zeroMetadata : StaleMetadata := ⟨fun _ => ⟨0, 0, 0⟩, fun _ => ⟨0, 0, none⟩⟩

/-- The section `make_pool` lays over a region. -/
def Region.build (r : Region) : SectionInfo := makePool r.length r.base r.stale

/-- The whole address ranges of two regions do not meet. -/
def Region.Apart (r q : Region) : Prop := r.base + r.length ≤ q.base ∨ q.base + q.length ≤ r.base

/-- The number of frames, without the wrap of the source's unsigned arithmetic. -/
theorem poolFrames_eq {length : ℕ} (hlarge : 0x10000 ≤ length) : poolFrames length = (length - 48) / 4136 - 1 := by
  have hbody : sub64 length 48 = length - 48 := sub64_of_le (by omega)
  unfold poolFrames
  rw [hbody]
  exact sub64_of_le (by omega)

/-- The first frame lies behind the metadata and the last one inside the region. -/
theorem poolStart_bounds {length base : ℕ} (hlarge : 0x10000 ≤ length) (hfits : base + length < 2 ^ 64) :
    poolStart length base % 0x1000 = 0 ∧ base + 48 + 40 * poolFrames length ≤ poolStart length base ∧
      poolStart length base + 0x1000 * poolFrames length ≤ base + length := by
  have hframes := poolFrames_eq hlarge
  have hmeta : poolMetadata length = 48 + 40 * poolFrames length := by
    unfold poolMetadata
    omega
  have hstart : poolStart length base = align (base + (48 + 40 * poolFrames length) + 0x1000) := by
    have hbehind : add64 base (48 + 40 * poolFrames length) =
        base + (48 + 40 * poolFrames length) := add64_of_lt (by omega)
    unfold poolStart
    rw [hmeta, hbehind, add64_of_lt (by omega)]
  have halign := align_le (base + (48 + 40 * poolFrames length) + 0x1000)
  rw [← hstart] at halign
  refine ⟨by rw [hstart]; exact align_mod _, by omega, by omega⟩

/-- The indices of the frames that start at or above `0x200000`. -/
def highIndices (start n : ℕ) : List ℕ := (List.range n).filter fun i => 0x200000 ≤ start + 0x1000 * i

/-- One more index extends the list when its frame is high. -/
theorem highIndices_succ (start n : ℕ) : highIndices start (n + 1) =
    highIndices start n ++ if 0x200000 ≤ start + 0x1000 * n then [n] else [] := by
  simp only [highIndices, List.range_succ, List.filter_append, List.filter_singleton,
    Bool.cond_decide]

/-- The high indices below a bound. -/
theorem mem_highIndices (start n i : ℕ) :
    i ∈ highIndices start n ↔ i < n ∧ 0x200000 ≤ start + 0x1000 * i := by
  simp [highIndices]

/-- The high indices are listed once. -/
theorem highIndices_nodup (start n : ℕ) : (highIndices start n).Nodup := List.nodup_range.filter _

/-- What `make_pool`'s loop has established after its first `n` rounds. -/
structure LinkInv (start n : ℕ) (st : SectionInfo × Option ℕ) : Prop where
  address : ∀ i < n, (st.1.elements i).frameAddress = start + 0x1000 * i
  ord : ∀ i < n, 0x200000 ≤ start + 0x1000 * i → (st.1.elements i).arrayOrd = i
  bound : ∀ i < n, (st.1.frameArray i).boundStackElement = i
  usage : ∀ i < n, (st.1.frameArray i).usageCount = if 0x200000 ≤ start + 0x1000 * i then 0 else 1
  cow : ∀ i < n, 0x200000 ≤ start + 0x1000 * i → (st.1.frameArray i).cowCount = 0
  linked : Linked (fun i => (st.1.elements i).next) st.1.head (highIndices start n)
  last : st.2 = (highIndices start n).getLast?

/-- A round over a low frame records it as used and leaves the stack alone. -/
theorem linkElement_low {start n : ℕ} {st : SectionInfo × Option ℕ} (h : LinkInv start n st)
    (hwrap : start + 0x1000 * n < 2 ^ 64) (hlow : ¬ 0x200000 ≤ start + 0x1000 * n) :
    LinkInv start (n + 1) (linkElement start st n) := by
  have haddr : add64 start (0x1000 * n) = start + 0x1000 * n := add64_of_lt hwrap
  have hstep : linkElement start st n =
      ({ st.1 with
          elements := Function.update st.1.elements n
            { st.1.elements n with frameAddress := start + 0x1000 * n }
          frameArray := Function.update st.1.frameArray n
            { st.1.frameArray n with usageCount := 1, boundStackElement := n } }, st.2) := by
    unfold linkElement
    rw [haddr]
    exact if_pos (by omega)
  have hsplit (i : ℕ) (hi : i < n + 1) : i = n ∨ i ≠ n ∧ i < n := by omega
  have hhigh : highIndices start (n + 1) = highIndices start n := by
    rw [highIndices_succ, if_neg hlow, List.append_nil]
  rw [hstep]
  constructor
  · intro i hi
    rcases hsplit i hi with rfl | ⟨hne, hlt⟩
    · simp
    · simpa [Function.update_of_ne hne] using h.address i hlt
  · intro i hi hihigh
    rcases hsplit i hi with rfl | ⟨hne, hlt⟩
    · exact absurd hihigh hlow
    · simpa [Function.update_of_ne hne] using h.ord i hlt hihigh
  · intro i hi
    rcases hsplit i hi with rfl | ⟨hne, hlt⟩
    · simp
    · simpa [Function.update_of_ne hne] using h.bound i hlt
  · intro i hi
    rcases hsplit i hi with rfl | ⟨hne, hlt⟩
    · simp [hlow]
    · simpa [Function.update_of_ne hne] using h.usage i hlt
  · intro i hi hihigh
    rcases hsplit i hi with rfl | ⟨hne, hlt⟩
    · exact absurd hihigh hlow
    · simpa [Function.update_of_ne hne] using h.cow i hlt hihigh
  · rw [hhigh]
    refine h.linked.congr fun i hi => ?_
    have hne : i ≠ n := by
      have := (mem_highIndices start n i).mp hi
      omega
    simp [Function.update_of_ne hne]
  · rw [hhigh]
    exact h.last

/-- A round over a high frame links its element behind the previous one. -/
theorem linkElement_high {start n : ℕ} {st : SectionInfo × Option ℕ} (h : LinkInv start n st)
    (hwrap : start + 0x1000 * n < 2 ^ 64) (hhigh : 0x200000 ≤ start + 0x1000 * n) :
    LinkInv start (n + 1) (linkElement start st n) := by
  have haddr : add64 start (0x1000 * n) = start + 0x1000 * n := add64_of_lt hwrap
  obtain ⟨s, prev⟩ := st
  have hstep : linkElement start (s, prev) n =
      ({ s with
          head := if prev = none then some n else s.head
          elements := Function.update (linkPrevious s.elements prev n) n ⟨start + 0x1000 * n, n, none⟩
          frameArray := Function.update s.frameArray n ⟨0, 0, n⟩ }, some n) := by
    unfold linkElement
    rw [haddr]
    exact if_neg (Nat.not_lt.mpr hhigh)
  have hfields (i : ℕ) : (linkPrevious s.elements prev n i).frameAddress = (s.elements i).frameAddress ∧
      (linkPrevious s.elements prev n i).arrayOrd = (s.elements i).arrayOrd := by
    cases prev with
    | none => exact ⟨rfl, rfl⟩
    | some p =>
      by_cases hip : i = p
      · subst hip
        simp [linkPrevious]
      · simp [linkPrevious, Function.update_of_ne hip]
  have hsplit (i : ℕ) (hi : i < n + 1) : i = n ∨ i ≠ n ∧ i < n := by omega
  have hindices : highIndices start (n + 1) = highIndices start n ++ [n] := by
    rw [highIndices_succ, if_pos hhigh]
  rw [hstep]
  constructor
  · intro i hi
    rcases hsplit i hi with rfl | ⟨hne, hlt⟩
    · simp
    · simpa [Function.update_of_ne hne, hfields] using h.address i hlt
  · intro i hi hihigh
    rcases hsplit i hi with rfl | ⟨hne, hlt⟩
    · simp
    · simpa [Function.update_of_ne hne, hfields] using h.ord i hlt hihigh
  · intro i hi
    rcases hsplit i hi with rfl | ⟨hne, hlt⟩
    · simp
    · simpa [Function.update_of_ne hne] using h.bound i hlt
  · intro i hi
    rcases hsplit i hi with rfl | ⟨hne, hlt⟩
    · simp [hhigh]
    · simpa [Function.update_of_ne hne] using h.usage i hlt
  · intro i hi hihigh
    rcases hsplit i hi with rfl | ⟨hne, hlt⟩
    · simp
    · simpa [Function.update_of_ne hne] using h.cow i hlt hihigh
  · rw [hindices]
    have hlinked := h.linked
    have hfresh : n ∉ highIndices start n := by simp [mem_highIndices]
    have hlast := h.last
    cases prev with
    | none =>
      -- nothing was linked before, so the new element becomes the head
      have hnil : highIndices start n = [] := List.getLast?_eq_none_iff.mp hlast.symm
      rw [hnil]
      refine .cons ?_
      simp only [Function.update_self]
      exact .nil
    | some p =>
      obtain ⟨init, hinit⟩ := List.getLast?_eq_some_iff.mp hlast.symm
      have hnodup := highIndices_nodup start n
      rw [hinit] at hlinked hfresh hnodup ⊢
      have hp : p ∉ init := by
        rw [List.nodup_append] at hnodup
        exact fun hmem => hnodup.2.2 p hmem p (by simp) rfl
      have hsnoc := hlinked.snoc hp hfresh
      rw [List.append_assoc]
      refine hsnoc.congr fun i _ => ?_
      by_cases hin : i = n
      · subst hin
        simp only [Function.update_self]
      · by_cases hip : i = p
        · subst hip
          simp only [linkPrevious, Function.update_of_ne hin, Function.update_self]
        · simp only [linkPrevious, Function.update_of_ne hin, Function.update_of_ne hip]
  · rw [hindices, List.getLast?_append_cons, List.getLast?_singleton]

/-- The finished loop, for any number of rounds that stays inside 64 bits. -/
theorem linkElement_foldl {start n : ℕ} (hwrap : start + 0x1000 * n < 2 ^ 64)
    (s : SectionInfo) (hempty : s.head = none) :
    LinkInv start n ((List.range n).foldl (linkElement start) (s, none)) := by
  induction n with
  | zero =>
    exact { address := by simp, ord := by simp, bound := by simp, usage := by simp, cow := by simp
            linked := by simpa [highIndices, hempty] using Linked.nil
            last := by simp [highIndices] }
  | succ n ih =>
    rw [List.range_succ, List.foldl_append, List.foldl_cons, List.foldl_nil]
    have hprevious := ih (by omega)
    by_cases hhigh : 0x200000 ≤ start + 0x1000 * n
    · exact linkElement_high hprevious (by omega) hhigh
    · exact linkElement_low hprevious (by omega) hhigh

/-- The loop never touches a section's bounds. -/
theorem linkElement_foldl_layout (start : ℕ) (l : List ℕ) (st : SectionInfo × Option ℕ) :
    (l.foldl (linkElement start) st).1.layout = st.1.layout := by
  induction l generalizing st with
  | nil => rfl
  | cons i l ih =>
    rw [List.foldl_cons, ih]
    simp only [linkElement]
    split <;> rfl

/-- The section of a region has the region's geometry. -/
theorem makePool_layout {length base : ℕ} (hfits : base + length < 2 ^ 64) (stale : StaleMetadata) :
    (makePool length base stale).layout = (poolStart length base, base + length, poolFrames length) := by
  have hend : add64 base length = base + length := add64_of_lt hfits
  unfold makePool
  rw [linkElement_foldl_layout]
  simp only [SectionInfo.layout, hend]

/-- What the loop leaves in the section of a region. -/
theorem makePool_linked {length base : ℕ} (hlarge : 0x10000 ≤ length) (hfits : base + length < 2 ^ 64)
    (stale : StaleMetadata) :
    ∃ last, LinkInv (poolStart length base) (poolFrames length) (makePool length base stale, last) := by
  have hbounds := poolStart_bounds hlarge hfits
  exact ⟨_, linkElement_foldl (by omega) _ rfl⟩

/-- The free stack of a new section holds only its own frames. -/
theorem mem_freeStack_makePool {length base f : ℕ} (hlarge : 0x10000 ≤ length) (hfits : base + length < 2 ^ 64)
    (stale : StaleMetadata)
    (hf : f ∈ (makePool length base stale).freeStack.map fun i => ((makePool length base stale).elements i).frameAddress) :
    ∃ i < poolFrames length, f = poolStart length base + 0x1000 * i := by
  obtain ⟨last, hlink⟩ := makePool_linked hlarge hfits stale
  have htotal : (makePool length base stale).totalFrames = poolFrames length :=
    congrArg (fun layout => layout.2.2) (makePool_layout hfits stale)
  have hshort : (highIndices (poolStart length base) (poolFrames length)).length ≤ poolFrames length := by
    refine (List.length_filter_le _ _).trans ?_
    rw [List.length_range]
  unfold SectionInfo.freeStack at hf
  rw [htotal, hlink.linked.follow_eq hshort] at hf
  obtain ⟨i, hi, rfl⟩ := List.mem_map.mp hf
  have hlt := ((mem_highIndices _ _ _).mp hi).1
  exact ⟨i, hlt, hlink.address i hlt⟩

/-- A built section has its region's geometry. -/
theorem Region.build_layout (r : Region) :
    r.build.layout = (poolStart r.length r.base, r.base + r.length, poolFrames r.length) :=
  makePool_layout r.fits r.stale

/-- A built section is linked. -/
theorem Region.build_linked (r : Region) :
    ∃ last, LinkInv (poolStart r.length r.base) (poolFrames r.length) (r.build, last) :=
  makePool_linked r.large r.fits r.stale

/-- A freshly built section with at most `2 ^ 32` frames is sound, its free stack holding
every frame from `0x200000` on. -/
theorem Region.build_inv (r : Region) (hindexed : poolFrames r.length ≤ 2 ^ 32) :
    SectionInv r.build (highIndices (poolStart r.length r.base) (poolFrames r.length)) := by
  obtain ⟨last, hlink⟩ := r.build_linked
  obtain ⟨haligned, -, hinside⟩ := poolStart_bounds r.large r.fits
  have hfits := r.fits
  have hlayout := r.build_layout
  simp only [SectionInfo.layout, Prod.mk.injEq] at hlayout
  obtain ⟨hstart, hend, htotal⟩ := hlayout
  have hframe (i : ℕ) : r.build.frame i = poolStart r.length r.base + 0x1000 * i := by
    unfold SectionInfo.frame
    rw [hstart]
  exact {
    aligned := by rw [hstart]; exact haligned
    fits := by rw [hframe, htotal, hend]; exact hinside
    bounded := by rw [hend]; exact hfits
    indexed := by rw [htotal]; exact hindexed
    address := fun i hi => by rw [hframe]; exact hlink.address i (htotal ▸ hi)
    ord := fun i hi hhigh => hlink.ord i (htotal ▸ hi) (by rwa [hframe] at hhigh)
    bound := fun i hi => hlink.bound i (htotal ▸ hi)
    counted := fun i hi => by
      have := hlink.usage i (htotal ▸ hi)
      simp only at this
      rw [this]
      split <;> decide
    linked := hlink.linked
    nodup := highIndices_nodup _ _
    free := fun i => by
      rw [mem_highIndices, hframe, htotal]
      constructor
      · rintro ⟨hi, hhigh⟩
        refine ⟨hi, hhigh, ?_⟩
        have := hlink.usage i hi
        rwa [if_pos hhigh] at this
      · rintro ⟨hi, hhigh, -⟩
        exact ⟨hi, hhigh⟩ }

/-- Disjoint regions whose frames a 32-bit index reaches build a sound pool. -/
theorem build_poolInv (regions : List Region) (hapart : regions.Pairwise Region.Apart)
    (hindexed : ∀ r ∈ regions, poolFrames r.length ≤ 2 ^ 32) : PoolInv (regions.map Region.build) := by
  constructor
  · intro s hs
    obtain ⟨r, hr, rfl⟩ := List.mem_map.mp hs
    exact ⟨_, r.build_inv (hindexed r hr)⟩
  · rw [List.pairwise_map]
    refine hapart.imp fun {r q} hrq => ?_
    have hr := r.build_layout
    have hq := q.build_layout
    have hrbounds := poolStart_bounds r.large r.fits
    have hqbounds := poolStart_bounds q.large q.fits
    simp only [SectionInfo.layout, Prod.mk.injEq] at hr hq
    unfold SectionInfo.Apart
    unfold Region.Apart at hrq
    omega

end Cthulhu
