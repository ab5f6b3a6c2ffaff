import Cthulhu.Memory.MakePool

/-!
# The geometry of a section

`make_pool` puts the section header, the frame records and the stack elements one behind the other at the base
address, and the frames behind them at the next page boundary. The number of frames is one less than the quotient
that pays for a frame and its two records, and the page left over takes up the rounding.
-/

namespace Cthulhu

/-- A part of the metadata area: the `section_info_t`, a `frame_info_t` or a `stack_element_t`. -/
inductive PoolPart
  | header
  | record (i : ℕ)
  | element (i : ℕ)
  deriving DecidableEq, Repr

namespace PoolPart

/-- The part belongs to a section of so many frames. -/
def Used (n : ℕ) : PoolPart → Prop
  | header => True
  | record i => i < n
  | element i => i < n

/-- The size of the part. -/
def size : PoolPart → ℕ
  | header => 48
  | record _ => 16
  | element _ => 24

/-- The address at which `make_pool` puts the part. -/
def address (length base : ℕ) : PoolPart → ℕ
  | header => base
  | record i => add64 (add64 base 48) (16 * i)
  | element i => add64 (add64 (add64 base 48) (16 * poolFrames length)) (24 * i)

/-- The part takes up an address. -/
def Holds (length base a : ℕ) (p : PoolPart) : Prop :=
  p.address length base ≤ a ∧ a < p.address length base + p.size

end PoolPart

/-- The parts of the metadata tile its area, and the frames are whole pages between it and the end of the region. -/
structure PoolGeometry (length base : ℕ) (s : SectionInfo) : Prop where
  frames : s.totalFrames = poolFrames length ∧ 1 ≤ s.totalFrames
  apart : ∀ p q : PoolPart, p.Used s.totalFrames → q.Used s.totalFrames → p ≠ q →
    ∀ a, p.Holds length base a → ¬ q.Holds length base a
  fills : ∀ a, base ≤ a ∧ a < base + poolMetadata length ↔ ∃ p : PoolPart, p.Used s.totalFrames ∧ p.Holds length base a
  inside : ∀ i < s.totalFrames, (s.elements i).frameAddress = add64 s.startWord (0x1000 * i) ∧
    (s.elements i).frameAddress % 0x1000 = 0 ∧ base + poolMetadata length ≤ (s.elements i).frameAddress ∧
    (s.elements i).frameAddress + 0x1000 ≤ base + length

section Parts

variable {length base : ℕ}

/-- The size of the metadata, without a wrap. -/
theorem poolMetadata_eq (hlarge : 0x10000 ≤ length) (hlength : length < 2 ^ 64) :
    poolMetadata length = 48 + 40 * poolFrames length := by
  have hframes := poolFrames_eq hlarge
  unfold poolMetadata
  omega

/-- The addresses of the used parts, without a wrap. -/
theorem PoolPart.address_eq (hlarge : 0x10000 ≤ length) (hfits : base + length < 2 ^ 64) {p : PoolPart}
    (hp : p.Used (poolFrames length)) : p.address length base = match p with
      | .header => base
      | .record i => base + 48 + 16 * i
      | .element i => base + 48 + 16 * poolFrames length + 24 * i := by
  have hframes := poolFrames_eq hlarge
  have hfirst : add64 base 48 = base + 48 := add64_of_lt (by omega)
  cases p with
  | header => rfl
  | record i =>
    have hi : i < poolFrames length := hp
    rw [PoolPart.address, hfirst]
    exact add64_of_lt (by omega)
  | element i =>
    have hi : i < poolFrames length := hp
    have hsecond : add64 (base + 48) (16 * poolFrames length) = base + 48 + 16 * poolFrames length :=
      add64_of_lt (by omega)
    rw [PoolPart.address, hfirst, hsecond]
    exact add64_of_lt (by omega)

/-- Two parts take up no address together. -/
theorem PoolPart.apart (hlarge : 0x10000 ≤ length) (hfits : base + length < 2 ^ 64) {p q : PoolPart}
    (hp : p.Used (poolFrames length)) (hq : q.Used (poolFrames length)) (hne : p ≠ q) {a : ℕ}
    (ha : p.Holds length base a) : ¬ q.Holds length base a := by
  intro hb
  unfold Holds at ha hb
  rw [address_eq hlarge hfits hp] at ha
  rw [address_eq hlarge hfits hq] at hb
  cases p with
  | header =>
    cases q with
    | header => exact hne rfl
    | record j | element j =>
      simp only [size] at ha hb
      omega
  | record i =>
    have hi : i < poolFrames length := hp
    cases q with
    | header | element j =>
      simp only [size] at ha hb
      omega
    | record j =>
      have hij : i ≠ j := fun heq => hne (by rw [heq])
      simp only [size] at ha hb
      omega
  | element i =>
    cases q with
    | header =>
      simp only [size] at ha hb
      omega
    | record j =>
      have hj : j < poolFrames length := hq
      simp only [size] at ha hb
      omega
    | element j =>
      have hij : i ≠ j := fun heq => hne (by rw [heq])
      simp only [size] at ha hb
      omega

/-- The parts take up the metadata area and nothing else. -/
theorem PoolPart.fills (hlarge : 0x10000 ≤ length) (hfits : base + length < 2 ^ 64) (a : ℕ) :
    base ≤ a ∧ a < base + poolMetadata length ↔
      ∃ p : PoolPart, p.Used (poolFrames length) ∧ p.Holds length base a := by
  rw [poolMetadata_eq hlarge (by omega)]
  constructor
  · rintro ⟨hlow, hhigh⟩
    by_cases hheader : a < base + 48
    · have hused : PoolPart.header.Used (poolFrames length) := True.intro
      refine ⟨_, hused, ?_⟩
      rw [Holds, address_eq hlarge hfits hused]
      exact ⟨hlow, hheader⟩
    by_cases hrecord : a < base + 48 + 16 * poolFrames length
    · have hused : (PoolPart.record ((a - base - 48) / 16)).Used (poolFrames length) := by
        unfold Used
        omega
      refine ⟨_, hused, ?_⟩
      rw [Holds, address_eq hlarge hfits hused]
      simp only [size]
      omega
    · have hused : (PoolPart.element ((a - base - 48 - 16 * poolFrames length) / 24)).Used (poolFrames length) := by
        unfold Used
        omega
      refine ⟨_, hused, ?_⟩
      rw [Holds, address_eq hlarge hfits hused]
      simp only [size]
      omega
  · rintro ⟨p, hp, ha⟩
    rw [Holds, address_eq hlarge hfits hp] at ha
    cases p with
    | header =>
      simp only [size] at ha
      omega
    | record i | element i =>
      have hi : i < poolFrames length := hp
      simp only [size] at ha
      omega

end Parts

/-- The geometry theorem: in every region of at least 64 KiB the metadata and the frames of the section stay inside
and apart. -/
theorem makePool_geometry (length base : ℕ) (stale : StaleMetadata) (hlarge : 0x10000 ≤ length)
    (hfits : base + length < 2 ^ 64) : PoolGeometry length base (makePool length base stale) := by
  have hlayout := makePool_layout hfits stale
  simp only [SectionInfo.layout, Prod.mk.injEq] at hlayout
  obtain ⟨hstart, -, htotal⟩ := hlayout
  have hframes := poolFrames_eq hlarge
  have hmetadata := poolMetadata_eq hlarge (show length < 2 ^ 64 by omega)
  obtain ⟨haligned, hbehind, hend⟩ := poolStart_bounds hlarge hfits
  obtain ⟨last, hlinked⟩ := makePool_linked hlarge hfits stale
  constructor
  · rw [htotal]
    exact ⟨rfl, by omega⟩
  · intro p q hp hq hne a
    rw [htotal] at hp hq
    exact PoolPart.apart hlarge hfits hp hq hne
  · rw [htotal]
    exact PoolPart.fills hlarge hfits
  · intro i hi
    rw [htotal] at hi
    have haddress : ((makePool length base stale).elements i).frameAddress = poolStart length base + 0x1000 * i :=
      hlinked.address i hi
    have hword : add64 (poolStart length base) (0x1000 * i) = poolStart length base + 0x1000 * i :=
      add64_of_lt (by omega)
    rw [hstart, haddress, hword]
    omega

/-- The geometry of an unaligned region of 64 KiB. -/
theorem makePool_geometry_unaligned :
    PoolGeometry 0x10000 0x200001 (makePool 0x10000 0x200001 zeroMetadata) :=
  makePool_geometry 0x10000 0x200001 zeroMetadata (by decide) (by decide)

end Cthulhu
