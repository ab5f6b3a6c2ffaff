import Cthulhu.Memory.BootPool
import Mathlib.Data.Nat.Find

/-!
# The strings of the boot loader

`__strlen` reads physical memory through a window of two pages that `remap` moves every 0x1000 characters. The pointer is
physical before the first move and virtual behind it, so the second move maps the pages whose physical address is the
window's own virtual one.
-/

namespace Cthulhu

/-- Memory as the boot code finds it: the bytes of physical memory, the addresses that are mapped to themselves, the
low ones by the tables of `entry.s` and the others by `make_pool`, and the address `_frame_block` of the window. -/
structure BootMemory where
  bytes : ℕ → Option ℕ
  physical : ∀ a ch, bytes a = some ch → a < 2 ^ 52
  mapped : ℕ → Bool
  low : ∀ a < 0x200000, mapped a = true
  frameBlock : ℕ
  aligned : frameBlock % 0x1000 = 0
  kernel : 0xFFFFFFFF80000000 ≤ frameBlock
  inside : frameBlock + 0x2000 ≤ 0xFFFFFFFF80200000

/-- The pointer and the length of `__strlen`, and the frame that the window was mapped to last. -/
structure Scan where
  c : ℕ
  len : ℕ
  frame : ℕ

namespace BootMemory

variable (m : BootMemory)

/-- `remap`. -/
def remap (s : Scan) : Scan :=
  if s.c < 0x200000 then s else { s with c := m.frameBlock + (s.c - align s.c), frame := align s.c }

/-- A byte read at a virtual address, the window's two pages having the frames that their entries have room for. -/
def readByte (frame v : ℕ) : Option ℕ :=
  if m.frameBlock ≤ v ∧ v < m.frameBlock + 0x2000 then
    m.bytes ((frame + 0x1000 * ((v - m.frameBlock) / 0x1000)) % 2 ^ 52 + v % 0x1000)
  else if m.mapped v then m.bytes v
  else none

/-- The loop of `__strlen`, which does not return within the fuel or faults where there is no result. -/
def strlenLoop : ℕ → Scan → Option ℕ
  | 0, _ => none
  | fuel + 1, s =>
    let s := if s.len % 0x1000 = 0 then m.remap s else s
    match m.readByte s.frame s.c with
    | none => none
    | some ch => if ch = 0 then some s.len else strlenLoop fuel { s with c := s.c + 1, len := s.len + 1 }

/-- The loop returns a length. -/
def Returns (s : Scan) (n : ℕ) : Prop := ∃ fuel, m.strlenLoop fuel s = some n

/-- `__strlen`. The window is mapped before it is read, so its first frame does not matter. -/
def Strlen (string n : ℕ) : Prop := m.Returns ⟨string, 0, 0⟩ n

/-- `check_if_used_string`. -/
def CheckIfUsedString (test string : ℕ) (used : Bool) : Prop :=
  ∃ n, m.Strlen string n ∧ checkUsedRange test string (n + 1) = used

/-- The string has a character at an offset. -/
def HasChar (byte : ℕ → Option ℕ) (i : ℕ) : Prop := ∃ ch, byte i = some ch ∧ ch ≠ 0

end BootMemory

/-- A string in physical memory. -/
structure BootString (m : BootMemory) where
  start : ℕ
  length : ℕ
  chars : ∀ i < length, BootMemory.HasChar (fun i => m.bytes (start + i)) i
  nul : m.bytes (start + length) = some 0

namespace BootString

variable {m : BootMemory} (s : BootString m)

/-- The string is measured and its pages are found. -/
structure Right : Prop where
  measured : m.Strlen s.start s.length
  checked : ∀ test, test % 0x1000 = 0 →
    m.CheckIfUsedString test s.start (decide (∃ i ≤ s.length, test ≤ s.start + i ∧ s.start + i < test + 0x1000))

/-- The blocks of 0x1000 characters that begin below 0x200000 and are read in place. -/
def blocksBelow : ℕ := (0x200000 - s.start + 0xFFF) / 0x1000

/-- What is read behind the second move of the window. -/
def strayByte (i : ℕ) : Option ℕ :=
  m.bytes ((m.frameBlock + 0x1000 + 0x1000 * ((s.start % 0x1000 + i) / 0x1000)) % 2 ^ 52 + (s.start + i) % 0x1000)

/-- The strings that are measured: what is read in place is mapped, and the string ends in the block that the window is
moved to first, or ends in the next at the character where the stray block does. -/
structure Measurable : Prop where
  inPlace : ∀ i ≤ s.length, i < 0x1000 * s.blocksBelow → m.mapped (s.start + i) = true
  ends : s.length < 0x1000 * (s.blocksBelow + 1) ∨
    ∃ r < 0x1000, s.length = 0x1000 * (s.blocksBelow + 1) + r ∧ (∀ i < r, BootMemory.HasChar s.strayByte i) ∧
      s.strayByte r = some 0

end BootString

namespace BootMemory

variable {m : BootMemory} {s : Scan} {byte : ℕ → Option ℕ} {n r : ℕ}

section Blocks

/-- The block at a state shows the bytes, from the place that the window is moved to on. -/
def ShowsBlock (m : BootMemory) (s : Scan) (byte : ℕ → Option ℕ) (r : ℕ) : Prop :=
  s.len % 0x1000 = 0 ∧ ∀ i < r, m.readByte (m.remap s).frame ((m.remap s).c + i) = byte i

theorem remap_len : (m.remap s).len = s.len := by
  unfold remap
  split <;> rfl

/-- One round at a character of a block, behind those before it. -/
theorem strlenLoop_at (hshows : m.ShowsBlock s byte (r + 1)) (hr : r < 0x1000) (hchars : ∀ i < r, HasChar byte i) (fuel : ℕ) :
    m.strlenLoop (fuel + r + 1) s =
      match byte r with
      | none => none
      | some ch =>
        if ch = 0 then some (s.len + r)
        else m.strlenLoop fuel ⟨(m.remap s).c + (r + 1), s.len + (r + 1), (m.remap s).frame⟩ := by
  obtain ⟨hlen, hbytes⟩ := hshows
  induction r generalizing fuel with
  | zero =>
    have hfirst := hbytes 0 (by omega)
    rw [Nat.add_zero] at hfirst
    rw [strlenLoop, if_pos hlen, hfirst, remap_len]
    rfl
  | succ r ih =>
    obtain ⟨ch, hch, hne⟩ := hchars r (by omega)
    have hbefore := ih (by omega) (fun i hi => hchars i (by omega)) (fuel + 1) (fun i hi => hbytes i (by omega))
    have hfuel : fuel + (r + 1) + 1 = fuel + 1 + r + 1 := by omega
    have hgoes : ¬ (s.len + (r + 1)) % 0x1000 = 0 := by omega
    rw [hfuel, hbefore, hch]
    dsimp only
    rw [if_neg hne, strlenLoop]
    dsimp only
    rw [if_neg hgoes, hbytes (r + 1) (by omega)]
    rfl

/-- Too little fuel for a block. -/
theorem strlenLoop_short (hshows : m.ShowsBlock s byte r) (hr : r ≤ 0x1000) (hchars : ∀ i < r, HasChar byte i) {fuel : ℕ}
    (hfuel : fuel ≤ r) : m.strlenLoop fuel s = none := by
  cases fuel with
  | zero => rfl
  | succ k =>
    obtain ⟨ch, hch, hne⟩ := hchars k (by omega)
    have hround := strlenLoop_at (r := k) ⟨hshows.1, fun i hi => hshows.2 i (by omega)⟩ (by omega)
      (fun i hi => hchars i (by omega)) 0
    rw [Nat.zero_add, hch] at hround
    rw [hround]
    exact if_neg hne

/-- A block of characters only is passed. -/
theorem returns_block (hshows : m.ShowsBlock s byte 0x1000) (hchars : ∀ i < 0x1000, HasChar byte i) :
    m.Returns s n ↔ m.Returns ⟨(m.remap s).c + 0x1000, s.len + 0x1000, (m.remap s).frame⟩ n := by
  have hpass (fuel : ℕ) : m.strlenLoop (fuel + 0xFFF + 1) s =
      m.strlenLoop fuel ⟨(m.remap s).c + 0x1000, s.len + 0x1000, (m.remap s).frame⟩ := by
    obtain ⟨ch, hch, hne⟩ := hchars 0xFFF (by omega)
    rw [strlenLoop_at hshows (by omega) (fun i hi => hchars i (by omega)), hch]
    exact if_neg hne
  constructor
  · rintro ⟨fuel, hfuel⟩
    by_cases hshort : fuel ≤ 0x1000
    · rw [strlenLoop_short hshows (Nat.le_refl _) hchars hshort] at hfuel
      exact absurd hfuel (Option.some_ne_none n).symm
    · obtain ⟨rest, rfl⟩ := Nat.exists_eq_add_of_le' (Nat.le_of_lt (Nat.lt_of_not_le hshort))
      exact ⟨rest, (hpass rest).symm.trans hfuel⟩
  · rintro ⟨fuel, hfuel⟩
    exact ⟨fuel + 0xFFF + 1, (hpass fuel).trans hfuel⟩

/-- A NUL ends the loop. -/
theorem returns_nul (hshows : m.ShowsBlock s byte (r + 1)) (hr : r < 0x1000) (hchars : ∀ i < r, HasChar byte i)
    (hnul : byte r = some 0) : m.Returns s n ↔ n = s.len + r := by
  have hround (fuel : ℕ) : m.strlenLoop (fuel + r + 1) s = some (s.len + r) := by
    rw [strlenLoop_at hshows hr hchars, hnul]
    exact if_pos rfl
  constructor
  · rintro ⟨fuel, hfuel⟩
    by_cases hshort : fuel ≤ r
    · have hnone := strlenLoop_short (r := r) ⟨hshows.1, fun i hi => hshows.2 i (by omega)⟩ (by omega) hchars hshort
      rw [hnone] at hfuel
      exact absurd hfuel (Option.some_ne_none n).symm
    · obtain ⟨rest, rfl⟩ := Nat.exists_eq_add_of_le' (Nat.lt_of_not_le hshort)
      exact (Option.some.inj ((hround rest).symm.trans hfuel)).symm
  · rintro rfl
    exact ⟨0 + r + 1, hround 0⟩

/-- Where nothing can be read the loop faults. -/
theorem not_returns_fault (hshows : m.ShowsBlock s byte (r + 1)) (hr : r < 0x1000) (hchars : ∀ i < r, HasChar byte i)
    (hfault : byte r = none) : ¬ m.Returns s n := by
  rintro ⟨fuel, hfuel⟩
  by_cases hshort : fuel ≤ r
  · have hnone := strlenLoop_short (r := r) ⟨hshows.1, fun i hi => hshows.2 i (by omega)⟩ (by omega) hchars hshort
    rw [hnone] at hfuel
    exact absurd hfuel (Option.some_ne_none n).symm
  · obtain ⟨rest, rfl⟩ := Nat.exists_eq_add_of_le' (Nat.lt_of_not_le hshort)
    have hround := strlenLoop_at hshows hr hchars rest
    rw [hfault] at hround
    exact absurd (hround.symm.trans hfuel) (Option.some_ne_none n).symm

/-- Behind the second move the window shows the same block for ever. -/
theorem not_returns_again {off : ℕ} (hoff : off < 0x1000)
    (hshows : ∀ len frame, len % 0x1000 = 0 → m.ShowsBlock ⟨m.frameBlock + off + 0x1000, len, frame⟩ byte 0x1000)
    (hchars : ∀ i < 0x1000, HasChar byte i) {len frame : ℕ} (hlen : len % 0x1000 = 0) :
    ¬ m.Returns ⟨m.frameBlock + off + 0x1000, len, frame⟩ n := by
  have hkernel := m.kernel
  have haligned := m.aligned
  have hmoved (len frame : ℕ) : (m.remap ⟨m.frameBlock + off + 0x1000, len, frame⟩).c = m.frameBlock + off := by
    unfold remap align
    rw [if_neg (by dsimp only; omega)]
    dsimp only
    omega
  rintro ⟨fuel, hfuel⟩
  induction fuel using Nat.strongRecOn generalizing len frame with
  | ind fuel ih =>
    have hall := hshows len frame hlen
    by_cases hshort : fuel ≤ 0x1000
    · rw [strlenLoop_short hall (Nat.le_refl _) hchars hshort] at hfuel
      exact absurd hfuel (Option.some_ne_none n).symm
    · obtain ⟨rest, rfl⟩ := Nat.exists_eq_add_of_le' (Nat.le_of_lt (Nat.lt_of_not_le hshort))
      obtain ⟨ch, hch, hne⟩ := hchars 0xFFF (by omega)
      have hpass := strlenLoop_at hall (by omega) (fun i hi => hchars i (by omega)) rest
      rw [hch] at hpass
      dsimp only at hpass
      rw [if_neg hne, hmoved] at hpass
      have hlen' : (len + 0x1000) % 0x1000 = 0 := by omega
      exact ih rest (by omega) hlen' (hpass.symm.trans hfuel)

end Blocks

end BootMemory

namespace BootString

open BootMemory

variable {m : BootMemory} (s : BootString m)

/-- The state at the start of a block that is read in place. -/
def atBlock (j : ℕ) : Scan := ⟨s.start + 0x1000 * j, 0x1000 * j, 0⟩

/-- The byte of the string at an offset in a block. -/
def byteAt (j i : ℕ) : Option ℕ := m.bytes (s.start + (0x1000 * j + i))

theorem byteAt_char {j i : ℕ} (h : 0x1000 * j + i < s.length) : HasChar (s.byteAt j) i := s.chars _ h

/-- The same, where it is read in place. -/
def byteInPlace (j i : ℕ) : Option ℕ := if m.mapped (s.start + (0x1000 * j + i)) then s.byteAt j i else none

theorem byteInPlace_char {j i : ℕ} (h : 0x1000 * j + i < s.length) (hmapped : m.mapped (s.start + (0x1000 * j + i)) = true) :
    HasChar (s.byteInPlace j) i := by
  obtain ⟨ch, hch, hne⟩ := s.byteAt_char h
  exact ⟨ch, (if_pos hmapped).trans hch, hne⟩

/-- The string lies in physical memory. -/
theorem end_lt : s.start + s.length < 2 ^ 52 := m.physical _ _ s.nul

/-- The blocks below 0x200000. -/
theorem atBlock_c_lt {j : ℕ} : (s.atBlock j).c < 0x200000 ↔ j < s.blocksBelow := by
  unfold atBlock blocksBelow
  dsimp only
  omega

theorem remap_atBlock {j : ℕ} (hj : j < s.blocksBelow) : m.remap (s.atBlock j) = s.atBlock j := if_pos (s.atBlock_c_lt.mpr hj)

/-- A block that begins there is read in place. -/
theorem shows_below {j r : ℕ} (hj : j < s.blocksBelow) (hr : r ≤ 0x1000) :
    m.ShowsBlock (s.atBlock j) (s.byteInPlace j) r := by
  have hkernel := m.kernel
  have hlow := s.atBlock_c_lt.mpr hj
  unfold ShowsBlock
  rw [s.remap_atBlock hj]
  unfold atBlock at hlow ⊢
  dsimp only at hlow ⊢
  apply And.intro (by omega)
  intro i hi
  unfold readByte byteInPlace byteAt
  rw [if_neg (by omega), Nat.add_assoc]

/-- The block that the window is moved to first. -/
theorem shows_window {r : ℕ} (hr : r ≤ 0x1000) (hin : 0x1000 * s.blocksBelow + r ≤ s.length + 1) :
    m.ShowsBlock (s.atBlock s.blocksBelow) (s.byteAt s.blocksBelow) r := by
  have hkernel := m.kernel
  have haligned := m.aligned
  have hend := s.end_lt
  have hhigh : ¬ (s.atBlock s.blocksBelow).c < 0x200000 := fun h => absurd (s.atBlock_c_lt.mp h) (Nat.lt_irrefl _)
  unfold ShowsBlock remap
  rw [if_neg hhigh]
  unfold atBlock
  dsimp only
  apply And.intro (by omega)
  intro i hi
  unfold readByte byteAt align
  rw [if_pos (by omega)]
  congr 1
  omega

/-- The block that it is moved to again and again. -/
theorem shows_stray {len frame : ℕ} (hlen : len % 0x1000 = 0) :
    m.ShowsBlock ⟨m.frameBlock + s.start % 0x1000 + 0x1000, len, frame⟩ s.strayByte 0x1000 := by
  have hkernel := m.kernel
  have haligned := m.aligned
  unfold ShowsBlock remap
  rw [if_neg (by dsimp only; omega)]
  apply And.intro hlen
  dsimp only
  intro i hi
  unfold readByte strayByte align
  rw [if_pos (by omega)]
  congr 1
  omega

/-- The blocks that are read in place are passed. -/
theorem returns_atBlock {j n : ℕ} (hj : j ≤ s.blocksBelow) (hlength : 0x1000 * j ≤ s.length)
    (hmapped : ∀ i < 0x1000 * j, m.mapped (s.start + i) = true) :
    m.Returns (s.atBlock 0) n ↔ m.Returns (s.atBlock j) n := by
  induction j with
  | zero => rfl
  | succ j ih =>
    rw [ih (by omega) (by omega) fun i hi => hmapped i (by omega)]
    have hchars (i : ℕ) (hi : i < 0x1000) : HasChar (s.byteInPlace j) i :=
      s.byteInPlace_char (by omega) (hmapped _ (by omega))
    have hnext : s.atBlock (j + 1) = ⟨(s.atBlock j).c + 0x1000, (s.atBlock j).len + 0x1000, (s.atBlock j).frame⟩ := by
      unfold atBlock
      rw [Nat.mul_succ, ← Nat.add_assoc]
    rw [returns_block (s.shows_below (by omega) (Nat.le_refl _)) hchars, s.remap_atBlock (by omega), hnext]

/-- What is read in place must be mapped. -/
theorem mapped_of_returns {n : ℕ} (hreturns : m.Returns (s.atBlock 0) n) {i : ℕ} (hi : i ≤ s.length)
    (hbelow : i < 0x1000 * s.blocksBelow) : m.mapped (s.start + i) = true := by
  induction i using Nat.strongRecOn with
  | ind i ih =>
    by_contra hunmapped
    have hsplit : i = 0x1000 * (i / 0x1000) + i % 0x1000 := by omega
    have hblock : i / 0x1000 < s.blocksBelow := by omega
    rw [s.returns_atBlock (Nat.le_of_lt hblock) (by omega) fun k hk => ih k (by omega) (by omega) (by omega)] at hreturns
    refine not_returns_fault (s.shows_below hblock (r := i % 0x1000 + 1) (by omega)) (by omega) ?_ ?_ hreturns
    · intro k hk
      exact s.byteInPlace_char (by omega) (ih _ (by omega) (by omega) (by omega))
    · unfold byteInPlace
      rw [← hsplit]
      exact if_neg hunmapped

/-- What is returned behind the second move of the window. -/
theorem returns_stray {n len frame : ℕ} (hlen : len % 0x1000 = 0) :
    m.Returns ⟨m.frameBlock + s.start % 0x1000 + 0x1000, len, frame⟩ n ↔
      ∃ r < 0x1000, n = len + r ∧ (∀ i < r, HasChar s.strayByte i) ∧ s.strayByte r = some 0 := by
  have hoff : s.start % 0x1000 < 0x1000 := Nat.mod_lt _ (by omega)
  by_cases hall : ∀ i < 0x1000, HasChar s.strayByte i
  · constructor
    · intro hreturns
      exact absurd hreturns (not_returns_again hoff (fun _ _ h => s.shows_stray h) hall hlen)
    · rintro ⟨r, hr, -, -, hnul⟩
      obtain ⟨ch, hch, hne⟩ := hall r hr
      exact absurd (Option.some.inj (hch.symm.trans hnul)) hne
  · obtain ⟨r, ⟨hr, hnot⟩, hfirst⟩ : ∃ r, (r < 0x1000 ∧ ¬ HasChar s.strayByte r) ∧
        ∀ i < r, ¬ (i < 0x1000 ∧ ¬ HasChar s.strayByte i) := by
      classical
      have hex : ∃ r, r < 0x1000 ∧ ¬ HasChar s.strayByte r := by
        by_contra hno
        exact hall fun i hi => by_contra fun h => hno ⟨i, hi, h⟩
      exact ⟨Nat.find hex, Nat.find_spec hex, fun i hi => Nat.find_min hex hi⟩
    have hchars (i : ℕ) (hi : i < r) : HasChar s.strayByte i := by_contra fun h => hfirst i hi ⟨by omega, h⟩
    have hshows : m.ShowsBlock ⟨m.frameBlock + s.start % 0x1000 + 0x1000, len, frame⟩ s.strayByte (r + 1) :=
      ⟨hlen, fun i hi => (s.shows_stray hlen).2 i (by omega)⟩
    -- the first place without a character decides, here and for the stray block
    have hplace {r' : ℕ} (hchars' : ∀ i < r', HasChar s.strayByte i) (hnul' : s.strayByte r' = some 0) : r' = r := by
      rcases Nat.lt_trichotomy r' r with hlt | rfl | hgt
      · obtain ⟨ch, hch, hne⟩ := hchars r' hlt
        exact absurd (Option.some.inj (hch.symm.trans hnul')) hne
      · rfl
      · exact absurd (hchars' r hgt) hnot
    cases hbyte : s.strayByte r with
    | none =>
      constructor
      · intro hreturns
        exact absurd hreturns (not_returns_fault hshows hr hchars hbyte)
      · rintro ⟨r', -, -, hchars', hnul'⟩
        rw [hplace hchars' hnul', hbyte] at hnul'
        exact absurd hnul' (Option.some_ne_none 0).symm
    | some ch =>
      have hzero : ch = 0 := by_contra fun hne => hnot ⟨ch, hbyte, hne⟩
      rw [hzero] at hbyte
      rw [returns_nul hshows hr hchars hbyte]
      constructor
      · intro hn
        exact ⟨r, hr, hn, hchars, hbyte⟩
      · rintro ⟨r', -, hn, hchars', hnul'⟩
        rwa [hplace hchars' hnul'] at hn

/-- The length that is returned where all that is read in place is mapped. -/
theorem returns_iff {n : ℕ} (hmapped : ∀ i ≤ s.length, i < 0x1000 * s.blocksBelow → m.mapped (s.start + i) = true) :
    m.Returns (s.atBlock 0) n ↔
      (s.length < 0x1000 * (s.blocksBelow + 1) ∧ n = s.length) ∨
      (0x1000 * (s.blocksBelow + 1) ≤ s.length ∧ ∃ r < 0x1000, n = 0x1000 * (s.blocksBelow + 1) + r ∧
        (∀ i < r, HasChar s.strayByte i) ∧ s.strayByte r = some 0) := by
  by_cases hlow : s.length < 0x1000 * s.blocksBelow
  · -- the string ends in a block that is read in place
    have hsplit : s.length = 0x1000 * (s.length / 0x1000) + s.length % 0x1000 := by omega
    have hblock : s.length / 0x1000 < s.blocksBelow := by omega
    rw [s.returns_atBlock (Nat.le_of_lt hblock) (by omega) fun k hk => hmapped k (by omega) (by omega)]
    rw [returns_nul (s.shows_below hblock (r := s.length % 0x1000 + 1) (by omega)) (by omega)]
    · have hlen : (s.atBlock (s.length / 0x1000)).len = 0x1000 * (s.length / 0x1000) := rfl
      rw [hlen]
      omega
    · intro k hk
      exact s.byteInPlace_char (by omega) (hmapped _ (by omega) (by omega))
    · unfold byteInPlace byteAt
      rw [← hsplit, if_pos (hmapped _ (Nat.le_refl _) hlow)]
      exact s.nul
  · rw [s.returns_atBlock (Nat.le_refl _) (by omega) fun k hk => hmapped k (by omega) hk]
    have hlen : (s.atBlock s.blocksBelow).len = 0x1000 * s.blocksBelow := rfl
    by_cases hfirst : s.length < 0x1000 * (s.blocksBelow + 1)
    · -- it ends in the window
      have hsplit : s.length = 0x1000 * s.blocksBelow + (s.length - 0x1000 * s.blocksBelow) := by omega
      rw [returns_nul (s.shows_window (r := s.length - 0x1000 * s.blocksBelow + 1) (by omega) (by omega)) (by omega)
        (fun k hk => s.byteAt_char (by omega)), hlen]
      · omega
      · unfold byteAt
        rw [← hsplit]
        exact s.nul
    · -- it goes on, and the window is moved to the stray block
      have hmoved : (m.remap (s.atBlock s.blocksBelow)).c = m.frameBlock + s.start % 0x1000 := by
        have hhigh : ¬ (s.atBlock s.blocksBelow).c < 0x200000 := fun h => absurd (s.atBlock_c_lt.mp h) (Nat.lt_irrefl _)
        unfold remap align
        rw [if_neg hhigh]
        unfold atBlock
        dsimp only
        omega
      rw [returns_block (s.shows_window (Nat.le_refl _) (by omega)) fun k hk => s.byteAt_char (by omega), hmoved, hlen,
        s.returns_stray (by omega)]
      constructor
      · intro hstray
        exact Or.inr ⟨by omega, hstray⟩
      · rintro (⟨hshort, -⟩ | ⟨-, hstray⟩)
        · exact absurd hshort hfirst
        · exact hstray

/-- The pages of a string of a known length. -/
theorem checkUsedRange_string {test : ℕ} (htest : test % 0x1000 = 0) :
    checkUsedRange test s.start (s.length + 1) =
      decide (∃ i ≤ s.length, test ≤ s.start + i ∧ s.start + i < test + 0x1000) := by
  have hend := s.end_lt
  have halign := align_le s.start
  have hmod := align_mod s.start
  have hsize : add64 (s.length + 1) (s.start - align s.start) = s.start + s.length + 1 - align s.start := by
    unfold add64
    omega
  unfold checkUsedRange
  dsimp only
  rw [hsize, pageAlignUp_of_le (by omega), Bool.eq_iff_iff]
  simp only [Bool.and_eq_true, decide_eq_true_eq]
  generalize align s.start = base at *
  unfold add64
  constructor
  · rintro ⟨hle, hlt⟩
    by_cases hbefore : test ≤ s.start
    · exact ⟨0, by omega, by omega, by omega⟩
    · exact ⟨test - s.start, by omega, by omega, by omega⟩
  · rintro ⟨i, hi, hle, hlt⟩
    omega

/-- Memory with 0x1000 letters and a NUL from 0x200000 on. -/
def longMemory : BootMemory where
  bytes a := if 0x200000 ≤ a ∧ a < 0x201000 then some 97 else if a = 0x201000 then some 0 else none
  physical := by
    intro a ch h
    split_ifs at h <;> omega
  mapped a := decide (a < 0x200000)
  low := by
    intro a ha
    exact decide_eq_true ha
  frameBlock := 0xFFFFFFFF80100000
  aligned := by decide
  kernel := by decide
  inside := by decide

/-- The string there. -/
def longString : BootString longMemory where
  start := 0x200000
  length := 0x1000
  chars := by
    intro i hi
    exact ⟨97, if_pos (by omega), by decide⟩
  nul := rfl

/-- The string of 0x1000 characters is not measured. -/
theorem longString_not_right : ¬ longString.Right := by
  intro hright
  have hreturns : longMemory.Returns (longString.atBlock 0) longString.length := hright.measured
  rcases (longString.returns_iff fun i hi hbelow => longString.mapped_of_returns hreturns hi hbelow).mp hreturns with
    ⟨hshort, -⟩ | ⟨-, r, hr, -, -, hnul⟩
  · exact absurd hshort (by decide)
  · have hnone (a : ℕ) (ha : 0x202000 ≤ a) : longMemory.bytes a = none := by
      change (if _ then _ else _) = _
      rw [if_neg (by omega), if_neg (by omega)]
    have hstray : longString.strayByte r = none := by
      apply hnone
      change 0x202000 ≤ (0xFFFFFFFF80100000 + 0x1000 + 0x1000 * ((0x200000 % 0x1000 + r) / 0x1000)) % 2 ^ 52 +
        (0x200000 + r) % 0x1000
      omega
    rw [hstray] at hnul
    exact absurd hnul (Option.some_ne_none 0).symm

/-- Strings are measured and found in exactly the measurable cases. -/
theorem bootString_iff : s.Right ↔ s.Measurable := by
  have hstart : s.atBlock 0 = ⟨s.start, 0, 0⟩ := rfl
  constructor
  · intro hright
    have hreturns : m.Returns (s.atBlock 0) s.length := hright.measured
    have hmapped := fun i hi hbelow => s.mapped_of_returns hreturns (i := i) hi hbelow
    apply Measurable.mk hmapped
    rcases (s.returns_iff hmapped).mp hreturns with ⟨hshort, -⟩ | ⟨-, hstray⟩
    · exact Or.inl hshort
    · exact Or.inr hstray
  · intro hmeasurable
    have hreturns : m.Strlen s.start s.length := by
      apply (s.returns_iff hmeasurable.inPlace).mpr
      rcases hmeasurable.ends with hshort | ⟨r, hr, hlength, hstray⟩
      · exact Or.inl ⟨hshort, rfl⟩
      · exact Or.inr ⟨by omega, r, hr, hlength, hstray⟩
    exact ⟨hreturns, fun test htest => ⟨s.length, hreturns, s.checkUsedRange_string htest⟩⟩

end BootString

end Cthulhu
