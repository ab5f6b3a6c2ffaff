import Cthulhu.Screen.FrameBuffer

/-!
# What is drawn is shown

Every pixel that was drawn has its change bit set or is in the frame buffer as it is in `local_fb`: the drawing operations
keep this, and a flush leaves the second. That needs 24 bits to a pixel and rows that follow one another.
-/

namespace Cthulhu

open Lib

section Bits

/-- A bit that was assigned, and the others. -/
theorem bitTest_bitAssign (a : ℕ → ℕ) (b c : ℕ) (value : Bool) :
    bitTest (bitAssign a b value) c = if c = b then value else bitTest a c := by
  unfold bitTest bitAssign
  by_cases hsame : c = b
  · rw [hsame, if_pos rfl, Function.update_self, bit_setBit_self]
  · rw [if_neg hsame]
    by_cases hslot : c / 8 = b / 8
    · rw [hslot, Function.update_self, bit_setBit_of_ne _ _ (by omega)]
    · rw [Function.update_of_ne hslot]

/-- Every bit of a byte `0xFF` is set. -/
theorem bit_full {pos : ℕ} (h : pos < 8) : bit 0xFF pos = true := by
  have hall : ∀ pos < 8, bit 0xFF pos = true := by decide
  exact hall pos h

end Bits

/-- The byte of the frame buffer that a pixel of 24 bits has at an offset. -/
def colorByte (color k : ℕ) : ℕ := if k = 0 then color >>> 16 &&& 0xFF else if k = 1 then color >>> 8 &&& 0xFF else color &&& 0xFF

section Flush

variable {m : GraphicsMode} {s : Screen}

/-- One round of a flush with 24 bits to a pixel. -/
theorem flushPixel_spec (hbpp : m.bpp = 24) {st : Screen × ℕ} {n : ℕ} (hppx : st.2 = 3 * n) :
    (flushPixel m st n).2 = 3 * (n + 1) ∧ (flushPixel m st n).1.localFb = st.1.localFb ∧
      (∀ i, bitTest (flushPixel m st n).1.localFbChanges i = (decide (i ≠ n) && bitTest st.1.localFbChanges i)) ∧
      ∀ j, (flushPixel m st n).1.framebuffer j =
        if j / 3 = n ∧ bitTest st.1.localFbChanges n = true then colorByte (st.1.localFb n) (j % 3) else st.1.framebuffer j := by
  have h32 : ¬ m.bpp = 32 := by omega
  unfold flushPixel
  dsimp only
  rw [if_neg h32, if_pos hbpp, if_neg h32, if_pos hbpp, hppx]
  refine ⟨by omega, ?_⟩
  by_cases hset : bitTest st.1.localFbChanges n = true
  · rw [if_pos hset]
    refine ⟨rfl, fun i => ?_, fun j => ?_⟩
    · rw [bitTest_bitAssign]
      by_cases hsame : i = n
      · simp [hsame]
      · simp [hsame]
    · simp only [Function.update_apply, colorByte, hset, and_true]
      by_cases hpixel : j / 3 = n
      · have hcases : j = 3 * n ∨ j = 3 * n + 1 ∨ j = 3 * n + 2 := by omega
        rcases hcases with rfl | rfl | rfl
        · have hmod : 3 * n % 3 = 0 := by omega
          simp [hpixel, hmod]
        · have hmod : (3 * n + 1) % 3 = 1 := by omega
          simp [hpixel, hmod]
        · have hmod : (3 * n + 2) % 3 = 2 := by omega
          simp [hpixel, hmod]
      · have h0 : j ≠ 3 * n := by omega
        have h1 : j ≠ 3 * n + 1 := by omega
        have h2 : j ≠ 3 * n + 2 := by omega
        simp [hpixel, h0, h1, h2]
  · rw [if_neg hset]
    refine ⟨rfl, fun i => ?_, fun j => ?_⟩
    · by_cases hsame : i = n
      · rw [hsame, (Bool.not_eq_true _).mp hset, Bool.and_false]
      · simp [hsame]
    · rw [if_neg fun hboth => hset hboth.2]

/-- The screen after some rounds of it. -/
theorem flushPixels_spec (hbpp : m.bpp = 24) (n : ℕ) :
    (run (flushPixel m) (s, 0) (List.range n)).2 = 3 * n ∧
      (run (flushPixel m) (s, 0) (List.range n)).1.localFb = s.localFb ∧
      (∀ i, bitTest (run (flushPixel m) (s, 0) (List.range n)).1.localFbChanges i =
        (decide (n ≤ i) && bitTest s.localFbChanges i)) ∧
      ∀ j, (run (flushPixel m) (s, 0) (List.range n)).1.framebuffer j =
        if j / 3 < n ∧ bitTest s.localFbChanges (j / 3) = true then colorByte (s.localFb (j / 3)) (j % 3) else s.framebuffer j := by
  induction n with
  | zero => exact ⟨rfl, rfl, fun i => by simp [run], fun j => by simp [run]⟩
  | succ n ih =>
    obtain ⟨hppx, hvalue, hbits, hbytes⟩ := ih
    have hstep : run (flushPixel m) (s, 0) (List.range (n + 1)) =
        flushPixel m (run (flushPixel m) (s, 0) (List.range n)) n := by
      rw [List.range_succ, run, List.foldl_append]
      rfl
    obtain ⟨hppx', hvalue', hbits', hbytes'⟩ := flushPixel_spec hbpp hppx
    rw [hstep]
    refine ⟨hppx', hvalue'.trans hvalue, fun i => ?_, fun j => ?_⟩
    · rw [hbits', hbits, ← Bool.and_assoc, ← Bool.decide_and]
      have hiff : i ≠ n ∧ n ≤ i ↔ n + 1 ≤ i := by omega
      simp only [hiff]
    · rw [hbytes', hbits, hvalue, hbytes]
      by_cases hlast : j / 3 = n
      · subst hlast
        simp
      · have hiff : j / 3 < n + 1 ↔ j / 3 < n := by omega
        simp only [hlast, hiff, false_and, if_false]

/-- A flush with 24 bits to a pixel, of a screen that fits. -/
theorem flushBuffer_spec (hbpp : m.bpp = 24) (hsize : m.w * m.h < 2 ^ 32) :
    (flushBuffer m s).localFb = s.localFb ∧
      (∀ i, bitTest (flushBuffer m s).localFbChanges i = (decide (m.w * m.h ≤ i) && bitTest s.localFbChanges i)) ∧
      ∀ j, (flushBuffer m s).framebuffer j =
        if j / 3 < m.w * m.h ∧ bitTest s.localFbChanges (j / 3) = true then colorByte (s.localFb (j / 3)) (j % 3)
        else s.framebuffer j := by
  obtain ⟨-, hvalue, hbits, hbytes⟩ := flushPixels_spec (s := s) hbpp (m.w * m.h)
  unfold flushBuffer
  rw [Nat.mod_eq_of_lt hsize]
  exact ⟨hvalue, hbits, hbytes⟩

/-- A flush with 32 bits to a pixel leaves the frame buffer as it is. -/
theorem flushBuffer_framebuffer (hbpp : m.bpp = 32) : (flushBuffer m s).framebuffer = s.framebuffer := by
  unfold flushBuffer
  generalize (0 : ℕ) = ppx
  induction List.range (m.w * m.h % 2 ^ 32) generalizing s ppx with
  | nil => rfl
  | cons i rest ih =>
    have hround : (flushPixel m (s, ppx) i).1.framebuffer = s.framebuffer := by
      unfold flushPixel
      dsimp only
      rw [if_pos hbpp]
      split <;> rfl
    rw [run, List.foldl_cons, ← hround]
    exact ih (flushPixel m (s, ppx) i).2

end Flush

/-- The frame buffer has the pixel of a screen without gaps between its rows. -/
def Screen.Shown (s : Screen) (i : ℕ) : Prop := ∀ k < 3, s.framebuffer (3 * i + k) = colorByte (s.localFb i) k

/-- Every pixel that was drawn is noted as changed, or it is shown. -/
def Screen.Coherent (s : Screen) (size : ℕ) (drawn : ℕ → Prop) : Prop :=
  ∀ i < size, drawn i → bitTest s.localFbChanges i = true ∨ s.Shown i

/-- Some pixels were drawn: they are noted, and the frame buffer and the others are as they were. -/
def Painted (s s' : Screen) : Prop :=
  s'.framebuffer = s.framebuffer ∧ ∀ i, bitTest s'.localFbChanges i = true ∨
    (bitTest s'.localFbChanges i = bitTest s.localFbChanges i ∧ s'.localFb i = s.localFb i)

section Drawing

variable {m : GraphicsMode} {s s' s'' : Screen} {drawn : ℕ → Prop} {size : ℕ}

/-- Nothing drawn. -/
theorem Painted.refl (s : Screen) : Painted s s := ⟨rfl, fun _ => Or.inr ⟨rfl, rfl⟩⟩

/-- Noted pixels stay noted. -/
theorem Painted.noted (h : Painted s s') {i : ℕ} (hi : bitTest s.localFbChanges i = true) : bitTest s'.localFbChanges i = true := by
  rcases h.2 i with hset | ⟨hsame, -⟩
  · exact hset
  · rw [hsame, hi]

/-- One drawing after another. -/
theorem Painted.trans (h : Painted s s') (h' : Painted s' s'') : Painted s s'' := by
  refine ⟨h'.1.trans h.1, fun i => ?_⟩
  rcases h'.2 i with hset | ⟨hsame', hvalue'⟩
  · exact Or.inl hset
  · rcases h.2 i with hset | ⟨hsame, hvalue⟩
    · exact Or.inl (hsame'.trans hset)
    · exact Or.inr ⟨hsame'.trans hsame, hvalue'.trans hvalue⟩

/-- The value of a pixel that was drawn. -/
theorem localFb_draw (s : Screen) (pixelpos color : ℕ) : (s.draw pixelpos color).localFb pixelpos = color := by
  unfold Screen.draw
  exact Function.update_self _ _ _

/-- One pixel drawn. -/
theorem painted_draw (s : Screen) (pixelpos color : ℕ) :
    Painted s (s.draw pixelpos color) ∧ bitTest (s.draw pixelpos color).localFbChanges pixelpos = true := by
  have hbits (i : ℕ) := bitTest_bitAssign s.localFbChanges pixelpos i true
  refine ⟨⟨rfl, fun i => ?_⟩, (hbits pixelpos).trans (if_pos rfl)⟩
  by_cases hsame : i = pixelpos
  · exact Or.inl ((hbits i).trans (if_pos hsame))
  · exact Or.inr ⟨(hbits i).trans (if_neg hsame), Function.update_of_ne hsame _ _⟩

/-- Drawings one after another. -/
theorem painted_run {α : Type*} {step : Screen → α → Screen} {l : List α} (h : ∀ s, ∀ a ∈ l, Painted s (step s a)) (s : Screen) :
    Painted s (run step s l) := by
  induction l generalizing s with
  | nil => exact .refl s
  | cons a rest ih =>
    have hfirst := h s a List.mem_cons_self
    exact hfirst.trans (ih (fun s b hb => h s b (List.mem_cons_of_mem a hb)) (step s a))

/-- What one of them notes is noted after all of them. -/
theorem noted_run {α : Type*} {step : Screen → α → Screen} {l : List α} (h : ∀ s, ∀ a ∈ l, Painted s (step s a)) {a : α}
    (ha : a ∈ l) {i : ℕ} (hnote : ∀ s, bitTest (step s a).localFbChanges i = true) (s : Screen) :
    bitTest (run step s l).localFbChanges i = true := by
  induction l generalizing s with
  | nil => exact absurd ha List.not_mem_nil
  | cons b rest ih =>
    have hrest : ∀ s, ∀ c ∈ rest, Painted s (step s c) := fun s c hc => h s c (List.mem_cons_of_mem b hc)
    rcases List.mem_cons.mp ha with rfl | ha
    · exact (painted_run hrest (step s a)).noted (hnote s)
    · exact ih hrest ha (step s b)

/-- `blit_colored` by what it does at a pixel. -/
theorem blitColored_eq (image : Image) (x y : ℕ) (recolor : Color) (s : Screen) :
    blitColored m image x y recolor s = run (fun s py => if py ≥ m.h then s else run (fun s px => if px ≥ m.w then s
      else (image.colorAt recolor (px - x) (py - y)).elim s fun color => s.draw (m.pixelpos px py) color.word)
        s (counter x image.w)) s (counter y image.h) := by
  unfold blitColored
  congr 1
  funext s py
  congr 2
  funext s px
  cases image.colorAt recolor (px - x) (py - y) <;> rfl

/-- `blit_colored` draws and notes pixels. -/
theorem blitColored_painted (image : Image) (x y : ℕ) (recolor : Color) (s : Screen) :
    Painted s (blitColored m image x y recolor s) ∧
      ∀ i, (DrawCall.blitColored image x y recolor).Draws m i →
        bitTest (blitColored m image x y recolor s).localFbChanges i = true := by
  have hpixel (py : ℕ) (s : Screen) (px : ℕ) : Painted s (if px ≥ m.w then s
      else (image.colorAt recolor (px - x) (py - y)).elim s fun color => s.draw (m.pixelpos px py) color.word) := by
    split
    · exact .refl s
    · cases image.colorAt recolor (px - x) (py - y) with
      | some color => exact (painted_draw s _ _).1
      | none => exact .refl s
  have hrow (s : Screen) (py : ℕ) := painted_run (l := counter x image.w) (fun s px _ => hpixel py s px) s
  have hlines (s : Screen) (py : ℕ) : Painted s (if py ≥ m.h then s else run (fun s px =>
      if px ≥ m.w then s
      else (image.colorAt recolor (px - x) (py - y)).elim s fun color => s.draw (m.pixelpos px py) color.word)
        s (counter x image.w)) := by
    split
    · exact .refl s
    · exact hrow s py
  rw [blitColored_eq]
  refine ⟨painted_run (fun s py _ => hlines s py) s, fun i hdraws => ?_⟩
  obtain ⟨py, hpy, hheight, px, hpx, hwidth, rfl, hcolor⟩ := hdraws
  refine noted_run (fun s py _ => hlines s py) hpy (fun s => ?_) s
  rw [if_neg (Nat.not_le.mpr hheight)]
  refine noted_run (fun s px _ => hpixel py s px) hpx (fun s => ?_) s
  rw [if_neg (Nat.not_le.mpr hwidth)]
  obtain ⟨color, hsome⟩ := Option.isSome_iff_exists.mp hcolor
  rw [hsome]
  exact (painted_draw s _ _).2

/-- `clear_screen` draws and notes all pixels. -/
theorem clearScreen_painted (hsize : m.w * m.h < 2 ^ 32) (color : Color) (s : Screen) :
    Painted s (clearScreen m color s) ∧ ∀ i < m.w * m.h, bitTest (clearScreen m color s).localFbChanges i = true := by
  have hpixel (py : ℕ) (s : Screen) (px : ℕ) := (painted_draw s (m.pixelpos px py) color.word).1
  have hrow (s : Screen) (py : ℕ) := painted_run (l := List.range m.w) (fun s px _ => hpixel py s px) s
  refine ⟨painted_run (fun s py _ => hrow s py) s, fun i hi => ?_⟩
  have hwidth : 0 < m.w := by
    by_contra hzero
    rw [Nat.eq_zero_of_not_pos hzero, Nat.zero_mul] at hi
    exact Nat.not_lt_zero i hi
  have hpy : i / m.w ∈ List.range m.h := List.mem_range.mpr (Nat.div_lt_of_lt_mul hi)
  have hpx : i % m.w ∈ List.range m.w := List.mem_range.mpr (Nat.mod_lt i hwidth)
  have hplace : m.pixelpos (i % m.w) (i / m.w) = i := by
    unfold GraphicsMode.pixelpos
    rw [Nat.mul_comm, Nat.div_add_mod, Nat.mod_eq_of_lt (Nat.lt_trans hi hsize)]
  refine noted_run (fun s py _ => hrow s py) hpy (fun s => ?_) s
  refine noted_run (fun s px _ => hpixel (i / m.w) s px) hpx (fun s => ?_) s
  rw [hplace]
  exact (painted_draw s i color.word).2

/-- A flush shows what is noted, and what was shown stays so. -/
theorem flush_shown (hbpp : m.bpp = 24) (hsize : m.w * m.h < 2 ^ 32) {i : ℕ} (hi : i < m.w * m.h)
    (h : bitTest s.localFbChanges i = true ∨ s.Shown i) : (flushBuffer m s).Shown i := by
  obtain ⟨hvalue, -, hbytes⟩ := @flushBuffer_spec m s hbpp hsize
  intro k hk
  have hpixel : (3 * i + k) / 3 = i := by omega
  have hbyte : (3 * i + k) % 3 = k := by omega
  rw [hbytes, hvalue, hpixel, hbyte]
  by_cases hset : bitTest s.localFbChanges i = true
  · rw [if_pos ⟨hi, hset⟩]
  · rw [if_neg fun hboth => hset hboth.2]
    exact h.resolve_left hset k hk

/-- A screen that fits has fewer pixels than a word has values. -/
theorem GraphicsMode.Fits.size_lt (h : m.Fits) : m.w * m.h < 2 ^ 30 := by
  unfold Fits bufferSize at h
  omega

/-- `scroll_up` by no more than the screen stays in `local_fb`, and notes all of the screen before it flushes. -/
theorem scrollUp_flushes (hfits : m.Fits) {bypx : ℕ} (hbypx : bypx ≤ m.h) (s : Screen) :
    ∃ s', scrollUp m bypx s = some (flushBuffer m s') ∧ ∀ i < m.w * m.h, bitTest s'.localFbChanges i = true := by
  have hsize := hfits.size_lt
  have hheight := m.h_lt
  have hrows : (m.h + 2 ^ 32 - bypx) % 2 ^ 32 = m.h - bypx := by omega
  have hsplit : bypx * m.w + (m.h - bypx) * m.w = m.w * m.h := by
    rw [← Nat.add_mul, Nat.add_sub_cancel' hbypx, Nat.mul_comm]
  have hroom := hfits
  unfold GraphicsMode.Fits at hroom
  unfold scrollUp
  dsimp only
  rw [hrows]
  generalize bypx * m.w = source at hsplit ⊢
  generalize (m.h - bypx) * m.w = target at hsplit ⊢
  rw [if_pos (by omega)]
  refine ⟨_, rfl, fun i hi => ?_⟩
  have hslot : i / 8 < m.changeSlots := by
    unfold GraphicsMode.changeSlots
    omega
  unfold bitTest
  dsimp only
  rw [if_pos hslot]
  exact bit_full (Nat.mod_lt i (by decide))

/-- A drawing keeps that drawn pixels are noted or shown. -/
theorem Screen.Coherent.painted (h : s.Coherent size drawn) (hpainted : Painted s s') {draws : ℕ → Prop}
    (hdraws : ∀ i < size, draws i → bitTest s'.localFbChanges i = true) :
    s'.Coherent size fun i => drawn i ∨ draws i := by
  intro i hi hdrawn
  rcases hdrawn with hbefore | hnow
  · rcases hpainted.2 i with hset | ⟨hsame, hvalue⟩
    · exact Or.inl hset
    · apply (h i hi hbefore).imp
      · exact hsame.trans
      · intro hshown k hk
        rw [hpainted.1, hvalue]
        exact hshown k hk
  · exact Or.inl (hdraws i hi hnow)

/-- So does every call. -/
theorem Screen.Coherent.apply (hbpp : m.bpp = 24) (hfits : m.Fits) (h : s.Coherent (m.w * m.h) drawn) (call : DrawCall)
    (hcall : ∀ bypx, call = .scrollUp bypx → bypx ≤ m.h) :
    ∃ s', call.apply m s = some s' ∧ s'.Coherent (m.w * m.h) fun i => drawn i ∨ call.Draws m i := by
  have hsize := Nat.lt_trans hfits.size_lt (show 2 ^ 30 < 2 ^ 32 by decide)
  cases call with
  | blitColored image x y recolor =>
    obtain ⟨hpainted, hnoted⟩ := @blitColored_painted m image x y recolor s
    exact ⟨_, rfl, h.painted hpainted fun i _ => hnoted i⟩
  | clearScreen color =>
    obtain ⟨hpainted, hnoted⟩ := clearScreen_painted hsize color s
    exact ⟨_, rfl, h.painted hpainted fun i _ => hnoted i⟩
  | scrollUp bypx =>
    obtain ⟨s', hscroll, hnoted⟩ := scrollUp_flushes hfits (hcall bypx rfl) s
    exact ⟨_, hscroll, fun i hi _ => Or.inr (flush_shown hbpp hsize hi (Or.inl (hnoted i hi)))⟩

/-- And every sequence of calls. -/
theorem Screen.Coherent.calls (hbpp : m.bpp = 24) (hfits : m.Fits) (h : s.Coherent (m.w * m.h) drawn) (calls : List DrawCall)
    (hcalls : ∀ bypx, DrawCall.scrollUp bypx ∈ calls → bypx ≤ m.h) :
    ∃ s', calls.foldl (fun s call => s.bind (call.apply m)) (some s) = some s' ∧
      s'.Coherent (m.w * m.h) fun i => drawn i ∨ ∃ call ∈ calls, call.Draws m i := by
  induction calls generalizing s drawn with
  | nil => exact ⟨s, rfl, fun i hi hdrawn => h i hi (hdrawn.resolve_right (by simp))⟩
  | cons call rest ih =>
    obtain ⟨s', happly, hnext⟩ := h.apply hbpp hfits call fun bypx hcall => hcalls bypx (hcall ▸ List.mem_cons_self)
    obtain ⟨s'', hrest, hend⟩ := ih hnext fun bypx hbypx => hcalls bypx (List.mem_cons_of_mem call hbypx)
    refine ⟨s'', ?_, fun i hi hdrawn => hend i hi ?_⟩
    · rw [List.foldl_cons, Option.bind_some, happly]
      exact hrest
    · rcases hdrawn with hbefore | ⟨other, hother, hdraws⟩
      · exact Or.inl (Or.inl hbefore)
      · rcases List.mem_cons.mp hother with rfl | hother
        · exact Or.inl (Or.inr hdraws)
        · exact Or.inr ⟨other, hother, hdraws⟩

end Drawing

section Screens

variable {m : GraphicsMode} {s : Screen}

/-- On a screen without gaps between its rows a pixel that is shown is encoded at its place. -/
theorem Screen.Shown.encodes (hbpp : m.bpp = 24) (hrows : m.h = 1 ∨ m.fbpitch = 3 * m.w) {x y : ℕ} (hy : y < m.h)
    (h : s.Shown (m.w * y + x)) : s.Encodes m x y := by
  have hplace : m.fbpitch * y + m.bpp / 8 * x = 3 * (m.w * y + x) := by
    rw [hbpp]
    rcases hrows with hone | hpitch
    · obtain rfl : y = 0 := by omega
      omega
    · rw [hpitch, Nat.mul_assoc, Nat.mul_add]
  have h32 : ¬ m.bpp = 32 := by omega
  have hlength : List.range (m.bpp / 8) = [0, 1, 2] := by
    rw [hbpp]
    rfl
  unfold Screen.Encodes GraphicsMode.pixelBytes
  rw [hplace, hlength, if_neg h32, List.map_cons, List.map_cons, List.map_cons, h 0 (by decide), h 1 (by decide),
    h 2 (by decide)]
  rfl

/-- A flush of a screen without pixels does nothing. -/
theorem flushBuffer_empty (hempty : m.w * m.h = 0) (s : Screen) : flushBuffer m s = s := by
  unfold flushBuffer
  rw [hempty]
  rfl

/-- The white pixel that the failing screens are tried with. -/
def whitePixel (y : ℕ) : DrawCall := .blitColored ⟨fun _ => 0, .other, 1, 1⟩ 0 y ⟨255, 255, 255⟩

/-- The screen with that pixel in its first column. -/
theorem drawAll_whitePixel (hfits : m.Fits) (hwidth : 0 < m.w) {y : ℕ} (hy : y < m.h) :
    drawAll m (fun _ => 0) [whitePixel y] = some ((⟨fun _ => 0, fun _ => 0, fun _ => 0⟩ : Screen).draw (m.w * y) 0xFFFFFF) ∧
      (whitePixel y).Draws m (m.w * y) := by
  have hsize := hfits.size_lt
  have hheight := m.h_lt
  have hlast : m.w * y < m.w * m.h := Nat.mul_lt_mul_of_pos_left hy hwidth
  have hrows : counter y 1 = [y] := by
    unfold counter
    rw [Nat.mod_eq_of_lt (by omega), Nat.add_sub_cancel_left]
    rfl
  have hplace : m.pixelpos 0 y = m.w * y := by
    unfold GraphicsMode.pixelpos
    rw [Nat.add_zero, Nat.mul_comm, Nat.mod_eq_of_lt (by omega)]
  have hstart : startScreen m (fun _ => 0) = some ⟨fun _ => 0, fun _ => 0, fun _ => 0⟩ := if_pos hfits
  constructor
  · have hblit (s : Screen) : (whitePixel y).apply m s = some (s.draw (m.w * y) 0xFFFFFF) := by
      unfold whitePixel DrawCall.apply blitColored
      dsimp only
      rw [hrows, run, List.foldl_cons, List.foldl_nil, if_neg (Nat.not_le.mpr hy)]
      change some (if 0 ≥ m.w then s else s.draw (m.pixelpos 0 y) 0xFFFFFF) = _
      rw [if_neg (Nat.not_le.mpr hwidth), hplace]
    rw [drawAll, List.foldl_cons, List.foldl_nil, hstart, Option.bind_some, hblit]
  · have hmem : y ∈ counter y 1 := by
      rw [hrows]
      exact List.mem_cons_self
    exact ⟨y, hmem, hy, 0, by decide, hwidth, hplace.symm, rfl⟩

/-- With 32 bits to a pixel the white pixel is not shown. -/
theorem not_flushed_of_32 (hbpp : m.bpp = 32) (hfits : m.Fits) (hwidth : 0 < m.w) (hheight : 0 < m.h) : ¬ FlushesAll m := by
  intro hall
  obtain ⟨hdrawn, hdraws⟩ := drawAll_whitePixel hfits hwidth hheight
  obtain ⟨s, hs, hflushed⟩ := hall (fun _ => 0) [whitePixel 0] (by simp [whitePixel])
  obtain rfl := Option.some.inj (hdrawn.symm.trans hs)
  have hshown := hflushed.shown 0 hwidth 0 hheight ⟨whitePixel 0, List.mem_cons_self, hdraws⟩
  unfold Screen.Encodes at hshown
  rw [flushBuffer_framebuffer hbpp, hflushed.values] at hshown
  have hvalue : ((⟨fun _ => 0, fun _ => 0, fun _ => 0⟩ : Screen).draw (m.w * 0) 0xFFFFFF).localFb (m.w * 0 + 0) = 0xFFFFFF := by
    rw [Nat.add_zero]
    exact localFb_draw _ _ _
  unfold GraphicsMode.pixelBytes at hshown
  rw [hvalue, if_pos hbpp, hbpp] at hshown
  have hfirst : ((List.range (32 / 8)).map fun k => ((⟨fun _ => 0, fun _ => 0, fun _ => 0⟩ : Screen).draw (m.w * 0)
      0xFFFFFF).framebuffer (m.fbpitch * 0 + 32 / 8 * 0 + k)).head? = some 0 := rfl
  exact absurd (hfirst.symm.trans (congrArg List.head? hshown)) (by decide)

/-- With gaps between the rows a white pixel of the second row is not shown. -/
theorem not_flushed_of_gaps (hbpp : m.bpp = 24) (hfits : m.Fits) (hwidth : 0 < m.w) (hheight : 1 < m.h)
    (hpitch : 3 * m.w < m.fbpitch) : ¬ FlushesAll m := by
  intro hall
  have hsize := Nat.lt_trans hfits.size_lt (show 2 ^ 30 < 2 ^ 32 by decide)
  obtain ⟨hdrawn, hdraws⟩ := drawAll_whitePixel hfits hwidth hheight
  obtain ⟨s, hs, hflushed⟩ := hall (fun _ => 0) [whitePixel 1] (by simp [whitePixel])
  obtain rfl := Option.some.inj (hdrawn.symm.trans hs)
  have hshown := hflushed.shown 0 hwidth 1 hheight ⟨whitePixel 1, List.mem_cons_self, hdraws⟩
  unfold Screen.Encodes at hshown
  have hvalue : ((⟨fun _ => 0, fun _ => 0, fun _ => 0⟩ : Screen).draw (m.w * 1) 0xFFFFFF).localFb (m.w * 1 + 0) = 0xFFFFFF := by
    rw [Nat.add_zero]
    exact localFb_draw _ _ _
  have h32 : ¬ m.bpp = 32 := by omega
  unfold GraphicsMode.pixelBytes at hshown
  rw [hflushed.values, hvalue, if_neg h32, hbpp] at hshown
  -- the third byte is behind the pixel that was drawn
  have hbyte := congrArg (fun bytes : List ℕ => bytes[2]?) hshown
  have hlast : (flushBuffer m ((⟨fun _ => 0, fun _ => 0, fun _ => 0⟩ : Screen).draw (m.w * 1) 0xFFFFFF)).framebuffer
      (m.fbpitch * 1 + 24 / 8 * 0 + 2) = 0 := by
    rw [(flushBuffer_spec hbpp hsize).2.2, if_neg]
    · rfl
    · rintro ⟨-, hbit⟩
      have hbits := bitTest_bitAssign (fun _ => 0) (m.w * 1) ((m.fbpitch * 1 + 24 / 8 * 0 + 2) / 3) true
      rw [if_neg (by omega)] at hbits
      have hclear : bitTest (fun _ => 0) ((m.fbpitch * 1 + 24 / 8 * 0 + 2) / 3) = false := by
        unfold bitTest bit
        rw [Nat.zero_div]
        rfl
      exact absurd ((hbits.trans hclear).symm.trans hbit) (by decide)
  have hthree : ((List.range (24 / 8)).map fun k => (flushBuffer m ((⟨fun _ => 0, fun _ => 0, fun _ => 0⟩ : Screen).draw
      (m.w * 1) 0xFFFFFF)).framebuffer (m.fbpitch * 1 + 24 / 8 * 0 + k))[2]? = some 0 := congrArg some hlast
  exact absurd (hthree.symm.trans hbyte) (by decide)

/-- All calls that scroll by no more than the screen stay in `local_fb`. -/
theorem drawAll_isSome (hfits : m.Fits) (framebuffer : ℕ → ℕ) (calls : List DrawCall)
    (hcalls : ∀ bypx, DrawCall.scrollUp bypx ∈ calls → bypx ≤ m.h) : ∃ s, drawAll m framebuffer calls = some s := by
  unfold drawAll
  rw [startScreen, if_pos hfits]
  generalize (⟨framebuffer, fun _ => 0, fun _ => 0⟩ : Screen) = s
  induction calls generalizing s with
  | nil => exact ⟨s, rfl⟩
  | cons call rest ih =>
    have hfirst : ∃ s', call.apply m s = some s' := by
      cases call with
      | blitColored image x y recolor => exact ⟨_, rfl⟩
      | clearScreen color => exact ⟨_, rfl⟩
      | scrollUp bypx =>
        obtain ⟨s', hscroll, -⟩ := scrollUp_flushes hfits (hcalls bypx List.mem_cons_self) s
        exact ⟨_, hscroll⟩
    obtain ⟨s', happly⟩ := hfirst
    rw [List.foldl_cons, Option.bind_some, happly]
    exact ih (fun bypx hbypx => hcalls bypx (List.mem_cons_of_mem call hbypx)) s'

/-- What is drawn is shown exactly on screens that fit and have no pixels at all, or 24 bits to a pixel and no gaps between
their rows. -/
theorem flushesAll_iff (m : GraphicsMode) (hbpp : m.bpp = 24 ∨ m.bpp = 32) (hpitch : m.w * (m.bpp / 8) ≤ m.fbpitch) :
    FlushesAll m ↔ m.Fits ∧ (m.w * m.h = 0 ∨ m.bpp = 24 ∧ (m.h = 1 ∨ m.fbpitch = 3 * m.w)) := by
  constructor
  · intro hall
    have hfits : m.Fits := by
      obtain ⟨s, hs, -⟩ := hall (fun _ => 0) [] (by simp)
      by_contra hsmall
      have hnone : drawAll m (fun _ => 0) [] = none := if_neg hsmall
      exact absurd (hnone.symm.trans hs) (by simp)
    refine ⟨hfits, ?_⟩
    by_cases hempty : m.w * m.h = 0
    · exact Or.inl hempty
    · have hwidth : 0 < m.w := Nat.pos_of_ne_zero fun hzero => hempty (by rw [hzero, Nat.zero_mul])
      have hheight : 0 < m.h := Nat.pos_of_ne_zero fun hzero => hempty (by rw [hzero, Nat.mul_zero])
      right
      rcases hbpp with h24 | h32
      · refine ⟨h24, ?_⟩
        by_contra hrows
        rw [not_or] at hrows
        rw [h24] at hpitch
        exact not_flushed_of_gaps h24 hfits hwidth (by omega) (by omega) hall
      · exact absurd hall (not_flushed_of_32 h32 hfits hwidth hheight)
  · rintro ⟨hfits, hscreen⟩ framebuffer calls hcalls
    rcases hscreen with hempty | ⟨h24, hrows⟩
    · obtain ⟨s, hs⟩ := drawAll_isSome hfits framebuffer calls hcalls
      have hflush := flushBuffer_empty hempty s
      refine ⟨s, hs, fun x hx y hy _ => ?_, fun i hi => ?_, by rw [hflush], fun i hi => ?_⟩
      · exact absurd (Nat.mul_pos (Nat.zero_lt_of_lt hx) (Nat.zero_lt_of_lt hy)) (by omega)
      · omega
      · rwa [hflush] at hi
    · have hsize := Nat.lt_trans hfits.size_lt (show 2 ^ 30 < 2 ^ 32 by decide)
      have hstart : (⟨framebuffer, fun _ => 0, fun _ => 0⟩ : Screen).Coherent (m.w * m.h) fun _ => False :=
        fun i _ hdrawn => hdrawn.elim
      obtain ⟨s, hs, hcoherent⟩ := hstart.calls h24 hfits calls hcalls
      obtain ⟨hvalue, hbits, -⟩ := @flushBuffer_spec m s h24 hsize
      refine ⟨s, ?_, fun x hx y hy hdrawn => ?_, fun i hi => ?_, hvalue, fun i hi => ?_⟩
      · rw [drawAll, startScreen, if_pos hfits]
        exact hs
      · have hplace : m.w * y + x < m.w * m.h :=
          Nat.lt_of_lt_of_le (Nat.add_lt_add_left hx _) (Nat.mul_le_mul_left m.w hy)
        exact (flush_shown h24 hsize hplace (hcoherent _ hplace (Or.inr hdrawn))).encodes h24 hrows hy
      · rw [hbits, decide_eq_false (Nat.not_le.mpr hi), Bool.false_and]
      · rw [hbits, Bool.and_eq_true] at hi
        exact hi.2

/-- A screen of 24 bits to a pixel. -/
theorem flushesAll_iff_vga : FlushesAll ⟨640, 480, 1920, 24, by decide, by decide⟩ :=
  (flushesAll_iff ⟨640, 480, 1920, 24, by decide, by decide⟩ (Or.inl rfl) (by decide)).mpr
    ⟨by decide, Or.inr ⟨rfl, Or.inr (by decide)⟩⟩

/-- A screen of 32 bits to a pixel shows nothing. -/
theorem flushesNothing_32 : ¬ FlushesAll ⟨640, 480, 2560, 32, by decide, by decide⟩ :=
  not_flushed_of_32 rfl (by decide) (by decide) (by decide)

end Screens

end Cthulhu
