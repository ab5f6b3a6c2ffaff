import Cthulhu.Screen.Console

/-!
# The text console as a window

In text mode the console writes into the memory of the screen and moves the rows up when the cursor leaves the last one.
Below, everything that was written since the screen was cleared stays where it was put, on a page of unlimited length, and
the screen shows the last rows of it. Clearing leaves out the row that scrolling goes to, so this row comes with the page.
-/

namespace Cthulhu

open Lib

/-- A character with its attribute, as `kd_cput` and `kd_cclear` put them together. -/
def textCell (c back fore : ℕ) : ℕ := c ||| (back * 16 % 256 ||| fore % 16) <<< 8

/-- The cells that `scroll` leaves in the last row, white on black. -/
def scrolledCell : ℕ := textCell 32 0 15

/-- `text_mode_video_memory`. -/
abbrev VideoMemory : Type := ℕ → ℕ

section Memory

variable (w h : ℕ)

/-- The first loop of `scroll`. -/
def moveRows (m : VideoMemory) : VideoMemory := run (fun m i => Function.update m i (m (i + w))) m (List.range (h * w))

/-- The loops that set cells to a blank, from one place up to another. -/
def blankCells (from_ to_ blank : ℕ) (m : VideoMemory) : VideoMemory :=
  run (fun m i => Function.update m i blank) m (List.range' from_ (to_ - from_))

/-- The memory after `scroll`. -/
def scrollMemory (m : VideoMemory) : VideoMemory := blankCells (h * w) ((h + 1) * w) scrolledCell (moveRows w h m)

end Memory

/-- The cursor and the memory of the screen. -/
structure TextScreen where
  cursor : Cursor
  memory : VideoMemory

/-- What is written: a character in its colors, or the screen is cleared. -/
inductive ConsoleCall where
  | cput (c : ℤ) (back fore : ℕ)
  | cclear (back : ℕ)

/-- The character that is drawn, if one is. -/
def drawMemory (w : ℕ) (m : VideoMemory) (drawn : Option (ℕ × ℕ)) (cell : ℕ) : VideoMemory :=
  match drawn with
  | some (x, y) => Function.update m (y * w + x) cell
  | none => m

/-- `kd_cput` and `kd_cclear` in text mode. A line end and a return also call `flush_buffer`, which in this mode clears the
bits that are set in `w * h / 8` bytes from address zero on, as its arrays are not there. These bytes are no part of the
screen and are left out here; when `deallocate_start_memory` has taken the page away, the calls with 10 and 13 fault. -/
def TextScreen.call (d : Display) (s : TextScreen) : ConsoleCall → TextScreen
  | .cput c back fore =>
    let memory := drawMemory d.w s.memory (s.cursor.put c).1 (textCell c.toNat back fore)
    let wrapped := d.wrap (s.cursor.put c).2
    { cursor := d.scroll wrapped
      memory := if (d.lastRow + 1) % 2 ^ 32 ≤ wrapped.y then scrollMemory d.w d.h memory else memory }
  | .cclear back => { cursor := ⟨0, 0, 0⟩, memory := blankCells 0 (d.w * d.h) (textCell 32 back 15) s.memory }

/-- The page that is written on, and the cursor of the console. -/
structure Page where
  cursor : Cursor
  cell : ℕ → ℕ → ℕ

/-- The character on the page. -/
def drawPage (row : ℕ) (cells : ℕ → ℕ → ℕ) (drawn : Option (ℕ × ℕ)) (cell : ℕ) : ℕ → ℕ → ℕ :=
  match drawn with
  | some (x, _) => Function.update cells row (Function.update (cells row) x cell)
  | none => cells

/-- The same calls on a page. Nothing moves. -/
def Page.call (d : Display) (p : Page) : ConsoleCall → Page
  | .cput c back fore =>
    { cursor := (d.kdCput p.cursor c).2
      cell := drawPage p.cursor.row p.cell (p.cursor.put c).1 (textCell c.toNat back fore) }
  | .cclear back =>
    { cursor := ⟨0, 0, 0⟩
      cell := fun row => if row < d.h then fun _ => textCell 32 back 15 else
        if row = d.h then p.cell (p.cursor.scrolled + d.h) else fun _ => scrolledCell }

/-- A page that begins with what is on the screen. -/
def Page.of (d : Display) (m : VideoMemory) : Page :=
  { cursor := ⟨0, 0, 0⟩
    cell := fun row column => if row ≤ d.h then m (row * d.w + column) else scrolledCell }

/-- The rows of the screen are the rows of the page from the one that the scrolling has come to on. -/
structure Window (d : Display) (s : TextScreen) (p : Page) : Prop where
  cursor : s.cursor = p.cursor
  column : s.cursor.x = 0 ∨ s.cursor.x < d.w / 8
  row : s.cursor.y ≤ d.h
  shown : ∀ row ≤ d.h, ∀ column < d.w, s.memory (row * d.w + column) = p.cell (p.cursor.scrolled + row) column
  blank : ∀ row, p.cursor.scrolled + d.h < row → ∀ column, p.cell row column = scrolledCell

section Loops

variable {w h : ℕ} {m : VideoMemory}

/-- The rows move up, each cell before it is overwritten. -/
theorem moveRows_apply (i : ℕ) : moveRows w h m i = if i < h * w then m (i + w) else m i := by
  have hrows (n i : ℕ) : run (fun m i => Function.update m i (m (i + w))) m (List.range n) i =
      if i < n then m (i + w) else m i := by
    induction n generalizing i with
    | zero => rfl
    | succ n ih =>
      rw [List.range_succ, run, List.foldl_append, List.foldl_cons, List.foldl_nil]
      change Function.update (run _ m (List.range n)) n (run _ m (List.range n) (n + w)) i = _
      by_cases hi : i = n
      · subst hi
        rw [Function.update_self, ih, if_neg (by omega), if_pos (by omega)]
      · rw [Function.update_of_ne hi, ih]
        by_cases hlt : i < n
        · rw [if_pos hlt, if_pos (by omega)]
        · rw [if_neg hlt, if_neg (by omega)]
  exact hrows (h * w) i

/-- The blank cells. -/
theorem blankCells_apply (lo hi blank i : ℕ) : blankCells lo hi blank m i = if lo ≤ i ∧ i < hi then blank else m i := by
  have hcells (n : ℕ) : run (fun m i => Function.update m i blank) m (List.range' lo n) i =
      if lo ≤ i ∧ i < lo + n then blank else m i := by
    induction n with
    | zero => rw [if_neg (by omega)]; rfl
    | succ n ih =>
      rw [List.range'_concat, run, List.foldl_append, List.foldl_cons, List.foldl_nil, Nat.one_mul]
      change Function.update (run _ m (List.range' lo n)) (lo + n) blank i = _
      by_cases hi : i = lo + n
      · subst hi
        rw [Function.update_self, if_pos (by omega)]
      · rw [Function.update_of_ne hi, ih]
        by_cases hlt : lo ≤ i ∧ i < lo + n
        · rw [if_pos hlt, if_pos (by omega)]
        · rw [if_neg hlt, if_neg (by omega)]
  unfold blankCells
  rw [hcells]
  by_cases hlt : lo ≤ i ∧ i < hi
  · rw [if_pos hlt, if_pos (by omega)]
  · rw [if_neg hlt, if_neg (by omega)]

end Loops

section Cells

variable {w row column : ℕ}

/-- Different places of the screen are different cells. -/
theorem cell_inj (hc : column < w) {row' column' : ℕ} (hc' : column' < w) :
    row * w + column = row' * w + column' ↔ row = row' ∧ column = column' := by
  constructor
  · intro heq
    have hpos : 0 < w := Nat.zero_lt_of_lt hc
    have hrow := congrArg (· / w) heq
    simp only [Nat.mul_comm _ w, Nat.mul_add_div hpos, Nat.div_eq_of_lt hc, Nat.div_eq_of_lt hc', Nat.add_zero] at hrow
    subst hrow
    exact ⟨rfl, Nat.add_left_cancel heq⟩
  · rintro ⟨rfl, rfl⟩
    rfl

/-- The row after `scroll`, at a place of the screen. -/
theorem scrollMemory_apply {h : ℕ} (m : VideoMemory) (hrow : row ≤ h) (hcolumn : column < w) :
    scrollMemory w h m (row * w + column) = if row < h then m ((row + 1) * w + column) else scrolledCell := by
  have hnext : (row + 1) * w = row * w + w := Nat.succ_mul row w
  unfold scrollMemory
  rw [blankCells_apply]
  by_cases hlt : row < h
  · have hle : (row + 1) * w ≤ h * w := Nat.mul_le_mul_right w hlt
    rw [if_pos hlt, if_neg (by omega), moveRows_apply, if_pos (by omega), hnext]
    congr 1
    omega
  · obtain rfl : row = h := by omega
    have hlast : (row + 1) * w = row * w + w := Nat.succ_mul row w
    rw [if_neg hlt, if_pos (by omega)]

end Cells

namespace Window

variable {d : Display} {s : TextScreen} {p : Page}

/-- The column of the cursor is on the screen. -/
theorem column_lt (hw : Window d s p) (hwide : 0 < d.w) : s.cursor.x < d.w := by
  have hle := Nat.div_le_self d.w 8
  rcases hw.column with hx | hx <;> omega

/-- A character is drawn where the page has it. -/
theorem draw (hw : Window d s p) (hwide : 0 < d.w) (c : ℤ) (cell : ℕ) {row column : ℕ} (hcolumn : column < d.w)
    (hrow : row ≤ d.h) : drawMemory d.w s.memory (s.cursor.put c).1 cell (row * d.w + column) =
      drawPage p.cursor.row p.cell (p.cursor.put c).1 cell (p.cursor.scrolled + row) column := by
  rw [← hw.cursor]
  cases hdrawn : (s.cursor.put c).1 with
  | none => exact hw.cursor ▸ hw.shown row hrow column hcolumn
  | some place =>
    obtain rfl := Display.put_cell (hdrawn ▸ Option.mem_some_self place)
    have hx := hw.column_lt hwide
    have hshown := hw.shown row hrow column hcolumn
    rw [← hw.cursor] at hshown
    unfold drawMemory drawPage Cursor.row
    dsimp only
    by_cases hat : row = s.cursor.y
    · subst hat
      rw [Nat.add_comm s.cursor.scrolled, Function.update_self]
      by_cases hc : column = s.cursor.x
      · subst hc
        rw [Function.update_self, Function.update_self]
      · rw [Function.update_of_ne fun heq => hc ((cell_inj hcolumn hx).mp heq).2, Function.update_of_ne hc, hshown, Nat.add_comm]
    · rw [Function.update_of_ne fun heq => hat ((cell_inj hcolumn hx).mp heq).1, Function.update_of_ne (by omega), hshown]

/-- Below the screen nothing is drawn. -/
theorem draw_blank (hw : Window d s p) (c : ℤ) (cell : ℕ) {row : ℕ} (hrow : p.cursor.scrolled + d.h < row) (column : ℕ) :
    drawPage p.cursor.row p.cell (p.cursor.put c).1 cell row column = scrolledCell := by
  have hy := hw.row
  rw [hw.cursor] at hy
  have hblank := hw.blank row hrow column
  cases hdrawn : (p.cursor.put c).1 with
  | none => exact hblank
  | some place =>
    unfold drawPage Cursor.row
    dsimp only
    rw [Function.update_of_ne (by omega)]
    exact hblank

/-- The scrolling is counted by `scroll` alone. -/
theorem wrap_scrolled (cur : Cursor) (c : ℤ) : (d.wrap (cur.put c).2).scrolled = cur.scrolled := by
  have hput : (cur.put c).2.scrolled = cur.scrolled := by
    unfold Cursor.put
    split_ifs <;> rfl
  unfold Display.wrap
  split_ifs <;> exact hput

/-- A character keeps the window, and the row that moves up from below is blank. -/
theorem cput (hw : Window d s p) (hmode : d.mode = .text) (hwide : 0 < d.w) (hlow : d.h < 255) (c : ℤ) (back fore : ℕ) :
    Window d (s.call d (.cput c back fore)) (p.call d (.cput c back fore)) := by
  have hlast : d.lastRow = d.h := by
    unfold Display.lastRow
    rw [hmode]
  have hcursor : (p.call d (.cput c back fore)).cursor = d.scroll (d.wrap (s.cursor.put c).2) := by
    rw [hw.cursor]
    rfl
  have hscrolled := wrap_scrolled (d := d) s.cursor c
  have hmemory : (s.call d (.cput c back fore)).memory = if (d.lastRow + 1) % 2 ^ 32 ≤ (d.wrap (s.cursor.put c).2).y then
      scrollMemory d.w d.h (drawMemory d.w s.memory (s.cursor.put c).1 (textCell c.toNat back fore))
      else drawMemory d.w s.memory (s.cursor.put c).1 (textCell c.toNat back fore) := rfl
  refine ⟨hcursor.symm, ?_, ?_, fun row hrow column hcolumn => ?_, fun row hrow column => ?_⟩
  · change (d.scroll _).x = 0 ∨ (d.scroll _).x < _
    rw [Display.scroll_x]
    exact Display.wrap_x
  · rw [← hlast]
    exact Display.scroll_y_le (by omega)
  · rw [hmemory, hcursor]
    change _ = drawPage p.cursor.row p.cell (p.cursor.put c).1 _ _ column
    unfold Display.scroll
    split
    · dsimp only
      rw [scrollMemory_apply _ hrow hcolumn, hscrolled, hw.cursor]
      by_cases hlt : row < d.h
      · rw [if_pos hlt, ← hw.cursor, hw.draw hwide c _ hcolumn hlt, hw.cursor, Nat.add_right_comm, Nat.add_assoc]
      · rw [if_neg hlt]
        exact (hw.draw_blank c _ (by omega) column).symm
    · rw [hscrolled, hw.cursor, ← hw.cursor, hw.draw hwide c _ hcolumn hrow, hw.cursor]
  · apply hw.draw_blank
    have hle : p.cursor.scrolled ≤ (p.call d (.cput c back fore)).cursor.scrolled := by
      rw [hcursor]
      unfold Display.scroll
      split
      · dsimp only
        rw [hscrolled, hw.cursor]
        exact Nat.le_succ _
      · exact Nat.le_of_eq (by rw [hscrolled, hw.cursor])
    omega

/-- Clearing the screen begins a page. -/
theorem cclear (hw : Window d s p) (back : ℕ) : Window d (s.call d (.cclear back)) (p.call d (.cclear back)) := by
  refine ⟨rfl, Or.inl rfl, Nat.zero_le _, fun row hrow column hcolumn => ?_, fun row hrow column => ?_⟩
  · unfold TextScreen.call Page.call
    dsimp only
    rw [blankCells_apply, Nat.zero_add, Nat.mul_comm d.w]
    by_cases hlt : row < d.h
    · have hle : (row + 1) * d.w ≤ d.h * d.w := Nat.mul_le_mul_right d.w hlt
      have hnext : (row + 1) * d.w = row * d.w + d.w := Nat.succ_mul row d.w
      rw [if_pos (by omega), if_pos hlt]
    · obtain rfl : row = d.h := by omega
      rw [if_neg (by omega), if_neg hlt, if_pos rfl]
      exact hw.shown _ (Nat.le_refl _) column hcolumn
  · unfold Page.call at hrow ⊢
    dsimp only at hrow ⊢
    rw [if_neg (by omega), if_neg (by omega)]

end Window

/-- At every time of every run of the console in text mode, from anything on the screen: the screen shows, cell by cell, the
rows of the page that the scrolling has come to, and the cursor is where the page has it. -/
theorem console_window (d : Display) (hmode : d.mode = .text) (hwide : 0 < d.w) (hlow : d.h < 255) (m : VideoMemory)
    (calls : List ConsoleCall) :
    let s := run (TextScreen.call d) ⟨⟨0, 0, 0⟩, m⟩ calls
    let p := run (Page.call d) (.of d m) calls
    s.cursor = p.cursor ∧ s.cursor.y ≤ d.h ∧
      (∀ row ≤ d.h, ∀ column < d.w, s.memory (row * d.w + column) = p.cell (p.cursor.scrolled + row) column) ∧
      ∀ row, p.cursor.scrolled + d.h < row → ∀ column, p.cell row column = scrolledCell := by
  have hwindow : ∀ (s : TextScreen) (p : Page), Window d s p →
      Window d (run (TextScreen.call d) s calls) (run (Page.call d) p calls) := by
    induction calls with
    | nil => exact fun s p hw => hw
    | cons call rest ih =>
      intro s p hw
      cases call with
      | cput c back fore => exact ih _ _ (hw.cput hmode hwide hlow c back fore)
      | cclear back => exact ih _ _ (hw.cclear back)
  have hfirst : Window d ⟨⟨0, 0, 0⟩, m⟩ (.of d m) := by
    refine ⟨rfl, Or.inl rfl, Nat.zero_le _, fun row hrow column _ => ?_, fun row hrow column => ?_⟩
    · unfold Page.of
      dsimp only
      rw [Nat.zero_add, if_pos hrow]
    · unfold Page.of at hrow ⊢
      dsimp only at hrow ⊢
      rw [if_neg (by omega)]
  have hw := hwindow _ _ hfirst
  exact ⟨hw.cursor, hw.row, hw.shown, hw.blank⟩

/-- Rows are counted in a word. -/
theorem textRows_lt : 24 < 2 ^ 32 := by
  decide

/-- The mode without a frame buffer. -/
def textDisplay : Display := ⟨.text, 80, 24, textRows_lt⟩

/-- Two letters under each other, and line ends until the rows have moved once. -/
def scrolledText : List ConsoleCall :=
  [.cput 65 0 7, .cput 10 0 7, .cput 66 0 7] ++ List.replicate 24 (.cput 10 0 7)

set_option maxRecDepth 4000 in
/-- The first row of the screen is the second one of the page. -/
theorem console_window_textDisplay :
    (run (TextScreen.call textDisplay) ⟨⟨0, 0, 0⟩, fun _ => 0⟩ scrolledText).memory (0 * 80 + 0) = textCell 66 0 7 :=
  ((console_window textDisplay rfl (by decide) (by decide) (fun _ => 0) scrolledText).2.2.1 0 (by decide) 0 (by decide)).trans
    rfl

end Cthulhu
