import Cthulhu.Lib.Run
import Mathlib.Algebra.Group.Nat.Defs
import Mathlib.Data.List.Induction

/-!
# The console cursor

Wrapping and scrolling are two tests after the character itself. The width that a text row wraps at is the one in
glyphs of graphics mode when that is smaller, and the last row that graphics mode scrolls to starts where the
whole rows of glyphs end.
-/

namespace Cthulhu

open Lib

/-- The two modes of `grx.h`. -/
inductive Mode where
  | text
  | graphics
  deriving DecidableEq

/-- The mode and the size that `set_graphics_mode` leaves. -/
structure Display where
  mode : Mode
  w : ℕ
  h : ℕ
  h_lt : h < 2 ^ 32

/-- `cursor_x` and `cursor_y`, and how often the screen was scrolled by a row. -/
structure Cursor where
  x : ℕ
  y : ℕ
  scrolled : ℕ
  deriving DecidableEq

/-- The row of the text that the cursor is in, which scrolling does not change. -/
def Cursor.row (cur : Cursor) : ℕ := cur.y + cur.scrolled

/-- The start of the next row. -/
def Cursor.nextRow (cur : Cursor) : Cursor := { cur with x := 0, y := (cur.y + 1) % 256 }

/-- The characters that are drawn. A `char` is signed. -/
def Printable (c : ℤ) : Prop := 32 ≤ c

instance (c : ℤ) : Decidable (Printable c) := inferInstanceAs (Decidable (32 ≤ c))

/-- The first part of `kd_cput`: the cell that is drawn and the cursor behind it. -/
def Cursor.put (cur : Cursor) (c : ℤ) : Option (ℕ × ℕ) × Cursor :=
  if c = 8 ∧ cur.x ≠ 0 then (none, { cur with x := cur.x - 1 })
  else if c = 9 then (none, { cur with x := 8 * ((cur.x + 8) / 8) % 256 })
  else if c = 13 then (none, { cur with x := 0 })
  else if c = 10 then (none, cur.nextRow)
  else if Printable c then (some (cur.x, cur.y), { cur with x := (cur.x + 1) % 256 })
  else (none, cur)

namespace Display

variable (d : Display)

/-- The row that `scroll` brings the cursor back to. -/
def lastRow : ℕ :=
  match d.mode with
  | .text => d.h
  | .graphics => d.h / 14

/-- The column count of the mode. -/
def columns : ℕ :=
  match d.mode with
  | .text => 80
  | .graphics => d.w / 8

/-- The test for the end of a row. The second test is made in text mode too. -/
def wrap (cur : Cursor) : Cursor :=
  if 80 ≤ cur.x ∧ d.mode = .text then cur.nextRow
  else if d.w / 8 ≤ cur.x then cur.nextRow
  else cur

/-- `scroll`. -/
def scroll (cur : Cursor) : Cursor :=
  if (d.lastRow + 1) % 2 ^ 32 ≤ cur.y then { cur with y := d.lastRow % 256, scrolled := cur.scrolled + 1 } else cur

/-- `kd_cput`: what is drawn, and the cursor. A line end and a return also call `flush_buffer`. In graphics mode this brings
what is drawn to the frame buffer; in text mode its arrays are not there, and it faults on the null pointer once
`deallocate_start_memory` has taken the first page away. -/
def kdCput (cur : Cursor) (c : ℤ) : Option (ℕ × ℕ) × Cursor := ((cur.put c).1, d.scroll (d.wrap (cur.put c).2))

/-- The cursor after some characters. -/
def after (chars : List ℤ) : Cursor := run (fun cur c => (d.kdCput cur c).2) ⟨0, 0, 0⟩ chars

/-- The cell lies on the screen. -/
def OnScreen (column row : ℕ) : Prop :=
  match d.mode with
  | .text => column < 80
  | .graphics => column < d.w / 8 ∧ 14 * (row + 1) ≤ d.h

/-- What a console promises for a text. -/
structure ConsoleRight (chars : List ℤ) : Prop where
  drawn : ∀ pre c post, chars = pre ++ c :: post → ∀ cell ∈ (d.kdCput (d.after pre) c).1, d.OnScreen cell.1 cell.2
  kept : ∀ pre c post, chars = pre ++ c :: post → d.OnScreen (d.after (pre ++ [c])).x (d.after (pre ++ [c])).y
  oneRow : ∀ pre word post, chars = pre ++ (word ++ post) → (∀ c ∈ word, Printable c) →
    (d.after pre).x + word.length < d.columns →
    ∀ i < word.length, (d.after (pre ++ word.take i)).row = (d.after pre).row

/-- The character takes the cursor to the next row of a screen in graphics mode. -/
def EndsRow (cur : Cursor) (c : ℤ) : Prop :=
  c = 10 ∨ (c = 9 ∧ d.w / 8 ≤ 8 * ((cur.x + 8) / 8) % 256) ∨ (Printable c ∧ d.w / 8 ≤ (cur.x + 1) % 256)

/-- The texts that the console is right for. -/
def StaysOnScreen (chars : List ℤ) : Prop :=
  match d.mode with
  | .text => ∀ pre word post, chars = pre ++ (word ++ post) → (∀ c ∈ word, Printable c) → 1 < word.length →
    (d.after pre).x + word.length < 80 → d.h + 1 < 2 ^ 32 ∧ (d.after pre).x + word.length ≤ d.w / 8
  | .graphics => chars = [] ∨ (1 ≤ d.w / 8 ∧ 1 ≤ d.h / 14 ∧
    ∀ pre c post, chars = pre ++ c :: post → d.EndsRow (d.after pre) c → ((d.after pre).y + 1) % 256 < d.h / 14)

section Steps

variable {d} {cur : Cursor} {c : ℤ}

/-- One more character. -/
theorem after_append (pre : List ℤ) (c : ℤ) : d.after (pre ++ [c]) = (d.kdCput (d.after pre) c).2 := by
  unfold after run
  rw [List.foldl_append]
  rfl

@[simp] theorem scroll_x : (d.scroll cur).x = cur.x := by
  unfold scroll
  split <;> rfl

/-- `scroll` does nothing above the row that it scrolls to. -/
theorem scroll_of_le (hlast : d.lastRow + 1 < 2 ^ 32) (hy : cur.y ≤ d.lastRow) : d.scroll cur = cur := by
  unfold scroll
  rw [Nat.mod_eq_of_lt hlast, if_neg (by omega)]

/-- The cursor is in a row of the screen, or in the one that `scroll` goes to. -/
theorem scroll_y_le (hlast : d.lastRow + 1 < 2 ^ 32) : (d.scroll cur).y ≤ d.lastRow := by
  unfold scroll
  rw [Nat.mod_eq_of_lt hlast]
  split
  · exact Nat.mod_le _ _
  · omega

/-- The row number is kept in a byte. -/
theorem scroll_y_lt (hy : cur.y < 256) : (d.scroll cur).y < 256 := by
  unfold scroll
  split
  · exact Nat.mod_lt _ (by omega)
  · exact hy

/-- The column behind a wrapped row. -/
theorem wrap_x : (d.wrap cur).x = 0 ∨ (d.wrap cur).x < d.w / 8 := by
  unfold wrap Cursor.nextRow
  split
  · exact Or.inl rfl
  · split
    · exact Or.inl rfl
    · exact Or.inr (by omega)

/-- In text mode no row is longer than 80 columns. -/
theorem wrap_x_lt (hmode : d.mode = .text) : (d.wrap cur).x < 80 := by
  unfold wrap Cursor.nextRow
  split
  · exact Nat.zero_lt_succ 79
  · split
    · exact Nat.zero_lt_succ 79
    · rename_i hwide _
      rw [hmode] at hwide
      simpa using hwide

/-- A column that does not end the row. -/
theorem wrap_of_lt (hx : cur.x < d.w / 8) (htext : d.mode = .text → cur.x < 80) : d.wrap cur = cur := by
  have h80 : ¬ (80 ≤ cur.x ∧ d.mode = .text) := fun hend => absurd (htext hend.2) (by omega)
  unfold wrap
  rw [if_neg h80, if_neg (by omega)]

/-- A column that does. -/
theorem wrap_of_le (hx : d.w / 8 ≤ cur.x) : d.wrap cur = cur.nextRow := by
  unfold wrap
  rw [if_pos hx, ite_self]

/-- The row number is kept in a byte. -/
theorem wrap_y_lt (hy : cur.y < 256) : (d.wrap cur).y < 256 := by
  have hnext : cur.nextRow.y < 256 := Nat.mod_lt _ (by omega)
  unfold wrap
  split
  · exact hnext
  · split
    · exact hnext
    · exact hy

theorem put_x_lt (hx : cur.x < 256) : (cur.put c).2.x < 256 := by
  unfold Cursor.put
  split_ifs
  · exact Nat.lt_of_le_of_lt (Nat.sub_le _ _) hx
  · exact Nat.mod_lt _ (by omega)
  · exact Nat.zero_lt_succ 255
  · exact Nat.zero_lt_succ 255
  · exact Nat.mod_lt _ (by omega)
  · exact hx

theorem wrap_x_byte (hx : cur.x < 256) : (d.wrap cur).x < 256 := by
  unfold wrap
  split_ifs
  · exact Nat.zero_lt_succ 255
  · exact Nat.zero_lt_succ 255
  · exact hx

theorem put_y_lt (hy : cur.y < 256) : (cur.put c).2.y < 256 := by
  have hnext : cur.nextRow.y < 256 := Nat.mod_lt _ (by omega)
  unfold Cursor.put
  split_ifs
  · exact hy
  · exact hy
  · exact hy
  · exact hnext
  · exact hy
  · exact hy

/-- A printable character is drawn at the cursor, which goes one column on. -/
theorem put_printable (hc : Printable c) : cur.put c = (some (cur.x, cur.y), { cur with x := (cur.x + 1) % 256 }) := by
  have hge : 32 ≤ c := hc
  unfold Cursor.put
  rw [if_neg (by omega), if_neg (by omega), if_neg (by omega), if_neg (by omega), if_pos hc]

/-- What is drawn is drawn at the cursor. -/
theorem put_cell {cell : ℕ × ℕ} (h : cell ∈ (cur.put c).1) : cell = (cur.x, cur.y) := by
  unfold Cursor.put at h
  split_ifs at h <;> simp_all

end Steps

section Prefixes

variable {d}

theorem after_x (chars : List ℤ) : (d.after chars).x = 0 ∨ (d.after chars).x < d.w / 8 := by
  induction chars using List.reverseRecOn with
  | nil => exact Or.inl rfl
  | append_singleton pre c _ =>
    rw [after_append]
    change (d.scroll _).x = 0 ∨ (d.scroll _).x < d.w / 8
    rw [scroll_x]
    exact wrap_x

/-- The column number is kept in a byte too. -/
theorem after_x_byte (chars : List ℤ) : (d.after chars).x < 256 := by
  induction chars using List.reverseRecOn with
  | nil => exact Nat.zero_lt_succ 255
  | append_singleton pre c ih =>
    rw [after_append]
    change (d.scroll _).x < 256
    rw [scroll_x]
    exact wrap_x_byte (put_x_lt ih)

theorem after_x_lt (hmode : d.mode = .text) (chars : List ℤ) : (d.after chars).x < 80 := by
  induction chars using List.reverseRecOn with
  | nil => exact Nat.zero_lt_succ 79
  | append_singleton pre c _ =>
    rw [after_append]
    change (d.scroll _).x < 80
    rw [scroll_x]
    exact wrap_x_lt hmode

theorem after_y_lt (chars : List ℤ) : (d.after chars).y < 256 := by
  induction chars using List.reverseRecOn with
  | nil => exact Nat.zero_lt_succ 255
  | append_singleton pre c ih =>
    rw [after_append]
    exact scroll_y_lt (wrap_y_lt (put_y_lt ih))

theorem after_y_le (hlast : d.lastRow + 1 < 2 ^ 32) (chars : List ℤ) : (d.after chars).y ≤ d.lastRow := by
  induction chars using List.reverseRecOn with
  | nil => exact Nat.zero_le _
  | append_singleton pre c _ =>
    rw [after_append]
    exact scroll_y_le hlast

/-- Printable characters move the cursor along its row as long as the row is not full. -/
theorem after_word (hlast : d.lastRow + 1 < 2 ^ 32) (pre : List ℤ) {word : List ℤ} (hword : ∀ c ∈ word, Printable c)
    {i : ℕ} (hi : i ≤ word.length)
    (hfit : i = 0 ∨ ((d.after pre).x + i < d.w / 8 ∧ (d.mode = .text → (d.after pre).x + i < 80))) :
    d.after (pre ++ word.take i) = { d.after pre with x := ((d.after pre).x + i) % 256 } := by
  induction i with
  | zero =>
    rw [List.take_zero, List.append_nil, Nat.add_zero, Nat.mod_eq_of_lt (after_x_byte pre)]
  | succ i ih =>
    have hroom := hfit.resolve_left (Nat.succ_ne_zero i)
    have hbefore := ih (by omega) (Or.inr ⟨by omega, fun hmode => by have := hroom.2 hmode; omega⟩)
    have hprint : Printable word[i] := hword _ (List.getElem_mem _)
    have hmod : (((d.after pre).x + i) % 256 + 1) % 256 = ((d.after pre).x + (i + 1)) % 256 := by omega
    have hle : ((d.after pre).x + (i + 1)) % 256 ≤ (d.after pre).x + (i + 1) := Nat.mod_le _ _
    rw [List.take_succ_eq_append_getElem hi, ← List.append_assoc, after_append, hbefore]
    unfold kdCput
    rw [put_printable hprint]
    dsimp only
    rw [hmod, wrap_of_lt (by dsimp only; omega) (fun hmode => by have := hroom.2 hmode; dsimp only; omega)]
    exact scroll_of_le hlast (after_y_le hlast pre)

/-- The next character fills the row, and the cursor leaves it. -/
theorem row_of_full {cur : Cursor} {c : ℤ} (hlast : d.lastRow + 1 < 2 ^ 32) (hc : Printable c) (hy : cur.y ≤ d.lastRow)
    (hfull : d.w / 8 ≤ (cur.x + 1) % 256) : (d.kdCput cur c).2.row ≠ cur.row := by
  unfold kdCput
  rw [put_printable hc]
  dsimp only
  rw [wrap_of_le hfull]
  unfold scroll Cursor.nextRow Cursor.row
  rw [Nat.mod_eq_of_lt hlast]
  dsimp only
  split
  · have hmod : d.lastRow % 256 = d.lastRow := Nat.mod_eq_of_lt (by omega)
    dsimp only
    omega
  · dsimp only
    omega

end Prefixes

section Text

variable {d} {chars : List ℤ}

/-- A word that the row in glyphs has no room for is split. -/
theorem row_split (hlast : d.lastRow + 1 < 2 ^ 32) (pre : List ℤ) {word : List ℤ}
    (hword : ∀ c ∈ word, Printable c) (hlong : 1 < word.length) (hend : (d.after pre).x + word.length < 80)
    (hnarrow : d.w / 8 < (d.after pre).x + word.length) :
    ∃ i < word.length, (d.after (pre ++ word.take i)).row ≠ (d.after pre).row := by
  -- the last column in glyphs, or the column of the cursor where there is none
  obtain ⟨k, hk, hfit, hfull⟩ : ∃ k, k + 1 < word.length ∧ (k = 0 ∨ (d.after pre).x + k < d.w / 8) ∧
      d.w / 8 ≤ (d.after pre).x + k + 1 :=
    ⟨d.w / 8 - (d.after pre).x - 1, by have := after_x (d := d) pre; omega, by omega, by omega⟩
  have hword' := after_word hlast pre hword (by omega : k ≤ word.length)
    (hfit.imp_right fun hlt => ⟨hlt, fun _ => by omega⟩)
  have hmod : ((d.after pre).x + k) % 256 = (d.after pre).x + k := Nat.mod_eq_of_lt (by omega)
  apply Exists.intro (k + 1)
  rw [List.take_succ_eq_append_getElem (by omega), ← List.append_assoc, after_append, hword', hmod]
  have hfull' : d.w / 8 ≤ ((d.after pre).x + k + 1) % 256 := by omega
  have hleft : (d.kdCput { d.after pre with x := (d.after pre).x + k } word[k]).2.row ≠ (d.after pre).row :=
    row_of_full hlast (hword _ (List.getElem_mem _)) (after_y_le hlast pre) hfull'
  exact ⟨hk, hleft⟩

/-- A screen of the greatest height is scrolled by every character. -/
theorem row_of_tallest (htall : d.lastRow + 1 = 2 ^ 32) (pre : List ℤ) (c : ℤ) :
    (d.after (pre ++ [c])).row ≠ (d.after pre).row := by
  have hy := after_y_lt (d := d) pre
  have hscrolled (cur : Cursor) : (d.wrap cur).scrolled = cur.scrolled := by
    unfold wrap Cursor.nextRow
    split_ifs <;> rfl
  have hput : ((d.after pre).put c).2.scrolled = (d.after pre).scrolled := by
    unfold Cursor.put Cursor.nextRow
    split_ifs <;> rfl
  rw [after_append]
  unfold kdCput scroll Cursor.row
  rw [htall, Nat.mod_self, if_pos (Nat.zero_le _)]
  dsimp only
  rw [hscrolled, hput]
  omega

/-- In text mode the words decide. -/
theorem consoleRight_text (hmode : d.mode = .text) : d.ConsoleRight chars ↔ d.StaysOnScreen chars := by
  have hon (column row : ℕ) : d.OnScreen column row ↔ column < 80 := by
    unfold OnScreen
    rw [hmode]
  have hcolumns : d.columns = 80 := by
    unfold columns
    rw [hmode]
  have hrow : d.lastRow = d.h := by
    unfold lastRow
    rw [hmode]
  have hh := d.h_lt
  unfold StaysOnScreen
  rw [hmode]
  dsimp only
  constructor
  · intro hright pre word post hchars hword hlong hend
    have hone := hright.oneRow pre word post hchars hword (by rw [hcolumns]; exact hend)
    have hlow : d.h + 1 < 2 ^ 32 := by
      by_contra htall
      have hsplit := row_of_tallest (d := d) (by rw [hrow]; omega) pre word[0]
      apply hsplit
      rw [← hone 1 hlong, List.take_one, List.head?_eq_getElem?, List.getElem?_eq_getElem (by omega)]
      rfl
    apply And.intro hlow
    by_contra hnarrow
    obtain ⟨i, hi, hne⟩ := row_split (by rw [hrow]; exact hlow) pre hword hlong hend (by omega)
    exact hne (hone i hi)
  · intro hstays
    constructor
    · intro pre c post _ cell hcell
      rw [hon, put_cell hcell]
      exact after_x_lt hmode pre
    · intro pre c post _
      rw [hon]
      exact after_x_lt hmode _
    · intro pre word post hchars hword hend i hi
      rw [hcolumns] at hend
      by_cases hzero : i = 0
      · rw [hzero, List.take_zero, List.append_nil]
      · obtain ⟨hlow, hfit⟩ := hstays pre word post hchars hword (by omega) hend
        have hsame := after_word (by rw [hrow]; exact hlow) pre hword (Nat.le_of_lt hi)
          (Or.inr ⟨by omega, fun _ => by omega⟩)
        rw [hsame]
        rfl

end Text

section Graphics

variable {d} {chars : List ℤ}

/-- The characters that end a row are the newline and those that move the cursor past the last column. -/
theorem endsRow_iff {cur : Cursor} {c : ℤ} (hx : cur.x < d.w / 8) :
    d.EndsRow cur c ↔ c = 10 ∨ d.w / 8 ≤ (cur.put c).2.x := by
  unfold EndsRow Cursor.put
  split_ifs with hback htab hreturn hline hprint <;> unfold Printable at *
  · change _ ↔ c = 10 ∨ d.w / 8 ≤ cur.x - 1
    omega
  · change _ ↔ c = 10 ∨ d.w / 8 ≤ 8 * ((cur.x + 8) / 8) % 256
    omega
  · change _ ↔ c = 10 ∨ d.w / 8 ≤ 0
    omega
  · exact ⟨fun _ => Or.inl hline, fun _ => Or.inl hline⟩
  · change _ ↔ c = 10 ∨ d.w / 8 ≤ (cur.x + 1) % 256
    omega
  · change _ ↔ c = 10 ∨ d.w / 8 ≤ cur.x
    omega

/-- Only the newline changes the row by itself. -/
theorem put_y {cur : Cursor} {c : ℤ} (hc : c ≠ 10) : (cur.put c).2.y = cur.y := by
  unfold Cursor.put
  split_ifs <;> rfl

theorem put_newline (cur : Cursor) : (cur.put 10).2 = cur.nextRow := rfl

/-- The row after a character in graphics mode, of a screen that has a cell. -/
theorem kdCput_y {cur : Cursor} {c : ℤ} (hmode : d.mode = .graphics) (hx : cur.x < d.w / 8) (hy : cur.y < d.h / 14) :
    (d.EndsRow cur c ∧ (d.kdCput cur c).2.y = (cur.y + 1) % 256) ∨ (¬ d.EndsRow cur c ∧ (d.kdCput cur c).2.y = cur.y) := by
  have hrow : d.lastRow = d.h / 14 := by
    unfold lastRow
    rw [hmode]
  have hh := d.h_lt
  have hlast : d.lastRow + 1 < 2 ^ 32 := by omega
  have htext (cur : Cursor) : d.mode = .text → cur.x < 80 := fun h => absurd (hmode.symm.trans h) (by decide)
  have hmod : (cur.y + 1) % 256 ≤ cur.y + 1 := Nat.mod_le _ _
  rw [endsRow_iff hx]
  unfold kdCput
  by_cases hline : c = 10
  · left
    apply And.intro (Or.inl hline)
    have hstart : cur.nextRow.x < d.w / 8 := Nat.lt_of_le_of_lt (Nat.zero_le _) hx
    have hnext : cur.nextRow.y ≤ d.lastRow := by
      change (cur.y + 1) % 256 ≤ d.lastRow
      omega
    rw [hline, put_newline, wrap_of_lt hstart (htext _), scroll_of_le hlast hnext]
    rfl
  · by_cases hfull : d.w / 8 ≤ (cur.put c).2.x
    · left
      apply And.intro (Or.inr hfull)
      have hnext : (cur.put c).2.nextRow.y = (cur.y + 1) % 256 := by
        change ((cur.put c).2.y + 1) % 256 = _
        rw [put_y hline]
      rw [wrap_of_le hfull, scroll_of_le hlast (by omega), hnext]
    · right
      have hstays : (cur.put c).2.y = cur.y := put_y hline
      rw [wrap_of_lt (by omega) (htext _), scroll_of_le hlast (by omega), hstays]
      exact ⟨fun h => h.elim hline hfull, rfl⟩

/-- In graphics mode the last row that is whole decides. -/
theorem consoleRight_graphics (hmode : d.mode = .graphics) : d.ConsoleRight chars ↔ d.StaysOnScreen chars := by
  have hon (column row : ℕ) : d.OnScreen column row ↔ column < d.w / 8 ∧ row < d.h / 14 := by
    have hrows : 14 * (row + 1) ≤ d.h ↔ row < d.h / 14 := by omega
    unfold OnScreen
    rw [hmode, hrows]
  have hcolumns : d.columns = d.w / 8 := by
    unfold columns
    rw [hmode]
  have hlast : d.lastRow + 1 < 2 ^ 32 := by
    have hh := d.h_lt
    unfold lastRow
    rw [hmode]
    dsimp only
    omega
  have htext (n : ℕ) : d.mode = .text → n < 80 := fun h => absurd (hmode.symm.trans h) (by decide)
  unfold StaysOnScreen
  rw [hmode]
  dsimp only
  constructor
  · intro hright
    by_cases hempty : chars = []
    · exact Or.inl hempty
    · right
      obtain ⟨first, rest, rfl⟩ := List.exists_cons_of_ne_nil hempty
      have hfirst := (hon _ _).mp (hright.kept [] first rest rfl)
      refine ⟨by omega, by omega, ?_⟩
      intro pre c post hchars hends
      -- the cursor is on the screen before the character, at the start or after the one before
      have hbefore : (d.after pre).x < d.w / 8 ∧ (d.after pre).y < d.h / 14 := by
        rcases List.eq_nil_or_concat' pre with rfl | ⟨init, last, rfl⟩
        · exact ⟨Nat.lt_of_le_of_lt (Nat.zero_le _) hfirst.1, Nat.lt_of_le_of_lt (Nat.zero_le _) hfirst.2⟩
        · exact (hon _ _).mp (hright.kept init last (c :: post) (by rw [hchars]; simp))
      have hafter := ((hon _ _).mp (hright.kept pre c post hchars)).2
      rw [after_append] at hafter
      rcases kdCput_y (c := c) hmode hbefore.1 hbefore.2 with ⟨_, hy⟩ | ⟨hno, _⟩
      · rwa [hy] at hafter
      · exact absurd hends hno
  · intro hstays
    -- the cursor is on the screen after every prefix
    have hall (hsize : 1 ≤ d.w / 8 ∧ 1 ≤ d.h / 14 ∧ ∀ pre c post, chars = pre ++ c :: post →
        d.EndsRow (d.after pre) c → ((d.after pre).y + 1) % 256 < d.h / 14) (pre : List ℤ) :
        ∀ post, chars = pre ++ post → (d.after pre).x < d.w / 8 ∧ (d.after pre).y < d.h / 14 := by
      induction pre using List.reverseRecOn with
      | nil => exact fun _ _ => ⟨hsize.1, hsize.2.1⟩
      | append_singleton pre c ih =>
        intro post hchars
        rw [List.append_assoc] at hchars
        obtain ⟨hx, hy⟩ := ih _ hchars
        have hcolumn := after_x (d := d) (pre ++ [c])
        apply And.intro (by omega)
        rw [after_append]
        rcases kdCput_y (c := c) hmode hx hy with ⟨hends, hrow⟩ | ⟨_, hrow⟩
        · rw [hrow]
          exact hsize.2.2 pre c post hchars hends
        · rwa [hrow]
    have hsize (pre : List ℤ) (c : ℤ) (post : List ℤ) (hchars : chars = pre ++ c :: post) :=
      hall (hstays.resolve_left (by rw [hchars]; simp))
    constructor
    · intro pre c post hchars cell hcell
      rw [hon, put_cell hcell]
      exact hsize pre c post hchars pre _ hchars
    · intro pre c post hchars
      rw [hon]
      exact hsize pre c post hchars (pre ++ [c]) post (by rw [hchars]; simp)
    · intro pre word post hchars hword hend i hi
      rw [hcolumns] at hend
      rw [after_word hlast pre hword (Nat.le_of_lt hi) (Or.inr ⟨by omega, htext _⟩)]
      rfl

end Graphics

/-- The screen that `set_graphics_mode` assumes without a frame buffer. -/
def vgaText : Display := ⟨.text, 80, 24, by decide⟩

/-- A screen of 640 by 480 pixels. -/
def vgaGraphics : Display := ⟨.graphics, 640, 480, by decide⟩

/-- Eleven letters do not stay on a row of 80 columns, and the 34th newline leaves the cursor below the last whole row. -/
theorem consoleRight_vga :
    ¬ vgaText.ConsoleRight (List.replicate 11 65) ∧ ¬ vgaGraphics.ConsoleRight (List.replicate 34 10) := by
  constructor
  · intro hright
    have hrow := hright.oneRow [] (List.replicate 11 65) [] rfl (by decide) (by decide) 10 (by decide)
    exact absurd hrow (by decide)
  · intro hright
    have hlow : vgaGraphics.OnScreen _ _ := hright.kept (List.replicate 33 10) 10 [] rfl
    exact absurd hlow.2 (by decide +kernel)

/-- The console keeps its promise for exactly the texts that stay on the screen. -/
theorem consoleRight_iff (d : Display) (chars : List ℤ) : d.ConsoleRight chars ↔ d.StaysOnScreen chars := by
  cases hmode : d.mode with
  | text => exact consoleRight_text hmode
  | graphics => exact consoleRight_graphics hmode

end Display

end Cthulhu
