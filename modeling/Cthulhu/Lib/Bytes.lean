import Mathlib.Algebra.Group.Nat.Defs

/-!
# Bytes of 64-bit words

The eight bytes of a word, least significant first, and the word with given bytes. A frame of
words is read and written by bytes through these two.
-/

namespace Cthulhu.Lib

/-- The byte of a word at a position. -/
def byteOf (w k : ℕ) : ℕ := w / 256 ^ k % 256

/-- The word with the given bytes. -/
def wordOf (b : ℕ → ℕ) : ℕ :=
  b 0 + 256 * b 1 + 256 ^ 2 * b 2 + 256 ^ 3 * b 3 + 256 ^ 4 * b 4 + 256 ^ 5 * b 5 + 256 ^ 6 * b 6 + 256 ^ 7 * b 7

/-- A byte is below 256. -/
theorem byteOf_lt (w k : ℕ) : byteOf w k < 256 := Nat.mod_lt _ (by decide)

/-- The bytes of a word made of bytes are these bytes. -/
theorem byteOf_wordOf {b : ℕ → ℕ} (hb : ∀ j, b j < 256) {k : ℕ} (hk : k < 8) : byteOf (wordOf b) k = b k := by
  have h0 := hb 0
  have h1 := hb 1
  have h2 := hb 2
  have h3 := hb 3
  have h4 := hb 4
  have h5 := hb 5
  have h6 := hb 6
  have h7 := hb 7
  unfold byteOf wordOf
  match k, hk with
  | 0, _ => omega
  | 1, _ => omega
  | 2, _ => omega
  | 3, _ => omega
  | 4, _ => omega
  | 5, _ => omega
  | 6, _ => omega
  | 7, _ => omega

/-- The byte at an offset of an array of words. -/
def readByte (words : ℕ → ℕ) (o : ℕ) : ℕ := byteOf (words (o / 8)) (o % 8)

/-- The array of words with the bytes from an offset on replaced by those of a source. -/
def writeBytes (words : ℕ → ℕ) (off n : ℕ) (source : ℕ → ℕ) (i : ℕ) : ℕ :=
  wordOf fun k => if off ≤ 8 * i + k ∧ 8 * i + k < off + n then source (8 * i + k - off) % 256 else byteOf (words i) k

/-- The bytes read after a write. -/
theorem readByte_writeBytes (words : ℕ → ℕ) (off n : ℕ) (source : ℕ → ℕ) (o : ℕ) :
    readByte (writeBytes words off n source) o =
      if off ≤ o ∧ o < off + n then source (o - off) % 256 else readByte words o := by
  have hsplit : 8 * (o / 8) + o % 8 = o := Nat.div_add_mod o 8
  unfold readByte writeBytes
  rw [byteOf_wordOf _ (Nat.mod_lt o (by decide)), hsplit]
  intro k
  split
  · exact Nat.mod_lt _ (by decide)
  · exact byteOf_lt _ _

/-- The number whose bytes are the first of the given ones, least significant first. -/
def leWord (b : ℕ → ℕ) : ℕ → ℕ
  | 0 => 0
  | n + 1 => b 0 % 256 + 256 * leWord (fun k => b (k + 1)) n

/-- Only the bytes of the number matter. -/
theorem leWord_congr {b b' : ℕ → ℕ} {n : ℕ} (h : ∀ k < n, b k = b' k) : leWord b n = leWord b' n := by
  induction n generalizing b b' with
  | zero => rfl
  | succ n ih =>
    rw [leWord, leWord, h 0 (Nat.succ_pos n), ih fun k hk => h (k + 1) (Nat.succ_lt_succ hk)]

/-- A number of so many bytes is below their power. -/
theorem leWord_lt (b : ℕ → ℕ) (n : ℕ) : leWord b n < 256 ^ n := by
  induction n generalizing b with
  | zero => exact Nat.one_pos
  | succ n ih =>
    have hrest := ih fun k => b (k + 1)
    have hbyte := Nat.mod_lt (b 0) (show 0 < 256 by decide)
    rw [leWord, Nat.pow_succ']
    omega

/-- A number of more bytes continues with the bytes behind. -/
theorem leWord_add (b : ℕ → ℕ) (n k : ℕ) : leWord b (n + k) = leWord b n + 256 ^ n * leWord (fun j => b (n + j)) k := by
  induction n generalizing b with
  | zero => simp [leWord]
  | succ n ih =>
    have hshift : (fun j => b (n + 1 + j)) = fun j => b (n + j + 1) := by
      funext j
      rw [Nat.add_right_comm]
    rw [Nat.add_right_comm, leWord, leWord, ih, hshift, Nat.pow_succ', Nat.mul_add, Nat.mul_assoc, Nat.add_assoc]

/-- Bytes out of the middle of a number. -/
theorem leWord_slice (b : ℕ → ℕ) {k n m : ℕ} (h : k + n ≤ m) :
    leWord b m / 256 ^ k % 256 ^ n = leWord (fun j => b (k + j)) n := by
  have hm : m = k + (n + (m - (k + n))) := by omega
  rw [hm, leWord_add b k, Nat.add_mul_div_left _ _ (Nat.pow_pos (by decide)), Nat.div_eq_of_lt (leWord_lt b k),
    Nat.zero_add, leWord_add _ n, Nat.add_mul_mod_self_left, Nat.mod_eq_of_lt (leWord_lt _ n)]

/-- The bytes behind the first. -/
theorem byteOf_succ (w k : ℕ) : byteOf w (k + 1) = byteOf (w / 256) k := by
  rw [byteOf, byteOf, Nat.div_div_eq_div_mul, Nat.pow_succ']

/-- The first bytes of a number give it back as far as they go. -/
theorem leWord_byteOf (w n : ℕ) : leWord (byteOf w) n = w % 256 ^ n := by
  induction n generalizing w with
  | zero => exact (Nat.mod_one w).symm
  | succ n ih =>
    have hhead : byteOf w 0 % 256 = w % 256 := by simp [byteOf]
    rw [leWord, leWord_congr fun k _ => byteOf_succ w k, ih, hhead, Nat.pow_succ', Nat.mod_mul]

/-- The bytes of a number given by bytes are these bytes. -/
theorem byteOf_leWord (b : ℕ → ℕ) {n k : ℕ} (hk : k < n) : byteOf (leWord b n) k = b k % 256 := by
  induction n generalizing b k with
  | zero => exact absurd hk (Nat.not_lt_zero k)
  | succ n ih =>
    have hhead := Nat.mod_lt (b 0) (show 0 < 256 by decide)
    cases k with
    | zero =>
      rw [leWord, byteOf, Nat.pow_zero, Nat.div_one, Nat.add_mul_mod_self_left, Nat.mod_mod]
    | succ k =>
      rw [leWord, byteOf_succ, Nat.add_mul_div_left _ _ (by decide), Nat.div_eq_of_lt hhead, Nat.zero_add]
      exact ih (fun k => b (k + 1)) (Nat.lt_of_succ_lt_succ hk)

end Cthulhu.Lib
