import Mathlib.Algebra.Group.Nat.Defs
import Mathlib.Data.Nat.Basic

/-!
# Machine words

Unsigned 64-bit arithmetic and the alignment macros of `commons.h` and `paging.c`. Words
are natural numbers below `2 ^ 64`; every operation that can wrap says so.
-/

namespace Cthulhu

/-- 64-bit addition. -/
def add64 (a b : ℕ) : ℕ := (a + b) % 2 ^ 64

/-- 64-bit subtraction of words, which wraps below zero. -/
def sub64 (a b : ℕ) : ℕ := if b ≤ a then a - b else a + 2 ^ 64 - b

/-- Decrement of a 32-bit counter, which wraps at zero. -/
def dec32 (a : ℕ) : ℕ := if a = 0 then 2 ^ 32 - 1 else a - 1

/-- `ALIGN(addr)`: the address with its low twelve bits cleared. -/
def align (addr : ℕ) : ℕ := 0x1000 * (addr / 0x1000)

/-- `_ALIGN_UP(v)`: the next page boundary, with the wrap of `v + 0x1000`. -/
def pageAlignUp (v : ℕ) : ℕ := if v % 0x1000 = 0 then v else align (add64 v 0x1000)

/-- `ALIGN_DOWN(a, b)`. -/
def alignDown (a b : ℕ) : ℕ := a - a % b

/-- `ALIGN_UP(a, b)`, with the wrap of the final addition. -/
def alignUp (a b : ℕ) : ℕ := if a % b = 0 then a else add64 (alignDown a b) b

/-- Bit `pos` of a word. -/
def bit (w pos : ℕ) : Bool := w / 2 ^ pos % 2 = 1

/-- A word with bit `pos` replaced, as an assignment to a one-bit field does. -/
def setBit (w pos : ℕ) (value : Bool) : ℕ :=
  w - w / 2 ^ pos % 2 * 2 ^ pos + (if value then 2 ^ pos else 0)

/-- The processor accepts the address. -/
def canonical (a : ℕ) : Bool := a < 2 ^ 47 || 2 ^ 64 - 2 ^ 47 ≤ a

/-- The address after `n` steps of a loop over pages, which wraps as its counter does. -/
def nthPage (first : ℕ) : ℕ → ℕ
  | 0 => first
  | n + 1 => add64 (nthPage first n) 0x1000

/-- Addition that stays below the word size is ordinary addition. -/
theorem add64_of_lt {a b : ℕ} (h : a + b < 2 ^ 64) : add64 a b = a + b := Nat.mod_eq_of_lt h

/-- Subtraction of a smaller word is ordinary subtraction. -/
theorem sub64_of_le {a b : ℕ} (h : b ≤ a) : sub64 a b = a - b := if_pos h

/-- A loop over pages steps through the residues of the word size. -/
theorem nthPage_eq {first : ℕ} (hfirst : first < 2 ^ 64) (n : ℕ) : nthPage first n = (first + 0x1000 * n) % 2 ^ 64 := by
  induction n with
  | zero => exact (Nat.mod_eq_of_lt hfirst).symm
  | succ n ih =>
    rw [nthPage, ih, add64, Nat.mul_succ, ← Nat.add_assoc]
    omega

/-- Every 64-bit sum is a word. -/
theorem add64_lt (a b : ℕ) : add64 a b < 2 ^ 64 := Nat.mod_lt _ (by decide)

/-- An aligned address is a multiple of the page size. -/
theorem align_mod (a : ℕ) : align a % 0x1000 = 0 := by
  unfold align
  omega

/-- Aligning goes down by less than a page. -/
theorem align_le (a : ℕ) : align a ≤ a ∧ a < align a + 0x1000 := by
  unfold align
  omega

/-- A page-aligned address is its own alignment. -/
theorem align_of_mod {a : ℕ} (h : a % 0x1000 = 0) : align a = a := by
  unfold align
  omega

/-- Aligning twice changes nothing. -/
@[simp] theorem align_align (a : ℕ) : align (align a) = align a := align_of_mod (align_mod a)

/-- `_ALIGN_UP` of an amount that stays a page below the word size. -/
theorem pageAlignUp_of_le {v : ℕ} (h : v + 0x1000 ≤ 2 ^ 64) : pageAlignUp v = 0x1000 * ((v + 0xFFF) / 0x1000) := by
  unfold pageAlignUp
  split
  · omega
  · rw [add64_of_lt (by omega), align]
    omega

/-- A word split at the replaced bit. -/
theorem setBit_eq (w pos : ℕ) (value : Bool) :
    setBit w pos value = 2 ^ pos * (2 * (w / 2 ^ (pos + 1)) + value.toNat) + w % 2 ^ pos := by
  have hpos : 0 < 2 ^ pos := Nat.two_pow_pos pos
  have hw := Nat.div_add_mod w (2 ^ pos)
  have hq := Nat.div_add_mod (w / 2 ^ pos) 2
  have hhalf : w / 2 ^ pos / 2 = w / 2 ^ (pos + 1) := by rw [Nat.div_div_eq_div_mul, Nat.pow_succ]
  rw [hhalf] at hq
  have hsplit : 2 ^ pos * (w / 2 ^ pos) =
      2 ^ pos * (2 * (w / 2 ^ (pos + 1))) + w / 2 ^ pos % 2 * 2 ^ pos := by
    rw [Nat.mul_comm (w / 2 ^ pos % 2), ← Nat.mul_add, hq]
  unfold setBit
  cases value with
  | false =>
    simp only [Bool.false_eq_true, if_false, Bool.toNat_false, Nat.add_zero]
    omega
  | true =>
    simp only [if_true, Bool.toNat_true, Nat.mul_add, Nat.mul_one]
    omega

/-- Replacing a bit keeps the bits above it. -/
theorem setBit_div (w pos : ℕ) (value : Bool) : setBit w pos value / 2 ^ (pos + 1) = w / 2 ^ (pos + 1) := by
  have hpos : 0 < 2 ^ pos := Nat.two_pow_pos pos
  rw [setBit_eq, Nat.pow_succ, ← Nat.div_div_eq_div_mul, Nat.mul_add_div hpos,
    Nat.div_eq_of_lt (Nat.mod_lt w hpos), ← Nat.pow_succ]
  cases value
  · simp
  · rw [Bool.toNat_true]
    omega

/-- Replacing a bit keeps the bits below it. -/
theorem setBit_mod (w pos : ℕ) (value : Bool) : setBit w pos value % 2 ^ pos = w % 2 ^ pos := by
  rw [setBit_eq, Nat.mul_add_mod, Nat.mod_mod]

/-- The replaced bit. -/
@[simp] theorem bit_setBit_self (w pos : ℕ) (value : Bool) : bit (setBit w pos value) pos = value := by
  have hpos : 0 < 2 ^ pos := Nat.two_pow_pos pos
  unfold bit
  rw [setBit_eq, Nat.mul_add_div hpos, Nat.div_eq_of_lt (Nat.mod_lt w hpos)]
  cases value <;> simp

/-- The other bits stay. -/
theorem bit_setBit_of_ne (w : ℕ) {pos other : ℕ} (value : Bool) (h : other ≠ pos) :
    bit (setBit w pos value) other = bit w other := by
  unfold bit
  rcases Nat.lt_or_gt_of_ne h with hlow | hhigh
  · have hread (x : ℕ) : x / 2 ^ other % 2 = x % 2 ^ pos / 2 ^ other % 2 := by
      obtain ⟨k, rfl⟩ : ∃ k, pos = other + 1 + k := ⟨pos - (other + 1), by omega⟩
      have hdvd : 2 ∣ 2 ^ (k + 1) := ⟨2 ^ k, by rw [Nat.pow_succ, Nat.mul_comm]⟩
      have hshape : 2 ^ (other + 1 + k) = 2 ^ other * 2 ^ (k + 1) := by
        rw [← Nat.pow_add, Nat.add_assoc, Nat.add_comm 1]
      rw [hshape, Nat.mod_mul_right_div_self, Nat.mod_mod_of_dvd _ hdvd]
    rw [hread, hread w, setBit_mod]
  · have hread (x : ℕ) : x / 2 ^ other = x / 2 ^ (pos + 1) / 2 ^ (other - (pos + 1)) := by
      rw [Nat.div_div_eq_div_mul, ← Nat.pow_add]
      congr 2
      omega
    rw [hread, hread w, setBit_div]

/-- Flags below the page bits do not move the address. -/
theorem align_setBit (w : ℕ) {pos : ℕ} (value : Bool) (h : pos < 12) : align (setBit w pos value) = align w := by
  have hread (x : ℕ) : x / 0x1000 = x / 2 ^ (pos + 1) / 2 ^ (12 - (pos + 1)) := by
    rw [Nat.div_div_eq_div_mul, ← Nat.pow_add, show pos + 1 + (12 - (pos + 1)) = 12 by omega]
  unfold align
  rw [hread, hread w, setBit_div]

/-- A word is determined by its bits. -/
theorem bit_ext {a b : ℕ} (h : ∀ k, bit a k = bit b k) : a = b := by
  refine Nat.eq_of_testBit_eq fun k => ?_
  rw [Nat.testBit_eq_decide_div_mod_eq, Nat.testBit_eq_decide_div_mod_eq]
  exact h k

/-- Setting a bit to the value it has changes nothing. -/
theorem setBit_eq_self_iff (w pos : ℕ) (value : Bool) : setBit w pos value = w ↔ bit w pos = value := by
  constructor
  · intro h
    rw [← h, bit_setBit_self]
  · rintro rfl
    refine bit_ext fun k => ?_
    by_cases hk : k = pos
    · rw [hk, bit_setBit_self]
    · exact bit_setBit_of_ne _ _ hk

end Cthulhu
